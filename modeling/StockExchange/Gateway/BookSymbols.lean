/-
The symbols that have a book. A book is made when a worker looks it up, and only the symbols of orders are
checked at the gateway: all books are of registered symbols exactly as long as every cancel and modify whose book is
looked up is for a registered symbol.
-/
import StockExchange.Gateway.Exchange
import Mathlib.Data.Set.Card

universe u

namespace StockExchange

namespace BookRegistry

/-- The symbols that have a book. -/
def symbols (registry : BookRegistry) : Set Symbol := {symbol | registry symbol ≠ none}

variable {registry : BookRegistry} {symbol : Symbol}

/-- A lookup makes the book that it is asked for. -/
theorem symbols_getOrderBook : (registry.getOrderBook symbol).2.symbols = insert symbol registry.symbols := by
  ext s
  unfold getOrderBook symbols
  split
  next book h =>
    simp only [Set.mem_ofPred_eq, Set.mem_insert_iff]
    constructor
    · exact .inr
    · rintro (rfl | hs)
      · rw [h]
        simp
      · exact hs
  next h =>
    by_cases hs : s = symbol
    · simp [hs]
    · simp [hs, set_of_ne hs]

theorem symbols_set {book book' : OrderBook} (h : registry symbol = some book) :
    (registry.set symbol book').symbols = registry.symbols := by
  ext s
  unfold symbols
  by_cases hs : s = symbol
  · simp [hs, h]
  · simp [set_of_ne hs]

end BookRegistry

/-- A request whose symbol is not checked before it is queued. -/
def Request.Unchecked : Request → Prop
  | .submit _ => False
  | .cancel _ => True
  | .modify _ => True

instance (r : Request) : Decidable r.Unchecked :=
  match r with
  | .submit _ => .isFalse id
  | .cancel _ => .isTrue trivial
  | .modify _ => .isTrue trivial

/-- The task for which a worker is about to look up the book. -/
def Worker.lookingUp : Worker → Option Task
  | .got task => some task
  | _ => none

namespace Exchange

variable {W : Type u}

/-- Only registered symbols have a book, and so there are no more books than registered symbols. -/
structure BooksRegistered (x : Exchange W) : Prop where
  registered : ∀ symbol ∈ x.pool.registry.symbols, symbol ∈ x.risk.allowedSymbols
  bounded : x.pool.registry.symbols.encard ≤ x.risk.allowedSymbols.card

theorem booksRegistered_iff {x : Exchange W} :
    x.BooksRegistered ↔ x.pool.registry.symbols ⊆ (x.risk.allowedSymbols : Set Symbol) := by
  constructor
  · exact fun h symbol hs => h.registered symbol hs
  · intro h
    refine ⟨fun symbol hs => h hs, ?_⟩
    rw [← Set.encard_coe_eq_coe_finsetCard]
    exact Set.encard_le_encard h

/-- A step that looks up the book of a cancel or a modify does so for a registered symbol. -/
def LooksUpRegistered (x : Exchange W) : ExchangeAction W → Prop
  | .pool (.getOrderBook w) =>
    ∀ task ∈ (x.pool.workers w).lookingUp, task.request.Unchecked → task.symbol ∈ x.risk.allowedSymbols
  | _ => True

instance (x : Exchange W) (a : ExchangeAction W) : Decidable (x.LooksUpRegistered a) :=
  match a with
  | .pool (.getOrderBook w) => inferInstanceAs (Decidable (∀ task ∈ (x.pool.workers w).lookingUp,
    task.request.Unchecked → task.symbol ∈ x.risk.allowedSymbols))
  | .pool (.submit _) | .pool (.dequeue _) | .pool (.lock _) | .pool (.log ..) | .pool (.apply _) | .pool (.unlock _)
  | .pool (.logFill ..) | .pool (.publishReport _) | .pool (.publishTrade _) | .pool (.finish _) | .pool .flush
  | .connect | .close _ | .registerSymbol _ | .packet .. | .dispatchReport | .dispatchTrade => .isTrue trivial

/-- The symbol of every order that is queued or in the hands of a worker is registered. -/
def OrdersRegistered (x : Exchange W) : Prop :=
  x.pool.AllTasks fun task => ¬ task.request.Unchecked → task.symbol ∈ x.risk.allowedSymbols

variable [DecidableEq W] {x x' : Exchange W} {a : ExchangeAction W}

/-- Symbols are never taken back. -/
theorem step_allowedSymbols (hs : x.step a = some x') : x.risk.allowedSymbols ⊆ x'.risk.allowedSymbols := by
  cases transition hs with
  | registerSymbol symbol => exact Finset.subset_insert ..
  | rejected c packet behind report risk env hc hp =>
    have hresult := Session.processPacket_spec hp
    show _ ⊆ risk.allowedSymbols
    rw [hresult.2.2]
  | accepted c packet behind task risk env hc hp hlen =>
    have hresult := Session.processPacket_spec hp
    have hchecked := hresult.1.checked
    show _ ⊆ risk.allowedSymbols
    split at hchecked
    next order _ =>
      obtain ⟨-, -, -, rfl⟩ := RiskChecker.validateOrder_ok.1 hchecked.2
      exact Finset.Subset.refl _
    next => rw [hchecked]
    next => rw [hchecked]
  | _ => exact Finset.Subset.refl _

theorem OrdersRegistered.step (hs : x.step a = some x') (h : x.OrdersRegistered) : x'.OrdersRegistered := by
  have hmono : ∀ task : Task, (¬ task.request.Unchecked → task.symbol ∈ x.risk.allowedSymbols) →
      ¬ task.request.Unchecked → task.symbol ∈ x'.risk.allowedSymbols :=
    fun task ht hr => step_allowedSymbols hs (ht hr)
  unfold OrdersRegistered at *
  cases transition hs with
  | accepted c packet behind task risk env hc hp hlen =>
    refine ⟨fun t ht => ?_, fun w t ht => hmono t (h.taken w t ht)⟩
    rcases List.mem_append.1 ht with ht | ht
    · exact hmono t (h.queued t ht)
    · -- the symbol of an order was registered when it was checked
      rw [List.mem_singleton.1 ht]
      intro hr
      have hresult := Session.processPacket_spec hp
      have hchecked := hresult.1.checked
      rw [hresult.1.symbol]
      split at hchecked
      next order horder =>
        refine step_allowedSymbols hs ?_
        rw [horder]
        exact (RiskChecker.validateOrder_ok.1 hchecked.2).1
      next _ heq => exact absurd (by rw [heq]; trivial) hr
      next _ heq => exact absurd (by rw [heq]; trivial) hr
  | pool a pool hstep ha => exact h.step hstep fun task heq => absurd heq (ha task)
  | _ => exact ⟨fun t ht => hmono t (h.queued t ht), fun w t ht => hmono t (h.taken w t ht)⟩

/-- The step lemma: only looking up a book can make one. -/
theorem step_booksRegistered (h : x.OrdersRegistered) (hb : x.BooksRegistered) (a : ExchangeAction W) :
    (∀ x' ∈ x.step a, x'.BooksRegistered) ↔ x.LooksUpRegistered a := by
  rw [booksRegistered_iff] at hb
  constructor
  · intro hall
    unfold LooksUpRegistered
    split
    next w =>
      intro task htask _
      have hw : x.pool.workers w = .got task := by
        unfold Worker.lookingUp at htask
        split at htask
        next t heq =>
          cases htask
          exact heq
        next => cases htask
      have hs : x.step (.pool (.getOrderBook w)) = some { x with
          pool := { x.pool with registry := (x.pool.registry.getOrderBook task.symbol).2 }.move w (.found task) } := by
        simp only [step, ThreadPool.step, hw, Option.map_some]
      refine (hall _ hs).registered task.symbol ?_
      show _ ∈ (x.pool.registry.getOrderBook task.symbol).2.symbols
      rw [BookRegistry.symbols_getOrderBook]
      exact Set.mem_insert ..
    next => trivial
  · intro hlook x' hs
    have hmono : (x.risk.allowedSymbols : Set Symbol) ⊆ x'.risk.allowedSymbols := step_allowedSymbols hs
    rw [booksRegistered_iff]
    cases transition hs with
    | pool a pool hstep ha =>
      show pool.registry.symbols ⊆ _
      cases ThreadPool.steps hstep with
      | getOrderBook w task hw =>
        show (x.pool.registry.getOrderBook task.symbol).2.symbols ⊆ _
        rw [BookRegistry.symbols_getOrderBook]
        refine Set.insert_subset ?_ hb
        by_cases hr : task.request.Unchecked
        · exact hlook task (by rw [hw]; rfl) hr
        · exact h.taken w task (by rw [hw]; rfl) hr
      | apply w task book hw hbook =>
        show (x.pool.registry.set task.symbol _).symbols ⊆ _
        rw [BookRegistry.symbols_set hbook]
        exact hb
      | _ => exact hb
    | _ => exact hb.trans hmono

/-- Only registered symbols have a book, in every state of a run, exactly when every cancel and modify for which a
worker looks up the book is for a symbol registered by then. -/
theorem books_registered_iff (env : Env) (actions : List (ExchangeAction W)) :
    (∀ pre, pre <+: actions → ∀ x, Machine.run step (start W env) pre = some x → x.BooksRegistered) ↔
      Machine.Along step LooksUpRegistered (start W env) actions := by
  refine Machine.always_iff_along (I := OrdersRegistered) (fun x a x' hs h => h.step hs)
    (fun x a h hb => step_booksRegistered h hb a) actions _ (ThreadPool.start_allTasks _ env) ?_
  rw [booksRegistered_iff]
  exact fun symbol hs => absurd rfl hs

/-- A client sends a cancel for a symbol, and a worker takes it up; AAPL is the one symbol registered. -/
def strayCancel (symbol : Packed.Chars 8) : List (ExchangeAction Unit) :=
  [.connect, .registerSymbol (text "AAPL"), .packet 1 ⟨MsgType.cancel, NetCancel.packed.put ⟨7, symbol, 1⟩⟩ [],
    .pool (.dequeue ()), .pool (.getOrderBook ())]

/-- The cancel of an order in a symbol never registered leaves a book for it. -/
theorem cancel_makes_book : ∃ x,
    Machine.run step (start Unit ⟨1, fun _ => 0, 0⟩) (strayCancel ⟨[90, 90, 0, 0, 0, 0, 0, 0], by decide⟩) = some x ∧
      text "ZZ" ∈ x.pool.registry.symbols ∧ text "ZZ" ∉ x.risk.allowedSymbols ∧ ¬ x.BooksRegistered := by
  have hrun : (Machine.run step (start Unit ⟨1, fun _ => 0, 0⟩)
      (strayCancel ⟨[90, 90, 0, 0, 0, 0, 0, 0], by decide⟩)).any fun x =>
        (x.pool.registry (text "ZZ")).isSome ∧ text "ZZ" ∉ x.risk.allowedSymbols := by decide
  obtain ⟨x, hx, hany⟩ := (Option.any_eq_true _ _).1 hrun
  obtain ⟨hbook, hnot⟩ := of_decide_eq_true hany
  have hmem : text "ZZ" ∈ x.pool.registry.symbols := Option.isSome_iff_ne_none.1 hbook
  exact ⟨x, hx, hmem, hnot, fun h => hnot (h.registered _ hmem)⟩

/-- A cancel in AAPL is for the book of a registered symbol. -/
theorem books_registered_iff_aapl :
    (Machine.run step (start Unit ⟨1, fun _ => 0, 0⟩) (strayCancel ⟨[65, 65, 80, 76, 0, 0, 0, 0], by decide⟩)).isSome ∧
      ∀ pre, pre <+: strayCancel ⟨[65, 65, 80, 76, 0, 0, 0, 0], by decide⟩ → ∀ x,
        Machine.run step (start Unit ⟨1, fun _ => 0, 0⟩) pre = some x → x.BooksRegistered :=
  ⟨by decide, (books_registered_iff ⟨1, fun _ => 0, 0⟩ _).2 (by decide)⟩

end Exchange

end StockExchange
