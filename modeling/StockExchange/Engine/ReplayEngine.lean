/-
`BookRegistry` (`registry/book_registry.cpp`), which makes a book for every symbol it is asked for, and
`ReplayEngine::replay` (`engine/replay_engine.cpp`), which applies the entries of a log file to one. The
books of a replay are told apart by symbol: each is the book of the requests for its own symbol alone.
-/
import StockExchange.Pipeline.Wal

namespace StockExchange

/-! ## The registry -/

/-- The books by symbol. A pointer to a book is its symbol: books are never removed. -/
abbrev BookRegistry := Symbol → Option OrderBook

namespace BookRegistry

def empty : BookRegistry := fun _ => none

def set (registry : BookRegistry) (symbol : Symbol) (book : OrderBook) : BookRegistry :=
  Function.update registry symbol (some book)

def getOrderBook (registry : BookRegistry) (symbol : Symbol) : OrderBook × BookRegistry :=
  match registry symbol with
  | some book => (book, registry)
  | none => (.init symbol, registry.set symbol (.init symbol))

variable {registry : BookRegistry} {symbol : Symbol}

@[simp] theorem set_self (book : OrderBook) : registry.set symbol book symbol = some book := Function.update_self ..

theorem set_of_ne {s : Symbol} (h : s ≠ symbol) (book : OrderBook) : registry.set symbol book s = registry s :=
  Function.update_of_ne h ..

theorem getOrderBook_fst : (registry.getOrderBook symbol).1 = (registry symbol).getD (.init symbol) := by
  unfold getOrderBook
  split
  next book h => rw [h]; rfl
  next h => rw [h]; rfl

theorem getOrderBook_self :
    (registry.getOrderBook symbol).2 symbol = some ((registry symbol).getD (.init symbol)) := by
  unfold getOrderBook
  split
  next book h => rw [h]; exact h
  next h => rw [h]; exact set_self _

theorem getOrderBook_of_ne {s : Symbol} (h : s ≠ symbol) : (registry.getOrderBook symbol).2 s = registry s := by
  unfold getOrderBook
  split
  · rfl
  · exact set_of_ne h _

/-- Looking up a book removes none. -/
theorem getOrderBook_ne_none {s : Symbol} (h : registry s ≠ none) : (registry.getOrderBook symbol).2 s ≠ none := by
  by_cases hs : s = symbol
  · subst hs
    rw [getOrderBook_self]
    exact Option.some_ne_none _
  · rwa [getOrderBook_of_ne hs]

/-- All books are of a kind. -/
def All (P : OrderBook → Prop) (registry : BookRegistry) : Prop := ∀ symbol book, registry symbol = some book → P book

theorem All.set_iff {P : OrderBook → Prop} (h : registry.All P) {book : OrderBook} :
    (registry.set symbol book).All P ↔ P book := by
  constructor
  · intro hall
    exact hall symbol book (set_self book)
  · intro hbook s b hs
    by_cases heq : s = symbol
    · rw [heq, set_self] at hs
      cases hs
      exact hbook
    · rw [set_of_ne heq] at hs
      exact h s b hs

theorem All.getOrderBook {P : OrderBook → Prop} (h : registry.All P) (hinit : P (.init symbol)) :
    (registry.getOrderBook symbol).2.All P := by
  unfold BookRegistry.getOrderBook
  split
  · exact h
  · exact h.set_iff.2 hinit

end BookRegistry

/-! ## Replay -/

/-- The registry being rebuilt and the outside world. -/
structure Replay where
  registry : BookRegistry
  env : Env

namespace ReplayEngine

def apply (s : Replay) (r : Request) : Replay :=
  let (book, registry) := s.registry.getOrderBook r.symbol
  let e := book.apply r.op s.env
  ⟨registry.set r.symbol e.book, e.env⟩

theorem apply_self (s : Replay) (r : Request) : (apply s r).registry r.symbol =
    some (((s.registry r.symbol).getD (.init r.symbol)).apply r.op s.env).book := by
  rw [← BookRegistry.getOrderBook_fst]
  exact BookRegistry.set_self _

theorem apply_of_ne (s : Replay) {r : Request} {symbol : Symbol} (h : symbol ≠ r.symbol) :
    (apply s r).registry symbol = s.registry symbol :=
  (BookRegistry.set_of_ne h _).trans (BookRegistry.getOrderBook_of_ne h)

/-- One turn of the loop; `after` is the memory behind the entry. -/
def turn (after : List UInt8) (s : Replay) (entry : WALEntry) : Replay :=
  match entry.request after with
  | none => s
  | some r => apply s r

/-- `replay` of a file that can be opened. -/
def replay (after file : List UInt8) (registry : BookRegistry) (env : Env) : Replay :=
  (WALEntry.packed.records file).foldl (turn after) ⟨registry, { env with counter := 1 }⟩

theorem foldl_turn (after : List UInt8) : ∀ (entries : List WALEntry) (s : Replay),
    entries.foldl (turn after) s = (entries.filterMap fun entry => entry.request after).foldl apply s
  | [], _ => rfl
  | entry :: entries, s => by
    rw [List.foldl_cons, foldl_turn after entries, turn]
    cases h : entry.request after with
    | none => simp only [List.filterMap_cons, h]
    | some r => simp only [List.filterMap_cons, h, List.foldl_cons]

end ReplayEngine

/-! ## Books of requests -/

/-- The operations that requests make on the book of a symbol. -/
def opsOf (symbol : Symbol) (rs : List Request) : List Op := (rs.filter fun r => r.symbol = symbol).map Request.op

theorem opsOf_append (symbol : Symbol) (rs rs' : List Request) :
    opsOf symbol (rs ++ rs') = opsOf symbol rs ++ opsOf symbol rs' := by
  rw [opsOf, List.filter_append, List.map_append]
  rfl

theorem opsOf_singleton_self (r : Request) : opsOf r.symbol [r] = [r.op] := by simp [opsOf]

theorem opsOf_singleton_of_ne {symbol : Symbol} {r : Request} (h : r.symbol ≠ symbol) : opsOf symbol [r] = [] := by
  simp [opsOf, h]

theorem SameBook.symm {b b' : BookState} (h : SameBook b b') : SameBook b' b :=
  ⟨h.symbol.symm, fun br => (h.levels br).symm, h.index.symm, h.nextNode.symm⟩

theorem SameBook.trans {b b' b'' : BookState} (h : SameBook b b') (h' : SameBook b' b'') : SameBook b b'' :=
  ⟨h.symbol.trans h'.symbol, fun br => (h.levels br).trans (h'.levels br), h.index.trans h'.index,
    h.nextNode.trans h'.nextNode⟩

/-- Operations that differ in the client alone keep books the same, in any two outside worlds. -/
theorem SameBook.apply_of_eq {b b' : OrderBook} (h : SameBook b.toBookState b'.toBookState) {op op' : Op}
    (hop : op.anonymous = op'.anonymous) (env env' : Env) :
    SameBook (b.apply op env).book.toBookState (b'.apply op' env').book.toBookState := by
  have h₁ := h.apply op env env'
  have h₂ := (SameBook.refl b'.toBookState).apply op' env' env'
  rw [hop] at h₁
  exact h₁.trans h₂.symm

/-- The book a registry has for a symbol, if any, is the one `ops` lead to from the empty book. -/
def BuiltBy (symbol : Symbol) (env : Env) (ops : List Op) (book : Option OrderBook) : Prop :=
  Option.Rel (fun b b' => SameBook b.toBookState b'.toBookState) book
    (if ops = [] then none else some (run symbol env ops).book)

theorem BuiltBy.sameBook {symbol : Symbol} {env : Env} {ops : List Op} {book : Option OrderBook}
    (h : BuiltBy symbol env ops book) :
    SameBook (book.getD (.init symbol)).toBookState (run symbol env ops).book.toBookState := by
  unfold BuiltBy at h
  split at h
  next hnil =>
    cases h
    rw [hnil]
    exact SameBook.refl _
  next =>
    cases h with
    | some hb => exact hb

theorem BuiltBy.snoc {symbol : Symbol} {env env' : Env} {ops : List Op} {book : Option OrderBook}
    (h : BuiltBy symbol env ops book) {op op' : Op} (hop : op.anonymous = op'.anonymous) :
    BuiltBy symbol env (ops ++ [op']) (some ((book.getD (.init symbol)).apply op env').book) := by
  have hne : ops ++ [op'] ≠ [] := List.append_ne_nil_of_right_ne_nil _ (List.cons_ne_nil _ _)
  rw [BuiltBy, if_neg hne, run_snoc]
  exact .some (h.sameBook.apply_of_eq hop _ _)

theorem BuiltBy.rel {symbol : Symbol} {env : Env} {ops : List Op} {book book' : Option OrderBook}
    (h : BuiltBy symbol env ops book) (h' : BuiltBy symbol env ops book') :
    Option.Rel (fun b b' => SameBook b.toBookState b'.toBookState) book book' := by
  unfold BuiltBy at h h'
  split at h
  next hnil =>
    rw [if_pos hnil] at h'
    cases h
    cases h'
    exact .none
  next hne =>
    rw [if_neg hne] at h'
    cases h with
    | some hb =>
      cases h' with
      | some hb' => exact .some (hb.trans hb'.symm)

/-- A registry filled by requests has, for each symbol, the book of the operations on that symbol. -/
theorem builtBy_foldl (env env' : Env) (rs : List Request) (symbol : Symbol) :
    BuiltBy symbol env' (opsOf symbol rs) ((rs.foldl ReplayEngine.apply ⟨.empty, env⟩).registry symbol) := by
  induction rs using List.reverseRecOn with
  | nil => exact .none
  | append_singleton rs r ih =>
    rw [List.foldl_append, List.foldl_cons, List.foldl_nil, opsOf_append]
    by_cases hs : symbol = r.symbol
    · subst hs
      rw [opsOf_singleton_self, ReplayEngine.apply_self]
      exact ih.snoc rfl
    · rw [opsOf_singleton_of_ne (Ne.symm hs), List.append_nil, ReplayEngine.apply_of_ne _ hs]
      exact ih

end StockExchange
