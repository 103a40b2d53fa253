/-
The trade ids. Every match takes the next id of one counter, whatever the book, so the fills of operations that go
through one after the other have consecutive ids, live and in a replay; how many fills an operation makes depends on
its own book alone.
-/
import StockExchange.Engine.ReplayEngine
import Mathlib.Data.List.Iterate

namespace StockExchange

open Greedy

/-! ## Consecutive ids -/

namespace TradeIDGenerator

/-- The ids that a counter gives next. -/
def ids (counter : UInt64) (n : ℕ) : List UInt64 := List.iterate (· + 1) counter n

/-- The counter when it has given them. -/
def after (counter : UInt64) (n : ℕ) : UInt64 := (· + 1)^[n] counter

theorem ids_add (counter : UInt64) (m n : ℕ) : ids counter (m + n) = ids counter m ++ ids (after counter m) n :=
  List.iterate_add ..

theorem after_add (counter : UInt64) (m n : ℕ) : after counter (m + n) = after (after counter m) n := by
  unfold after
  rw [Nat.add_comm, Function.iterate_add_apply]

theorem ids_take (counter : UInt64) {m n : ℕ} (h : m ≤ n) : (ids counter n).take m = ids counter m := by
  unfold ids
  rw [List.take_iterate, Nat.min_eq_left h]

end TradeIDGenerator

open TradeIDGenerator

theorem fillsFrom_ids (br : Branch) (symbol : Symbol) (incoming : Order) : ∀ (ts : List (Node × Quantity)) (env : Env),
    (fillsFrom br symbol incoming env ts).map Fill.tradeId = ids env.counter ts.length
  | [], _ => rfl
  | t :: ts, env => by
    rw [fillsFrom, List.map_cons, fillsFrom_ids br symbol incoming ts env.afterMatch]
    rfl

theorem fold_counter (br : Branch) (symbol : Symbol) : ∀ (ts : List (Node × Quantity)) (st : MatchState),
    (ts.foldl (record br symbol) st).env.counter = after st.env.counter ts.length
  | [], _ => rfl
  | t :: ts, st => by
    rw [List.foldl_cons, fold_counter br symbol ts]
    rfl

namespace BookState

theorem settle_counter (b : BookState) (br : Branch) (incoming : Order) (result : MatchResult) (env : Env) :
    (b.settle br incoming result env).env.counter = env.counter := by
  unfold settle
  split
  · split
    · split <;> rfl
    · rfl
  · rfl

theorem submitBranch_counter {b : BookState} (hb : b.WF) (order : Order) (result : MatchResult) (env : Env) :
    (b.submitBranch (Branch.ofSide order.side) order result env).env.counter =
      after env.counter (b.taken order).length := by
  unfold submitBranch
  rw [settle_counter, sweep_state order result env (hb.levels _) (hb.sizes _), fold_counter]
  rfl

end BookState

namespace OrderBook

/-- The number of fills of an operation: one for each match of what it submits. -/
theorem length_fills (b : OrderBook) (op : Op) (env : Env) : (b.apply op env).result.fills.length =
    ((b.submission op).elim 0 fun q => (q.1.taken q.2).length) := by
  cases h : b.submission op with
  | none => rw [apply_no_fills env h]; rfl
  | some q => exact (apply_fills env h).2.length_eq.symm

/-- The fills of an operation have the next ids of the counter. -/
theorem apply_ids (b : OrderBook) (op : Op) (env : Env) :
    (b.apply op env).result.fills.map Fill.tradeId = ids env.counter (b.apply op env).result.fills.length ∧
      (b.apply op env).env.counter = after env.counter (b.apply op env).result.fills.length := by
  have hlen := b.length_fills op env
  obtain ⟨o, ho, -, hresult, henv⟩ := b.applies op env
  rw [hresult] at hlen
  rw [hresult, henv]
  rcases ho.submission with ⟨hnone, hnil⟩ | ⟨b', order, hsome, hwf, rfl⟩
  · rw [hnil]
    refine ⟨rfl, ?_⟩
    cases ho with
    | submit order => cases hnone
    | cancelMiss id hi => rfl
    | cancel br n hn hi => rfl
    | modifyMiss request hi => rfl
    | modify br n request hn hid hi =>
      rw [submission_modify hn hid hi] at hnone
      cases hnone
  · rw [hsome] at hlen
    rw [hlen, BookState.submitBranch_fills hwf]
    exact ⟨fillsFrom_ids _ _ _ _ _, BookState.submitBranch_counter hwf order {} env⟩

/-! ## Marketable operations -/

/-- What the operation submits has something left to trade, and on the other side an order rests at a price that it
accepts. -/
def Marketable (b : OrderBook) (op : Op) : Prop :=
  ∃ q ∈ b.submission op, q.2.remainingQuantity ≠ 0 ∧
    ∃ n ∈ q.1.nodes (Branch.ofSide q.2.side).other, (Branch.ofSide q.2.side).accepts q.2 n.order.price

instance (b : OrderBook) (op : Op) : Decidable (b.Marketable op) :=
  inferInstanceAs (Decidable (∃ q ∈ b.submission op, _ ∧ ∃ n ∈ q.1.nodes _, _))

/-- These are the operations that trade. -/
theorem marketable_iff (b : OrderBook) (op : Op) (env : Env) :
    b.Marketable op ↔ (b.apply op env).result.fills ≠ [] := by
  have htaken : ∀ (b' : BookState) (order : Order), b'.taken order ≠ [] ↔ order.remainingQuantity ≠ 0 ∧
      ∃ n ∈ b'.nodes (Branch.ofSide order.side).other, (Branch.ofSide order.side).accepts order n.order.price := by
    intro b' order
    rw [BookState.taken, Ne, takes_eq_nil, not_or, BookState.eligible, List.filter_eq_nil_iff]
    simp only [not_forall, not_not, exists_prop]
  unfold Marketable
  rw [← List.length_pos_iff, b.length_fills op env]
  cases b.submission op with
  | none => simp
  | some q => simp only [Option.mem_some_iff, exists_eq_left', Option.elim_some, List.length_pos_iff, htaken]

end OrderBook

/-! ## The same number of fills -/

/-- Operations that differ in the client alone submit, to books that differ in clients alone, orders that differ in the
client alone. -/
theorem SameBook.submission {b b' : OrderBook} (h : SameBook b.toBookState b'.toBookState) (op : Op) :
    Option.Rel (fun q q' => SameBook q.1 q'.1 ∧ q.2.anonymous = q'.2.anonymous) (b.submission op)
      (b'.submission op.anonymous) := by
  cases op with
  | submit order => exact .some ⟨h, rfl⟩
  | cancel id => exact .none
  | modify request =>
    rcases b.modify_cases request { clock := fun _ => 0 } with ⟨hi, -⟩ | ⟨br, n, hn, hid, hi, -⟩
    · have hi' : b'.orderIndex request.anonymous.orderId = none := by
        rw [← h.index]
        exact hi
      show Option.Rel _ _ (b'.submission (.modify request.anonymous))
      rw [OrderBook.submission_modify_none hi, OrderBook.submission_modify_none hi']
      exact .none
    · rcases b'.modify_cases request.anonymous { clock := fun _ => 0 } with ⟨hi', -⟩ | ⟨br', n', hn', hid', hi', -⟩
      · rw [h.index] at hi
        exact absurd (hi.symm.trans hi') (by simp)
      · obtain ⟨rfl, heq⟩ := h.indexed hn hn' hi hi'
        rw [← hid] at hi
        rw [← hid'] at hi'
        show Option.Rel _ _ (b'.submission (.modify request.anonymous))
        rw [OrderBook.submission_modify hn hid hi, OrderBook.submission_modify hn' hid' hi']
        refine .some ⟨h.without b.wf b'.wf hn hn' heq, ?_⟩
        obtain ⟨c, hc⟩ := Order.eq_of_anonymous (congrArg Node.order heq)
        rw [hc]
        rfl

theorem SameBook.length_taken {b b' : BookState} (h : SameBook b b') {order order' : Order}
    (horder : order.anonymous = order'.anonymous) : (b.taken order).length = (b'.taken order').length := by
  obtain ⟨c, rfl⟩ := Order.eq_of_anonymous horder
  have hel : (b.eligible (Branch.ofSide order.side) order).map Node.anonymous =
      (b'.eligible (Branch.ofSide order.side) order).map Node.anonymous :=
    h.filter _ fun p => (Branch.ofSide order.side).accepts order p
  have hlen : ∀ l : List Node, (takes Node.size order.remainingQuantity l).length =
      (takes Node.size order.remainingQuantity (l.map Node.anonymous)).length := by
    intro l
    rw [(takes_comp Node.anonymous Node.size order.remainingQuantity l).1, List.length_map]
    rfl
  have htaken : (b'.taken { order with clientId := c }).length =
      (takes Node.size order.remainingQuantity (b'.eligible (Branch.ofSide order.side) order)).length := rfl
  rw [htaken, hlen, ← hel, ← hlen]
  rfl

/-- The number of fills does not depend on clients, trade ids or the clock. -/
theorem SameBook.length_fills {b b' : OrderBook} (h : SameBook b.toBookState b'.toBookState) {op op' : Op}
    (hop : op.anonymous = op'.anonymous) (env env' : Env) :
    (b.apply op env).result.fills.length = (b'.apply op' env').result.fills.length := by
  have hlen : ∀ {b b' : OrderBook} (op : Op) (env env' : Env), SameBook b.toBookState b'.toBookState →
      (b.apply op env).result.fills.length = (b'.apply op.anonymous env').result.fills.length := by
    intro b b' op env env' h
    rw [OrderBook.length_fills, OrderBook.length_fills]
    have hq := h.submission op
    revert hq
    generalize b.submission op = q
    generalize b'.submission op.anonymous = q'
    intro hq
    cases hq with
    | none => rfl
    | some hq => exact hq.1.length_taken hq.2
  rw [hlen op env env' h, hop]
  exact (hlen op' env' env' (SameBook.refl b'.toBookState)).symm

/-! ## The fills of a replay -/

namespace ReplayEngine

/-- The fills that a request makes in a replay, each with the symbol of the book that made it. -/
def fillsOf (s : Replay) (r : Request) : List (Symbol × Fill) :=
  ((s.registry.getOrderBook r.symbol).1.apply r.op s.env).result.fills.map fun fill => (r.symbol, fill)

/-- The fills made by the turns of the loop for a list of entries. -/
def turnFills (after : List UInt8) (s : Replay) : List WALEntry → List (Symbol × Fill)
  | [] => []
  | entry :: entries => ((entry.request after).elim [] (fillsOf s)) ++ turnFills after (turn after s entry) entries

/-- All fills of `replay`. -/
def replayFills (after file : List UInt8) (registry : BookRegistry) (env : Env) : List (Symbol × Fill) :=
  turnFills after ⟨registry, { env with counter := 1 }⟩ (WALEntry.packed.records file)

/-- The fills of a list of requests. -/
def requestFills (s : Replay) : List Request → List (Symbol × Fill)
  | [] => []
  | r :: rs => fillsOf s r ++ requestFills (apply s r) rs

theorem turnFills_eq (after : List UInt8) : ∀ (entries : List WALEntry) (s : Replay),
    turnFills after s entries = requestFills s (entries.filterMap fun entry => entry.request after)
  | [], _ => rfl
  | entry :: entries, s => by
    rw [turnFills, turnFills_eq after entries, turn]
    cases h : entry.request after with
    | none => simp only [List.filterMap_cons, h, Option.elim_none, List.nil_append]
    | some r => simp only [List.filterMap_cons, h, Option.elim_some, requestFills]

theorem requestFills_append : ∀ (rs rs' : List Request) (s : Replay),
    requestFills s (rs ++ rs') = requestFills s rs ++ requestFills (rs.foldl apply s) rs'
  | [], _, _ => rfl
  | r :: rs, rs', s => by
    rw [List.cons_append, requestFills, requestFills, requestFills_append rs rs', List.append_assoc, List.foldl_cons]

/-- A replay numbers its fills from the counter on. -/
theorem requestFills_ids : ∀ (rs : List Request) (s : Replay),
    (requestFills s rs).map (fun q => q.2.tradeId) = ids s.env.counter (requestFills s rs).length
  | [], _ => rfl
  | r :: rs, s => by
    obtain ⟨hids, hcounter⟩ := (s.registry.getOrderBook r.symbol).1.apply_ids r.op s.env
    have hrest := requestFills_ids rs (apply s r)
    have hafter : (apply s r).env.counter = after s.env.counter (fillsOf s r).length := by
      rw [fillsOf, List.length_map]
      exact hcounter
    have hfirst : (fillsOf s r).map (fun q => q.2.tradeId) = ids s.env.counter (fillsOf s r).length := by
      rw [fillsOf, List.map_map, List.length_map]
      exact hids
    rw [requestFills, List.map_append, List.length_append, ids_add, hfirst, hrest, hafter]

end ReplayEngine

/-! ## Which books the fills are of -/

/-- The number of fills of a request in the book of the requests in front of it. -/
def fillCount (env : Env) (rs : List Request) (r : Request) : ℕ :=
  ((run r.symbol env (opsOf r.symbol rs)).book.apply r.op env).result.fills.length

/-- The symbols of the fills of the request with a number. -/
def tradesOf (env : Env) (rs : List Request) (i : ℕ) : List Symbol :=
  (rs[i]?).elim [] fun r => List.replicate (fillCount env (rs.take i) r) r.symbol

theorem tradesOf_append (env : Env) {rs : List Request} {i : ℕ} (hi : i < rs.length) (rs' : List Request) :
    tradesOf env (rs ++ rs') i = tradesOf env rs i := by
  rw [tradesOf, tradesOf, List.getElem?_append_left hi, List.take_append_of_le_length (Nat.le_of_lt hi)]

theorem tradesOf_length (env : Env) (rs : List Request) (r : Request) :
    tradesOf env (rs ++ [r]) rs.length = List.replicate (fillCount env rs r) r.symbol := by
  rw [tradesOf, List.getElem?_concat_length, List.take_left, Option.elim_some]

namespace ReplayEngine

/-- A replay from nothing makes, for each request, the fills of the book of the requests in front of it. -/
theorem fillsOf_foldl (env env' : Env) (rs : List Request) (r : Request) :
    (fillsOf (rs.foldl apply ⟨.empty, env⟩) r).map Prod.fst = List.replicate (fillCount env' rs r) r.symbol := by
  let s := rs.foldl apply ⟨.empty, env⟩
  have hsame := (builtBy_foldl env env' rs r.symbol).sameBook
  have hlen : ((s.registry.getOrderBook r.symbol).1.apply r.op s.env).result.fills.length = fillCount env' rs r := by
    rw [BookRegistry.getOrderBook_fst]
    exact hsame.length_fills rfl _ _
  rw [fillsOf, List.map_map, ← hlen]
  exact List.map_const' ..

theorem requestFills_symbols (env env' : Env) (rs : List Request) :
    (requestFills ⟨.empty, env⟩ rs).map Prod.fst = (List.range rs.length).flatMap (tradesOf env' rs) := by
  induction rs using List.reverseRecOn with
  | nil => rfl
  | append_singleton rs r ih =>
    have hbefore : (List.range rs.length).flatMap (tradesOf env' (rs ++ [r])) =
        (List.range rs.length).flatMap (tradesOf env' rs) :=
      List.flatMap_congr fun i hi => tradesOf_append env' (List.mem_range.1 hi) [r]
    rw [requestFills_append, List.map_append, ih, List.length_append, List.length_singleton, List.range_succ,
      List.flatMap_append, List.flatMap_singleton, tradesOf_length, hbefore, requestFills, requestFills, List.append_nil,
      fillsOf_foldl env env']

end ReplayEngine

/-! ## The fills of a book -/

/-- The fills of the book of a symbol. -/
def bookFills (symbol : Symbol) (fills : List (Symbol × Fill)) : List Fill :=
  (fills.filter fun q => q.1 = symbol).map Prod.snd

/-- If two lists of fills are numbered from the same counter, and the books trade in the order of the one as far as in
that of the other, then the fills of every book have the same ids. -/
theorem bookFills_isPrefix {counter : UInt64} {fills fills' : List (Symbol × Fill)}
    (hids : fills.map (fun q => q.2.tradeId) = ids counter fills.length)
    (hids' : fills'.map (fun q => q.2.tradeId) = ids counter fills'.length)
    (hsymbols : fills.map Prod.fst <+: fills'.map Prod.fst) (symbol : Symbol) :
    (bookFills symbol fills).map Fill.tradeId <+: (bookFills symbol fills').map Fill.tradeId := by
  have hlen : fills.length ≤ fills'.length := by
    have hle := hsymbols.length_le
    rwa [List.length_map, List.length_map] at hle
  have hzip : ∀ l : List (Symbol × Fill), l.map (fun q => (q.1, q.2.tradeId)) =
      (l.map Prod.fst).zip (l.map fun q => q.2.tradeId) := fun l => List.zip_map'.symm
  have hpairs : fills.map (fun q => (q.1, q.2.tradeId)) <+: fills'.map fun q => (q.1, q.2.tradeId) := by
    have htake : (fills'.map fun q => (q.1, q.2.tradeId)).take fills.length = fills.map fun q => (q.1, q.2.tradeId) := by
      rw [hzip, hzip, List.zip, List.take_zipWith, hids, hids', ids_take counter hlen]
      rw [List.prefix_iff_eq_take, List.length_map] at hsymbols
      rw [← hsymbols]
    rw [← htake]
    exact List.take_prefix ..
  have hbook : ∀ l : List (Symbol × Fill), (bookFills symbol l).map Fill.tradeId =
      ((l.map fun q => (q.1, q.2.tradeId)).filter fun q => q.1 = symbol).map Prod.snd := by
    intro l
    rw [bookFills, List.filter_map, List.map_map, List.map_map]
    rfl
  rw [hbook, hbook]
  exact (hpairs.filter _).map _

end StockExchange
