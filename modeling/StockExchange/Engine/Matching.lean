/-
What the matching loops compute: the inner loop is the greedy allocation of the incoming quantity
over the queue, one `record` per take (`matchQueue_eq`); the outer loop is the inner loop over the
resting orders of all levels the incoming order accepts, one after another (`walk_matchLevel`).
-/
import StockExchange.Lib.Greedy
import StockExchange.Engine.BookState

namespace StockExchange

open Greedy

/-! ## One match -/

/-- The buy order of a match between an incoming and a resting order. -/
def Branch.buyOf : Branch → Order → Order → Order
  | .buy, incoming, _ => incoming
  | .sell, _, resting => resting

/-- The sell order of a match between an incoming and a resting order. -/
def Branch.sellOf : Branch → Order → Order → Order
  | .buy, _, resting => resting
  | .sell, incoming, _ => incoming

/-- The outside world after one match. -/
def Env.afterMatch (env : Env) : Env := { env with counter := env.counter + 1, reads := env.reads + 1 }

/-- The fill of a match of `qty`. -/
def fillOf (br : Branch) (symbol : Symbol) (incoming resting : Order) (qty : Quantity) (env : Env) : Fill where
  tradeId := env.counter
  buyOrderId := (br.buyOf incoming resting).orderId
  sellOrderId := (br.sellOf incoming resting).orderId
  symbol := symbol
  price := execPrice (br.buyOf incoming resting) (br.sellOf incoming resting)
  quantity := qty
  timestamp := env.clock env.reads

/-- The two reports of a match of `qty`, the buy order's first. -/
def reportsOf (br : Branch) (incoming resting : Order) (qty : Quantity) (env : Env) : List ExecutionReport :=
  let px := execPrice (br.buyOf incoming resting) (br.sellOf incoming resting)
  let now := env.clock env.reads
  [matchReport ((br.buyOf incoming resting).reduce qty) qty px now,
    matchReport ((br.sellOf incoming resting).reduce qty) qty px now]

/-- What can be taken from a node. -/
def Node.size (n : Node) : Quantity := n.order.remainingQuantity

theorem Node.reduce_zero (n : Node) : n.reduce 0 = n := by simp [Node.reduce, Order.reduce]

theorem Node.reduce_size_ne {n : Node} {r : Quantity} (h : r < n.size) : (n.reduce r).size ≠ 0 := by
  unfold Node.size at *
  rw [Node.reduce_order, Order.reduce_remaining]
  grind

/-- The loop variables after `t.2` has been taken from the resting order `t.1`. -/
def record (br : Branch) (symbol : Symbol) (st : MatchState) (t : Node × Quantity) : MatchState where
  incoming := st.incoming.reduce t.2
  index := if t.1.size ≤ t.2 then st.index.remove t.1.order.orderId else st.index
  result := { st.result with
    fills := st.result.fills ++ [fillOf br symbol st.incoming t.1.order t.2 st.env]
    executionReports := st.result.executionReports ++ reportsOf br st.incoming t.1.order t.2 st.env }
  env := st.env.afterMatch

theorem matchQty_branch (br : Branch) (incoming resting : Order) :
    matchQty (br.buyOf incoming resting) (br.sellOf incoming resting) =
      if resting.remainingQuantity ≤ incoming.remainingQuantity then resting.remainingQuantity
      else incoming.remainingQuantity := by
  rw [← UInt32.toNat_inj, matchQty_toNat]
  simp only [UInt32.le_iff_toNat_le]
  cases br <;> simp only [Branch.buyOf, Branch.sellOf] <;> split <;> omega

/-- The call of `matchOrders` between two orders that both have something left. -/
theorem matchFront_eq (br : Branch) (symbol : Symbol) (resting : Order) (st : MatchState) (qty : Quantity)
    (hq : qty = if resting.remainingQuantity ≤ st.incoming.remainingQuantity then resting.remainingQuantity
      else st.incoming.remainingQuantity) (h0 : qty ≠ 0) :
    matchFront br symbol resting st = (resting.reduce qty,
      { st with
        incoming := st.incoming.reduce qty
        result := { st.result with
          fills := st.result.fills ++ [fillOf br symbol st.incoming resting qty st.env]
          executionReports := st.result.executionReports ++ reportsOf br st.incoming resting qty st.env }
        env := st.env.afterMatch }) := by
  have hm := matchQty_branch br st.incoming resting
  rw [← hq] at hm
  unfold matchFront matchOrders
  cases br <;> simp only [Branch.buyOf, Branch.sellOf] at hm <;> simp only [hm, if_neg h0] <;> rfl

/-- A match with nothing to take changes nothing. -/
theorem matchFront_zero (br : Branch) (symbol : Symbol) (resting : Order) (st : MatchState)
    (h : resting.remainingQuantity = 0) : matchFront br symbol resting st = (resting, st) := by
  have hm := matchQty_branch br st.incoming resting
  rw [h, if_pos (UInt32.le_iff_toNat_le.2 (Nat.zero_le _))] at hm
  unfold matchFront matchOrders
  cases br <;> simp only [Branch.buyOf, Branch.sellOf] at hm <;> simp only [hm, if_true]

/-- A resting order left with a remainder has filled the incoming order. -/
theorem matchFront_exhausts (br : Branch) (symbol : Symbol) (resting : Order) (st : MatchState)
    (h : (matchFront br symbol resting st).1.remainingQuantity ≠ 0) :
    (matchFront br symbol resting st).2.incoming.remainingQuantity = 0 := by
  by_cases hr : resting.remainingQuantity = 0
  · rw [matchFront_zero br symbol resting st hr] at h
    exact absurd hr h
  by_cases hi : st.incoming.remainingQuantity = 0
  · -- nothing to match with: both orders stay as they are
    unfold matchFront matchOrders
    have hm := matchQty_branch br st.incoming resting
    have hle : ¬ resting.remainingQuantity ≤ st.incoming.remainingQuantity := by
      rw [hi]; grind
    rw [if_neg hle, hi] at hm
    cases br <;> simp only [Branch.buyOf, Branch.sellOf] at hm <;> simp only [hm, if_true] <;> exact hi
  by_cases hle : resting.remainingQuantity ≤ st.incoming.remainingQuantity
  · rw [matchFront_eq br symbol resting st _ (by rw [if_pos hle]) hr] at h
    simp at h
  · rw [matchFront_eq br symbol resting st _ (by rw [if_neg hle]) hi]
    simp

/-! ## The inner loop -/

/-- The inner loop as the source writes it: after each match it goes round again, with the front
order popped or not. -/
theorem matchQueue_loop (br : Branch) (symbol : Symbol) (n : Node) (queue : List Node) (st : MatchState) :
    matchQueue br symbol (n :: queue) st =
      if st.incoming.remainingQuantity > 0 then
        let (resting, st) := matchFront br symbol n.order st
        if resting.remainingQuantity = 0 then
          matchQueue br symbol queue { st with index := st.index.remove resting.orderId }
        else matchQueue br symbol ({ n with order := resting } :: queue) st
      else (n :: queue, st) := by
  conv_lhs => unfold matchQueue
  split
  · simp only
    split
    · rfl
    · -- the source loops once more and leaves at the head of the loop
      rename_i hr
      have hz := matchFront_exhausts br symbol n.order st hr
      conv_rhs => unfold matchQueue
      rw [hz, if_neg (by decide)]
  · rfl

theorem matchQueue_done (br : Branch) (symbol : Symbol) (queue : List Node) (st : MatchState)
    (h : st.incoming.remainingQuantity = 0) : matchQueue br symbol queue st = (queue, st) := by
  cases queue with
  | nil => rfl
  | cons n queue => rw [matchQueue, h, if_neg (by decide)]

/-- The inner loop over two queues is the loop over the first and then over the second. -/
theorem matchQueue_append (br : Branch) (symbol : Symbol) (ys : List Node) :
    ∀ (xs : List Node) (st : MatchState), matchQueue br symbol (xs ++ ys) st =
      ((matchQueue br symbol xs st).1 ++ (matchQueue br symbol ys (matchQueue br symbol xs st).2).1,
        (matchQueue br symbol ys (matchQueue br symbol xs st).2).2)
  | [], st => rfl
  | n :: xs, st => by
    by_cases h0 : st.incoming.remainingQuantity = 0
    · simp only [matchQueue_done _ _ _ _ h0]
    · have hpos : st.incoming.remainingQuantity > 0 := quantity_pos.2 h0
      rw [List.cons_append, matchQueue, matchQueue, if_pos hpos, if_pos hpos]
      simp only
      split
      · exact matchQueue_append br symbol ys xs _
      · -- the loop stops inside the first queue, so the second is not touched
        rename_i hr
        have hz := matchFront_exhausts br symbol n.order st hr
        rw [matchQueue_done _ _ _ _ hz]
        rfl

/-- The inner loop is the greedy allocation of the incoming quantity over the queue. -/
theorem matchQueue_eq (br : Branch) (symbol : Symbol) :
    ∀ (queue : List Node) (st : MatchState), (∀ n ∈ queue, n.size ≠ 0) →
      matchQueue br symbol queue st =
        (leftover Node.size Node.reduce st.incoming.remainingQuantity queue,
          (takes Node.size st.incoming.remainingQuantity queue).foldl (record br symbol) st)
  | [], st, _ => rfl
  | n :: queue, st, h => by
    have hn : n.size ≠ 0 := h n (List.mem_cons_self ..)
    have hq : ∀ m ∈ queue, m.size ≠ 0 := fun m hm => h m (List.mem_cons_of_mem _ hm)
    by_cases h0 : st.incoming.remainingQuantity = 0
    · rw [matchQueue_done _ _ _ _ h0, h0]
      simp [takes, leftover]
    · rw [matchQueue, if_pos (quantity_pos.2 h0)]
      unfold takes leftover
      rw [if_neg h0, if_neg h0]
      by_cases hle : n.size ≤ st.incoming.remainingQuantity
      · -- the resting order is filled and popped
        rw [if_pos hle, if_pos hle]
        have hm := matchFront_eq br symbol n.order st n.size (if_pos hle).symm hn
        simp only [hm]
        rw [if_pos (by simp [Node.size])]
        rw [matchQueue_eq br symbol queue _ hq, List.foldl_cons]
        simp only [record, Node.size, UInt32.le_refl, if_true, Order.reduce_orderId, Order.reduce_remaining]
      · -- the incoming order is filled
        rw [if_neg hle, if_neg hle]
        have hm := matchFront_eq br symbol n.order st _ (if_neg hle).symm h0
        have hne : (n.order.reduce st.incoming.remainingQuantity).remainingQuantity ≠ 0 := by
          unfold Node.size at hle
          rw [Order.reduce_remaining]
          grind
        simp only [hm]
        rw [if_neg hne]
        simp only [List.foldl_cons, List.foldl_nil, record]
        rw [if_neg hle]
        rfl

/-! ## What the takes leave in the loop variables -/

theorem fold_incoming (br : Branch) (symbol : Symbol) :
    ∀ (queue : List Node) (st : MatchState),
      ((takes Node.size st.incoming.remainingQuantity queue).foldl (record br symbol) st).incoming =
        { st.incoming with remainingQuantity := unmet Node.size st.incoming.remainingQuantity queue }
  | [], st => rfl
  | n :: queue, st => by
    unfold takes unmet
    split
    · rename_i h0
      rw [← h0]; rfl
    · split
      · rw [List.foldl_cons]
        exact fold_incoming br symbol queue (record br symbol st (n, n.size))
      · simp [record, Order.reduce]

/-- The fills of a list of takes, from the first match on. -/
def fillsFrom (br : Branch) (symbol : Symbol) (incoming : Order) : Env → List (Node × Quantity) → List Fill
  | _, [] => []
  | env, t :: ts => fillOf br symbol incoming t.1.order t.2 env :: fillsFrom br symbol incoming env.afterMatch ts

theorem fold_fills (br : Branch) (symbol : Symbol) : ∀ (ts : List (Node × Quantity)) (st : MatchState),
    (ts.foldl (record br symbol) st).result.fills =
      st.result.fills ++ fillsFrom br symbol st.incoming st.env ts
  | [], st => by simp [fillsFrom]
  | t :: ts, st => by
    rw [List.foldl_cons, fold_fills br symbol ts, fillsFrom]
    have hinc : ∀ (env : Env) (ts : List (Node × Quantity)),
        fillsFrom br symbol (st.incoming.reduce t.2) env ts = fillsFrom br symbol st.incoming env ts := by
      intro env ts
      induction ts generalizing env with
      | nil => rfl
      | cons u us ih =>
        rw [fillsFrom, fillsFrom, ih]
        cases br <;> rfl
    simp only [record, hinc, List.append_assoc, List.singleton_append]

/-- The reports of a list of takes, from the first match on. -/
def reportsFrom (br : Branch) : Order → Env → List (Node × Quantity) → List ExecutionReport
  | _, _, [] => []
  | incoming, env, t :: ts =>
    reportsOf br incoming t.1.order t.2 env ++ reportsFrom br (incoming.reduce t.2) env.afterMatch ts

theorem fold_reports (br : Branch) (symbol : Symbol) : ∀ (ts : List (Node × Quantity)) (st : MatchState),
    (ts.foldl (record br symbol) st).result.executionReports =
      st.result.executionReports ++ reportsFrom br st.incoming st.env ts
  | [], st => by simp [reportsFrom]
  | t :: ts, st => by
    rw [List.foldl_cons, fold_reports br symbol ts, reportsFrom]
    simp only [record, List.append_assoc]

/-- What holds of the report of every match holds of the reports of all takes; `Q` says which orders
are matched, and a match does not change that. -/
theorem reportsFrom_forall {P : ExecutionReport → Prop} {Q : Order → Prop} (hreduce : ∀ o qty, Q o → Q (o.reduce qty))
    (hmatch : ∀ o qty px now, Q o → P (matchReport o qty px now)) (br : Branch) :
    ∀ (ts : List (Node × Quantity)) (incoming : Order) (env : Env), Q incoming → (∀ t ∈ ts, Q t.1.order) →
      ∀ r ∈ reportsFrom br incoming env ts, P r
  | [], _, _, _, _, r, hr => by cases hr
  | t :: ts, incoming, env, hi, ht, r, hr => by
    have hq := ht t (List.mem_cons_self ..)
    have hbuy : Q (br.buyOf incoming t.1.order) := by cases br <;> assumption
    have hsell : Q (br.sellOf incoming t.1.order) := by cases br <;> assumption
    rw [reportsFrom] at hr
    rcases List.mem_append.1 hr with hr | hr
    · rcases List.mem_pair.1 hr with rfl | rfl
      · exact hmatch _ _ _ _ (hreduce _ _ hbuy)
      · exact hmatch _ _ _ _ (hreduce _ _ hsell)
    · exact reportsFrom_forall hreduce hmatch br ts _ _ (hreduce _ _ hi)
        (fun u hu => ht u (List.mem_cons_of_mem _ hu)) r hr

/-- The index after the takes has lost exactly the orders taken whole. -/
theorem fold_index (br : Branch) (symbol : Symbol) (id : OrderID) :
    ∀ (queue : List Node) (st : MatchState),
      ((takes Node.size st.incoming.remainingQuantity queue).foldl (record br symbol) st).index id =
        if ∃ n ∈ emptied Node.size st.incoming.remainingQuantity queue, n.order.orderId = id then none
        else st.index id
  | [], st => by simp [takes, emptied]
  | n :: queue, st => by
    unfold takes emptied
    split
    · simp
    · split
      · rw [List.foldl_cons]
        have ih := fold_index br symbol id queue (record br symbol st (n, n.size))
        have hinc : (record br symbol st (n, n.size)).incoming.remainingQuantity =
          st.incoming.remainingQuantity - n.size := rfl
        rw [hinc] at ih
        rw [ih]
        simp only [record, UInt32.le_refl, if_true, List.exists_mem_cons_iff, OrderIndex.remove,
          Function.update_apply]
        by_cases hid : n.order.orderId = id
        · simp [hid]
        · have hid' : ¬ id = n.order.orderId := fun h => hid h.symm
          simp [hid, hid']
      · rename_i hle
        simp [record, hle]

/-- An incoming order is never left with more than it came with. -/
theorem unmet_le : ∀ (q : Quantity) (l : List Node), unmet Node.size q l ≤ q
  | q, [] => UInt32.le_refl q
  | q, n :: l => by
    unfold unmet
    split
    · grind
    · split
      · have := unmet_le (q - n.size) l
        grind
      · grind

/-! ## The outer loop -/

theorem Branch.accepts_mono (br : Branch) (incoming : Order) {p q : Price} (h : br.other.before p q)
    (hq : br.accepts incoming q = true) : br.accepts incoming p = true := by
  unfold Branch.accepts at *
  by_contra hp
  simp only [Bool.not_eq_true, Bool.not_eq_false', Bool.and_eq_true, decide_eq_true_eq] at hp
  have hm := (br.misses_iff incoming.price q).2 (IsTrans.trans _ _ _ ((br.misses_iff _ _).1 hp.2) h)
  simp [hp.1, hm] at hq

theorem matchQueue_incoming (br : Branch) (symbol : Symbol) (queue : List Node) (st : MatchState) :
    (matchQueue br symbol queue st).2.incoming =
      { st.incoming with remainingQuantity := (matchQueue br symbol queue st).2.incoming.remainingQuantity } := by
  induction queue generalizing st with
  | nil => rfl
  | cons n queue ih =>
    have hfront : (matchFront br symbol n.order st).2.incoming = { st.incoming with
        remainingQuantity := (matchFront br symbol n.order st).2.incoming.remainingQuantity } := by
      unfold matchFront matchOrders
      cases br <;> simp only <;> split <;> rfl
    unfold matchQueue
    split
    · simp only
      split
      · rw [ih, hfront]
      · exact hfront
    · rfl

theorem walkEntries_matchLevel (br : Branch) (symbol : Symbol) :
    ∀ (es : List (Price × List Node)) (st : MatchState),
      (OrderedMap.walkEntries (matchLevel br symbol) es st).2 =
          (matchQueue br symbol
            ((es.takeWhile fun e => br.accepts st.incoming e.1).flatMap Prod.snd) st).2 ∧
        (OrderedMap.walkEntries (matchLevel br symbol) es st).1.flatMap Prod.snd =
          (matchQueue br symbol
            ((es.takeWhile fun e => br.accepts st.incoming e.1).flatMap Prod.snd) st).1 ++
            (es.dropWhile fun e => br.accepts st.incoming e.1).flatMap Prod.snd
  | [], st => ⟨rfl, rfl⟩
  | (best, queue) :: es, st => by
    by_cases h0 : st.incoming.remainingQuantity = 0
    · -- filled: the loop stops whatever the prices are
      have hbody : matchLevel br symbol st best queue = none := by
        unfold matchLevel; rw [h0, if_neg (by decide)]
      rw [OrderedMap.walkEntries, hbody, matchQueue_done _ _ _ _ h0]
      refine ⟨rfl, ?_⟩
      rw [← List.flatMap_append, List.takeWhile_append_dropWhile]
    · by_cases hacc : br.accepts st.incoming best = true
      · -- the level is matched, and the loop goes on with what is left of the incoming order
        rw [List.takeWhile_cons_of_pos (by simpa using hacc), List.dropWhile_cons_of_pos (by simpa using hacc),
          List.flatMap_cons, matchQueue_append]
        -- the price test reads the price and the type only, which matching does not change
        have hsame : (fun e : Price × List Node =>
            br.accepts (matchQueue br symbol queue st).2.incoming e.1) =
            fun e => br.accepts st.incoming e.1 := by
          funext e
          rw [matchQueue_incoming br symbol queue st]; rfl
        obtain ⟨ih1, ih2⟩ := walkEntries_matchLevel br symbol es (matchQueue br symbol queue st).2
        rw [hsame] at ih1 ih2
        by_cases he : (matchQueue br symbol queue st).1.isEmpty = true
        · have hbody : matchLevel br symbol st best queue = some (none, (matchQueue br symbol queue st).2) := by
            simp [matchLevel, quantity_pos.2 h0, hacc, he]
          have he' : (matchQueue br symbol queue st).1 = [] := List.isEmpty_iff.1 he
          rw [OrderedMap.walkEntries, hbody, he', List.nil_append]
          exact ⟨ih1, ih2⟩
        · have hbody : matchLevel br symbol st best queue =
              some (some (matchQueue br symbol queue st).1, (matchQueue br symbol queue st).2) := by
            simp [matchLevel, quantity_pos.2 h0, hacc, he]
          rw [OrderedMap.walkEntries, hbody, List.append_assoc]
          simp only [List.flatMap_cons]
          exact ⟨ih1, by rw [ih2]⟩
      · -- the best price is out of reach, and so are the prices behind it
        have hbody : matchLevel br symbol st best queue = none := by
          unfold matchLevel; rw [if_pos (quantity_pos.2 h0), if_neg hacc]
        rw [List.takeWhile_cons_of_neg (by simpa using hacc), List.dropWhile_cons_of_neg (by simpa using hacc),
          OrderedMap.walkEntries, hbody]
        exact ⟨rfl, rfl⟩

/-! ## A sweep of the opposite side -/

namespace BookState

/-- Every level has a non-empty queue of orders at its own price. -/
def LevelsOk {br : Branch} (ls : Levels br) : Prop :=
  ∀ e ∈ ls.entries, e.2 ≠ [] ∧ ∀ n ∈ e.2, n.order.price = e.1

/-- The resting orders an incoming order may match, in the order it meets them. -/
def eligible (b : BookState) (br : Branch) (order : Order) : List Node :=
  (b.nodes br.other).filter fun n => br.accepts order n.order.price

/-- The resting orders of the opposite side that are out of the incoming order's reach. -/
def unreachable (b : BookState) (br : Branch) (order : Order) : List Node :=
  (b.nodes br.other).filter fun n => !br.accepts order n.order.price

section Sweep

variable (b : BookState) (br : Branch) (order : Order) (result : MatchResult) (env : Env)

@[simp] theorem sweep_levels : (b.sweep br order result env).1.levels br = b.levels br := by
  unfold sweep
  rw [levels_mk_index, setLevels_levels_other]

@[simp] theorem sweep_nodes : (b.sweep br order result env).1.nodes br = b.nodes br := by
  unfold nodes
  rw [sweep_levels]

@[simp] theorem sweep_symbol : (b.sweep br order result env).1.symbol = b.symbol := by
  unfold sweep
  exact setLevels_symbol ..

@[simp] theorem sweep_nextNode : (b.sweep br order result env).1.nextNode = b.nextNode := by
  unfold sweep
  exact setLevels_nextNode ..

theorem sweep_orderIndex : (b.sweep br order result env).1.orderIndex = (b.sweep br order result env).2.index :=
  rfl

theorem flatMap_accepted {ls : Levels br.other} (h : LevelsOk ls) :
    (ls.entries.takeWhile fun e => br.accepts order e.1).flatMap Prod.snd =
        ls.flat.filter (fun n => br.accepts order n.order.price) ∧
      (ls.entries.dropWhile fun e => br.accepts order e.1).flatMap Prod.snd =
        ls.flat.filter fun n => !br.accepts order n.order.price := by
  have hmono : ∀ a b : Price × List Node, br.other.before a.1 b.1 →
      br.accepts order b.1 = true → br.accepts order a.1 = true :=
    fun a b hab hb => br.accepts_mono order hab hb
  obtain ⟨h1, h2⟩ := OrderedMap.takeWhile_eq_filter hmono ls.entries ls.sorted
  have hprice : ∀ e ∈ ls.entries, ∀ n ∈ e.2, n.order.price = e.1 := fun e he => (h e he).2
  rw [h1, h2]
  exact ⟨OrderedMap.flatMap_filter_key (br.accepts order) _ hprice,
    OrderedMap.flatMap_filter_key (fun p => !br.accepts order p) _ hprice⟩

variable {b br}

/-- The loop variables after a sweep: one record per take from the eligible orders. -/
theorem sweep_state (hl : LevelsOk (b.levels br.other)) (hp : ∀ n ∈ b.nodes br.other, n.size ≠ 0) :
    (b.sweep br order result env).2 =
      (takes Node.size order.remainingQuantity (b.eligible br order)).foldl (record br b.symbol)
        ⟨order, b.orderIndex, result, env⟩ := by
  unfold sweep
  simp only [OrderedMap.walk_state]
  rw [(walkEntries_matchLevel br b.symbol (b.levels br.other).entries ⟨order, b.orderIndex, result, env⟩).1,
    (flatMap_accepted br order hl).1]
  have hpos : ∀ n ∈ b.eligible br order, n.size ≠ 0 := fun n hn => hp n (List.mem_filter.1 hn).1
  exact congrArg Prod.snd (matchQueue_eq br b.symbol (b.eligible br order) _ hpos)

/-- The opposite side after a sweep: what is left of the eligible orders, then the others. -/
theorem sweep_nodes_other (hl : LevelsOk (b.levels br.other)) (hp : ∀ n ∈ b.nodes br.other, n.size ≠ 0) :
    (b.sweep br order result env).1.nodes br.other =
      leftover Node.size Node.reduce order.remainingQuantity (b.eligible br order) ++ b.unreachable br order := by
  unfold nodes sweep
  simp only [levels_mk_index, setLevels_levels]
  unfold OrderedMap.flat
  rw [OrderedMap.walk_entries,
    (walkEntries_matchLevel br b.symbol (b.levels br.other).entries ⟨order, b.orderIndex, result, env⟩).2,
    (flatMap_accepted br order hl).1, (flatMap_accepted br order hl).2]
  have hpos : ∀ n ∈ b.eligible br order, n.size ≠ 0 := fun n hn => hp n (List.mem_filter.1 hn).1
  rw [show (b.levels br.other).flat.filter (fun n => br.accepts order n.order.price) = b.eligible br order from rfl,
    matchQueue_eq br b.symbol _ _ hpos]
  rfl

theorem matchQueue_price {br : Branch} {symbol : Symbol} {p : Price} :
    ∀ (queue : List Node) (st : MatchState), (∀ n ∈ queue, n.order.price = p) →
      ∀ n ∈ (matchQueue br symbol queue st).1, n.order.price = p
  | [], st, _, n, hn => by simp [matchQueue] at hn
  | m :: queue, st, h, n, hn => by
    have hq : ∀ n ∈ queue, n.order.price = p := fun n hn => h n (List.mem_cons_of_mem _ hn)
    have hm : (matchFront br symbol m.order st).1.price = p := by
      rw [← h m (List.mem_cons_self ..)]
      unfold matchFront matchOrders
      cases br <;> simp only <;> split <;> rfl
    unfold matchQueue at hn
    split at hn
    · simp only at hn
      split at hn
      · exact matchQueue_price queue _ hq n hn
      · rcases List.mem_cons.1 hn with rfl | hn
        · exact hm
        · exact hq n hn
    · exact h n hn

theorem sweep_levelsOk (hl : LevelsOk (b.levels br.other)) :
    LevelsOk ((b.sweep br order result env).1.levels br.other) := by
  unfold sweep
  simp only [levels_mk_index, setLevels_levels]
  refine OrderedMap.walkEntries_forall (P := fun p (q : List Node) => q ≠ [] ∧ ∀ n ∈ q, n.order.price = p) ?_ _ _ hl
  rintro st p q q' st' ⟨-, hq⟩ hbody
  unfold matchLevel at hbody
  split at hbody
  · split at hbody
    · simp only at hbody
      split at hbody
      · cases hbody
      · rename_i he
        cases hbody
        exact ⟨fun h => he (List.isEmpty_iff.2 h), matchQueue_price q st hq⟩
    · cases hbody
  · cases hbody

end Sweep

end BookState

end StockExchange
