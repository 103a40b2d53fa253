/-
The buy and the sell path of `submitOrder` are mirror images. Mirroring a book at a price `M` above
all of its prices swaps the sides and sends a price `p` to `M - p`; a submission to the mirrored book
leaves the mirror of what the submission to the book leaves, fills the same orders by the same
quantities and reports the same progress of each order (`submitOrder_mirror`). The two branches of
`submitOrderInternal` are also written out one by one, as the source has them, and agree with the
definition over `Branch` (`submitOrderInternal_written`).
-/
import StockExchange.Engine.Events

namespace StockExchange

open Greedy

/-! ## The two branches as they are written -/

section Written

/-- The inner loop of the buy branch: the front of the queue is the sell order of the match. -/
def matchAsks (symbol : Symbol) : List Node → MatchState → List Node × MatchState
  | [], st => ([], st)
  | n :: queue, st =>
    if st.incoming.remainingQuantity > 0 then
      let m := matchOrders st.incoming n.order symbol st.result st.env
      if m.sell.remainingQuantity = 0 then
        matchAsks symbol queue ⟨m.buy, st.index.remove m.sell.orderId, m.result, m.env⟩
      else ({ n with order := m.sell } :: queue, ⟨m.buy, st.index, m.result, m.env⟩)
    else (n :: queue, st)

/-- The inner loop of the sell branch: the front of the queue is the buy order of the match. -/
def matchBids (symbol : Symbol) : List Node → MatchState → List Node × MatchState
  | [], st => ([], st)
  | n :: queue, st =>
    if st.incoming.remainingQuantity > 0 then
      let m := matchOrders n.order st.incoming symbol st.result st.env
      if m.buy.remainingQuantity = 0 then
        matchBids symbol queue ⟨m.sell, st.index.remove m.buy.orderId, m.result, m.env⟩
      else ({ n with order := m.buy } :: queue, ⟨m.sell, st.index, m.result, m.env⟩)
    else (n :: queue, st)

/-- One turn of the outer loop of the buy branch. -/
def askLevel (symbol : Symbol) (st : MatchState) (bestAskPrice : Price) (queue : List Node) :
    Option (Option (List Node) × MatchState) :=
  if st.incoming.remainingQuantity > 0 then
    if st.incoming.type = OrderType.limit ∧ st.incoming.price < bestAskPrice then none
    else
      let (queue, st) := matchAsks symbol queue st
      if queue.isEmpty then some (none, st) else some (some queue, st)
  else none

/-- One turn of the outer loop of the sell branch. -/
def bidLevel (symbol : Symbol) (st : MatchState) (bestBidPrice : Price) (queue : List Node) :
    Option (Option (List Node) × MatchState) :=
  if st.incoming.remainingQuantity > 0 then
    if st.incoming.type = OrderType.limit ∧ st.incoming.price > bestBidPrice then none
    else
      let (queue, st) := matchBids symbol queue st
      if queue.isEmpty then some (none, st) else some (some queue, st)
  else none

namespace BookState

/-- The branch `incoming_order.side == Side::Buy`. -/
def submitBuy (b : BookState) (order : Order) (result : MatchResult) (env : Env) : Outcome :=
  let (asks, st) := b.sellOrders.walk (askLevel b.symbol) ⟨order, b.orderIndex, result, env⟩
  let b := { b with sellOrders := asks, orderIndex := st.index }
  let incoming := st.incoming
  if incoming.remainingQuantity > 0 then
    if incoming.type = OrderType.limit then
      let b := { b with
        buyOrders := b.buyOrders.pushBack incoming.price ⟨b.nextNode, incoming⟩
        orderIndex := b.orderIndex.insert incoming.orderId Side.buy incoming.price b.nextNode
        nextNode := b.nextNode + 1 }
      if incoming.remainingQuantity = incoming.quantity then
        let (now, env) := st.env.getCurrentTimeNs
        ⟨b, st.result.report (newReport incoming now), env⟩
      else ⟨b, st.result, st.env⟩
    else
      let (now, env) := st.env.getCurrentTimeNs
      ⟨b, st.result.report (expiryReport incoming now), env⟩
  else ⟨b, st.result, st.env⟩

/-- The other branch. -/
def submitSell (b : BookState) (order : Order) (result : MatchResult) (env : Env) : Outcome :=
  let (bids, st) := b.buyOrders.walk (bidLevel b.symbol) ⟨order, b.orderIndex, result, env⟩
  let b := { b with buyOrders := bids, orderIndex := st.index }
  let incoming := st.incoming
  if incoming.remainingQuantity > 0 then
    if incoming.type = OrderType.limit then
      let b := { b with
        sellOrders := b.sellOrders.pushBack incoming.price ⟨b.nextNode, incoming⟩
        orderIndex := b.orderIndex.insert incoming.orderId Side.sell incoming.price b.nextNode
        nextNode := b.nextNode + 1 }
      if incoming.remainingQuantity = incoming.quantity then
        let (now, env) := st.env.getCurrentTimeNs
        ⟨b, st.result.report (newReport incoming now), env⟩
      else ⟨b, st.result, st.env⟩
    else
      let (now, env) := st.env.getCurrentTimeNs
      ⟨b, st.result.report (expiryReport incoming now), env⟩
  else ⟨b, st.result, st.env⟩

end BookState

theorem matchAsks_eq (symbol : Symbol) : ∀ (queue : List Node) (st : MatchState),
    matchAsks symbol queue st = matchQueue .buy symbol queue st
  | [], _ => rfl
  | n :: queue, st => by
    unfold matchAsks matchQueue matchFront
    simp only [matchAsks_eq symbol queue]

theorem matchBids_eq (symbol : Symbol) : ∀ (queue : List Node) (st : MatchState),
    matchBids symbol queue st = matchQueue .sell symbol queue st
  | [], _ => rfl
  | n :: queue, st => by
    unfold matchBids matchQueue matchFront
    simp only [matchBids_eq symbol queue]

theorem askLevel_eq (symbol : Symbol) : askLevel symbol = matchLevel .buy symbol := by
  funext st best queue
  unfold askLevel matchLevel Branch.accepts Branch.misses
  rw [matchAsks_eq]
  by_cases h : st.incoming.type = OrderType.limit ∧ st.incoming.price < best
  · simp [h]
  · have h' : (!(decide (st.incoming.type = OrderType.limit) && decide (st.incoming.price < best))) = true := by
      simpa [imp_iff_not_or] using h
    rw [if_neg h, if_pos h']

theorem bidLevel_eq (symbol : Symbol) : bidLevel symbol = matchLevel .sell symbol := by
  funext st best queue
  unfold bidLevel matchLevel Branch.accepts Branch.misses
  rw [matchBids_eq]
  by_cases h : st.incoming.type = OrderType.limit ∧ st.incoming.price > best
  · simp [h]
  · have h' : (!(decide (st.incoming.type = OrderType.limit) && decide (st.incoming.price > best))) = true := by
      simpa [imp_iff_not_or] using h
    rw [if_neg h, if_pos h']

/-- `submitOrderInternal` is the two branches as they are written. -/
theorem BookState.submitOrderInternal_written (b : BookState) (order : Order) (result : MatchResult) (env : Env) :
    b.submitOrderInternal order result env =
      if order.side = Side.buy then b.submitBuy order result env else b.submitSell order result env := by
  unfold submitOrderInternal submitBuy submitSell
  rw [askLevel_eq, bidLevel_eq]
  rfl

end Written

/-! ## Mirroring -/

/-- Buy and Sell swapped. -/
def Side.mirror (s : Side) : Side :=
  if s = Side.buy then Side.sell else if s = Side.sell then Side.buy else s

@[simp] theorem Branch.toSide_mirror (br : Branch) : br.toSide.mirror = br.other.toSide := by cases br <;> rfl

def Order.mirror (M : Price) (order : Order) : Order :=
  { order with side := order.side.mirror, price := M - order.price }

def Node.mirror (M : Price) (n : Node) : Node := { n with order := n.order.mirror M }

def OrderIndexEntry.mirror (M : Price) (e : OrderIndexEntry) : OrderIndexEntry :=
  ⟨e.side.mirror, M - e.priceLevel, e.position⟩

/-- The side is one of the two named ones. -/
def Order.TwoSided (order : Order) : Prop := order.side = Side.buy ∨ order.side = Side.sell

theorem Order.TwoSided.ofSide_mirror {order : Order} (h : order.TwoSided) :
    Branch.ofSide order.side.mirror = (Branch.ofSide order.side).other := by
  rcases h with h | h <;> rw [h] <;> rfl

theorem price_sub_lt {M p q : Price} (hp : p ≤ M) (hq : q ≤ M) : M - p < M - q ↔ q < p := by
  rw [UInt64.lt_iff_toNat_lt, UInt64.lt_iff_toNat_lt, UInt64.toNat_sub_of_le _ _ hp, UInt64.toNat_sub_of_le _ _ hq]
  rw [UInt64.le_iff_toNat_le] at hp hq
  omega

theorem Branch.before_mirror (br : Branch) {M p q : Price} (hp : p ≤ M) (hq : q ≤ M) :
    br.other.before (M - p) (M - q) ↔ br.before p q := by
  cases br
  · exact price_sub_lt hp hq
  · exact price_sub_lt hq hp

/-- A mirrored order accepts the mirrored levels of those the order accepts. -/
theorem Branch.accepts_mirror (br : Branch) {M p : Price} {order : Order} (horder : order.price ≤ M) (hp : p ≤ M) :
    br.other.accepts (order.mirror M) (M - p) = br.accepts order p := by
  have hmiss : br.other.misses (M - order.price) (M - p) = br.misses order.price p := by
    rw [Bool.eq_iff_iff, misses_iff, misses_iff, other_other, ← br.other.before_mirror horder hp, other_other]
  unfold accepts
  exact congrArg (fun m => !(decide (order.type = OrderType.limit) && m)) hmiss

namespace BookState

/-- Every price level is at most `M`. -/
def Below (b : BookState) (M : Price) : Prop := ∀ br, ∀ p ∈ b.prices br, p ≤ M

/-- One side of a book, mirrored: the levels of the other side. -/
def mirrorLevels (M : Price) (br : Branch) (ls : Levels br) (h : ∀ p ∈ ls.entries.map Prod.fst, p ≤ M) :
    Levels br.other :=
  ls.rekey (M - ·) (List.map (Node.mirror M)) fun _ he _ he' hlt =>
    (br.before_mirror (h _ (List.mem_map_of_mem he)) (h _ (List.mem_map_of_mem he'))).2 hlt

/-- The mirror of a book at a price above all of its levels. -/
def mirror (b : BookState) (M : Price) (h : b.Below M) : BookState where
  symbol := b.symbol
  buyOrders := mirrorLevels M .sell b.sellOrders (h .sell)
  sellOrders := mirrorLevels M .buy b.buyOrders (h .buy)
  orderIndex id := (b.orderIndex id).map (OrderIndexEntry.mirror M)
  nextNode := b.nextNode

section Mirror

variable {b : BookState} {M : Price} (h : b.Below M)

theorem mirror_entries (br : Branch) : ((b.mirror M h).levels br.other).entries =
    (b.levels br).entries.map (Prod.map (M - ·) (List.map (Node.mirror M))) := by
  cases br <;> rfl

/-- The orders of one side of the mirror are those of the other side of the book. -/
theorem mirror_nodes (br : Branch) : (b.mirror M h).nodes br.other = (b.nodes br).map (Node.mirror M) := by
  unfold nodes OrderedMap.flat
  rw [mirror_entries, OrderedMap.flatMap_rekey]

theorem mirror_nodes_other (br : Branch) : (b.mirror M h).nodes br = (b.nodes br.other).map (Node.mirror M) := by
  rw [← mirror_nodes h br.other, br.other_other]

theorem below_iff (hb : b.WF) : b.Below M ↔ ∀ br, ∀ n ∈ b.nodes br, n.order.price ≤ M := by
  constructor
  · intro h br n hn
    obtain ⟨p, q, he, hq⟩ := OrderedMap.mem_flat.1 hn
    rw [(hb.levels br _ he).2 n hq]
    exact h br p (List.mem_map.2 ⟨_, he, rfl⟩)
  · intro h br p hp
    obtain ⟨n, hn, rfl⟩ := hb.exists_at_price hp
    exact h br n hn

/-- The resting orders have one of the two named sides. -/
def TwoSided (b : BookState) : Prop := ∀ br, ∀ n ∈ b.nodes br, n.order.TwoSided

theorem mirror_wf (hb : b.WF) (hs : b.TwoSided) : (b.mirror M h).WF := by
  have hprice := (below_iff hb).1 h
  refine ⟨fun br => ?_, fun br n hn => ?_, fun br => ?_, fun br n hn => ?_, fun id e he => ?_, fun br m hm n hn => ?_⟩
  · rw [← br.other_other]
    intro e he
    rw [mirror_entries] at he
    obtain ⟨e', he', rfl⟩ := List.mem_map.1 he
    obtain ⟨hne, hq⟩ := hb.levels br.other e' he'
    refine ⟨fun hnil => hne (List.map_eq_nil_iff.1 hnil), fun n hn => ?_⟩
    obtain ⟨m, hm, rfl⟩ := List.mem_map.1 hn
    exact congrArg (M - ·) (hq m hm)
  · rw [mirror_nodes_other h] at hn
    obtain ⟨m, hm, rfl⟩ := List.mem_map.1 hn
    obtain ⟨ht, hsize, hside⟩ := hb.resting br.other m hm
    refine ⟨ht, hsize, ?_⟩
    rw [show (m.mirror M).order.side = m.order.side.mirror from rfl, (hs _ m hm).ofSide_mirror, hside, br.other_other]
  · rw [mirror_nodes, mirror_nodes_other, ← List.map_append, List.map_map]
    have haddrs := hb.addrs br.other
    rw [br.other_other] at haddrs
    exact haddrs
  · rw [mirror_nodes_other] at hn
    obtain ⟨m, hm, rfl⟩ := List.mem_map.1 hn
    exact hb.addrLt br.other m hm
  · obtain ⟨e', he', rfl⟩ := Option.map_eq_some_iff.1 he
    obtain ⟨br, n, hn, hid, rfl⟩ := hb.index id e' he'
    refine ⟨br.other, n.mirror M, ?_, hid, ?_⟩
    · rw [mirror_nodes]
      exact List.mem_map_of_mem hn
    · rw [OrderIndexEntry.mirror, Branch.toSide_mirror]
      rfl
  · rw [mirror_nodes_other] at hm
    rw [mirror_nodes] at hn
    obtain ⟨m', hm', rfl⟩ := List.mem_map.1 hm
    obtain ⟨n', hn', rfl⟩ := List.mem_map.1 hn
    refine (br.before_mirror (hprice br.other m' hm') (hprice br n' hn')).2 ?_
    exact (br.before_other _ _).1 (hb.uncrossed br n' hn' m' hm')

end Mirror

/-! ## Submission -/

section Submit

variable {b : BookState} {M : Price} (h : b.Below M) (hb : b.WF) {order : Order}

include hb in
/-- Selecting orders by price commutes with mirroring. -/
theorem mirror_filter (br : Branch) (p q : Price → Bool) (hp : ∀ x ≤ M, q (M - x) = p x) :
    ((b.mirror M h).nodes br).filter (fun n => q n.order.price) =
      ((b.nodes br.other).filter fun n => p n.order.price).map (Node.mirror M) := by
  rw [mirror_nodes_other, List.filter_map]
  refine congrArg _ (List.filter_congr fun n hn => ?_)
  exact hp n.order.price ((below_iff hb).1 h br.other n hn)

include hb in
theorem mirror_eligible (br : Branch) (horder : order.price ≤ M) :
    (b.mirror M h).eligible br.other (order.mirror M) = (b.eligible br order).map (Node.mirror M) := by
  unfold eligible
  rw [br.other_other]
  exact mirror_filter h hb br _ _ fun x hx => br.accepts_mirror horder hx

include hb in
theorem mirror_unreachable (br : Branch) (horder : order.price ≤ M) :
    (b.mirror M h).unreachable br.other (order.mirror M) = (b.unreachable br order).map (Node.mirror M) := by
  unfold unreachable
  rw [br.other_other]
  exact mirror_filter h hb br (fun x => !br.accepts order x) (fun x => !br.other.accepts (order.mirror M) x)
    fun x hx => congrArg (!·) (br.accepts_mirror horder hx)

variable (horder : order.price ≤ M) (hside : order.TwoSided)
include h hb horder

theorem submitBranch_below (result : MatchResult) (env : Env) :
    (b.submitBranch (Branch.ofSide order.side) order result env).book.Below M := by
  refine (below_iff (submitBranch_wf order result env hb rfl)).2 ?_
  exact submitBranch_forall (P := fun o => o.price ≤ M) order result env hb (fun _ _ ho _ => ho)
    ((below_iff hb).1 h) fun _ _ => horder

include hside

theorem mirror_taken : (b.mirror M h).taken (order.mirror M) =
    (b.taken order).map (Prod.map (Node.mirror M) id) := by
  unfold taken
  rw [show (order.mirror M).side = order.side.mirror from rfl, hside.ofSide_mirror, mirror_eligible h hb _ horder]
  exact (takes_comp (Node.mirror M) Node.size _ _).1

theorem mirror_remainder : (b.mirror M h).remainder (order.mirror M) = (b.remainder order).mirror M := by
  unfold remainder
  rw [show (order.mirror M).side = order.side.mirror from rfl, hside.ofSide_mirror, mirror_eligible h hb _ horder,
    (takes_comp (Node.mirror M) Node.size _ _).2.1]
  rfl

variable (hs : b.TwoSided) (result result' : MatchResult) (env env' : Env)
include hs

/-- The own side: the remainder goes to the same place among the orders there. -/
theorem submitBranch_mirror_nodes :
    ((b.mirror M h).submitBranch (Branch.ofSide order.side).other (order.mirror M) result' env').book.nodes
        (Branch.ofSide order.side).other =
      ((b.submitBranch (Branch.ofSide order.side) order result env).book.nodes (Branch.ofSide order.side)).map
        (Node.mirror M) := by
  have hown := submitBranch_nodes (mirror_wf h hb hs) (order.mirror M) result' env'
  rw [show (order.mirror M).side = order.side.mirror from rfl, hside.ofSide_mirror,
    mirror_remainder h hb horder hside] at hown
  rw [hown, submitBranch_nodes hb order]
  by_cases hrest : (b.remainder order).remainingQuantity ≠ 0 ∧ order.type = OrderType.limit
  · have hbefore : ∀ x ≤ M, (Branch.ofSide order.side).other.before (M - order.price) (M - x) ↔
        (Branch.ofSide order.side).before order.price x :=
      fun x hx => (Branch.ofSide order.side).before_mirror horder hx
    have hback := mirror_filter h hb (Branch.ofSide order.side).other
      (fun x => ¬ (Branch.ofSide order.side).before order.price x)
      (fun x => ¬ (Branch.ofSide order.side).other.before (M - order.price) x)
      fun x hx => decide_eq_decide.2 (not_congr (hbefore x hx))
    have hfront := mirror_filter h hb (Branch.ofSide order.side).other
      (fun x => (Branch.ofSide order.side).before order.price x)
      (fun x => (Branch.ofSide order.side).other.before (M - order.price) x)
      fun x hx => decide_eq_decide.2 (hbefore x hx)
    rw [Branch.other_other] at hback hfront
    rw [if_pos hrest, List.map_append, List.map_cons, ← hback, ← hfront]
    exact if_pos hrest
  · rw [if_neg hrest]
    exact (if_neg hrest).trans (mirror_nodes h _)

omit hside in
theorem submitBranch_mirror_nodes_other :
    ((b.mirror M h).submitBranch (Branch.ofSide order.side).other (order.mirror M) result' env').book.nodes
        (Branch.ofSide order.side) =
      ((b.submitBranch (Branch.ofSide order.side) order result env).book.nodes (Branch.ofSide order.side).other).map
        (Node.mirror M) := by
  have hother : ((b.mirror M h).submitBranch (Branch.ofSide order.side).other (order.mirror M) result' env').book.nodes
      (Branch.ofSide order.side).other.other = _ :=
    submitBranch_nodes_other (mirror_wf h hb hs) (order.mirror M) result' env'
  rw [Branch.other_other, mirror_unreachable h hb _ horder, mirror_eligible h hb _ horder] at hother
  rw [hother, submitBranch_nodes_other hb order, List.map_append]
  refine congrArg (· ++ _) ?_
  exact leftover_comp (Node.mirror M) Node.size (fun _ _ => rfl) _ _

theorem submitBranch_mirror_orderIndex (id : OrderID) :
    ((b.mirror M h).submitBranch (Branch.ofSide order.side).other (order.mirror M) result' env').book.orderIndex id =
      ((b.submitBranch (Branch.ofSide order.side) order result env).book.orderIndex id).map
        (OrderIndexEntry.mirror M) := by
  have hix := submitBranch_orderIndex (mirror_wf h hb hs) (order.mirror M) result' env' id
  have hids : (emptied Node.size order.remainingQuantity
        ((b.eligible (Branch.ofSide order.side) order).map (Node.mirror M))).map (fun n => n.order.orderId) =
      (emptied Node.size order.remainingQuantity (b.eligible (Branch.ofSide order.side) order)).map
        fun n => n.order.orderId := by
    rw [(takes_comp (Node.mirror M) Node.size _ _).2.2, List.map_map]
    rfl
  rw [show (order.mirror M).side = order.side.mirror from rfl, hside.ofSide_mirror,
    mirror_remainder h hb horder hside, mirror_eligible h hb _ horder] at hix
  rw [hix, submitBranch_orderIndex hb order]
  by_cases hnew : id = order.orderId ∧ (b.remainder order).remainingQuantity ≠ 0 ∧ order.type = OrderType.limit
  · rw [if_pos hnew, Option.map_some, OrderIndexEntry.mirror, Branch.toSide_mirror]
    exact if_pos hnew
  · rw [if_neg hnew]
    refine (if_neg hnew).trans ?_
    by_cases hgone : id ∈ (emptied Node.size order.remainingQuantity
        (b.eligible (Branch.ofSide order.side) order)).map fun n => n.order.orderId
    · rw [if_pos hgone]
      exact if_pos (hids.symm ▸ hgone)
    · rw [if_neg hgone]
      exact if_neg fun hgone' => hgone (hids ▸ hgone')

/-- The book after a submission to the mirror is the mirror of the book after the submission. -/
theorem submitBranch_mirror :
    ((b.mirror M h).submitBranch (Branch.ofSide order.side).other (order.mirror M) result' env').book =
      (b.submitBranch (Branch.ofSide order.side) order result env).book.mirror M
        (submitBranch_below h hb horder result env) := by
  have hw := mirror_wf h hb hs
  have hbr : Branch.ofSide (order.mirror M).side = (Branch.ofSide order.side).other := hside.ofSide_mirror
  have hs' : (b.submitBranch (Branch.ofSide order.side) order result env).book.TwoSided :=
    submitBranch_forall (P := Order.TwoSided) order result env hb (fun _ _ ho _ => ho) hs fun _ _ => hside
  refine WF.ext_nodes (submitBranch_wf _ _ _ hw hbr) (mirror_wf _ (submitBranch_wf _ _ _ hb rfl) hs') ?_
    (Branch.forall_of (Branch.ofSide order.side).other ?_ ?_) (funext fun id => ?_) ?_
  · have hsymbol := submitBranch_symbol hw (order.mirror M) result' env'
    rw [hbr] at hsymbol
    exact hsymbol.trans (submitBranch_symbol hb order result env).symm
  · rw [mirror_nodes, submitBranch_mirror_nodes h hb horder hside hs result result' env env']
  · rw [mirror_nodes_other, Branch.other_other,
      submitBranch_mirror_nodes_other h hb horder hs result result' env env']
  · exact submitBranch_mirror_orderIndex h hb horder hside hs result result' env env' id
  · have hnext := submitBranch_nextNode hw (order.mirror M) result' env'
    rw [hbr, mirror_remainder h hb horder hside] at hnext
    exact hnext.trans (submitBranch_nextNode hb order result env).symm

end Submit

end BookState

/-! ## Fills and reports -/

/-- A fill as the incoming order of a branch sees it: its own id, the id of the resting order and the
quantity. -/
def Branch.partiesOf : Branch → Fill → OrderID × OrderID × Quantity
  | .buy, fill => (fill.buyOrderId, fill.sellOrderId, fill.quantity)
  | .sell, fill => (fill.sellOrderId, fill.buyOrderId, fill.quantity)

theorem fillsFrom_mirror (br : Branch) (symbol symbol' : Symbol) (order : Order) (M : Price) :
    ∀ (ts : List (Node × Quantity)) (env env' : Env),
      (fillsFrom br.other symbol' (order.mirror M) env' (ts.map (Prod.map (Node.mirror M) id))).map br.other.partiesOf =
        (fillsFrom br symbol order env ts).map br.partiesOf
  | [], _, _ => rfl
  | t :: ts, env, env' => by
    have ih := fillsFrom_mirror br symbol symbol' order M ts env.afterMatch env'.afterMatch
    rw [List.map_cons, fillsFrom, fillsFrom, List.map_cons, List.map_cons, ih]
    cases br <;> rfl

/-- What a report says about the progress of its order. -/
def ExecutionReport.progress (r : ExecutionReport) : OrderStatus × Quantity × Quantity × Quantity :=
  (r.status, r.quantity, r.remainingQuantity, r.lastQty)

/-- The progress reported of one order, oldest first. -/
def progressOf (id : OrderID) (reports : List ExecutionReport) : List (OrderStatus × Quantity × Quantity × Quantity) :=
  (reports.filter fun r => r.orderId = id).map ExecutionReport.progress

theorem progressOf_append (id : OrderID) (rs rs' : List ExecutionReport) :
    progressOf id (rs ++ rs') = progressOf id rs ++ progressOf id rs' := by
  unfold progressOf
  rw [List.filter_append, List.map_append]

/-- Only the ids and the progress of the reports count. -/
theorem progressOf_congr {rs rs' : List ExecutionReport}
    (h : rs.map (fun r => (r.orderId, r.progress)) = rs'.map fun r => (r.orderId, r.progress)) (id : OrderID) :
    progressOf id rs = progressOf id rs' := by
  have hmap : ∀ rs : List ExecutionReport, progressOf id rs =
      ((rs.map fun r => (r.orderId, r.progress)).filter fun r => r.1 = id).map Prod.snd := by
    intro rs
    rw [List.filter_map, List.map_map]
    rfl
  rw [hmap, hmap, h]

/-- Reports of different orders may change places. -/
theorem progressOf_swap {r r' : ExecutionReport} (h : r.orderId ≠ r'.orderId) (id : OrderID) :
    progressOf id [r, r'] = progressOf id [r', r] := by
  unfold progressOf
  by_cases hr : r.orderId = id
  · have hr' : ¬ r'.orderId = id := fun h' => h (hr.trans h'.symm)
    simp [hr, hr']
  · by_cases hr' : r'.orderId = id <;> simp [hr, hr']

/-- The two reports of a match stand in the opposite order in the mirror, which no order sees. -/
theorem reportsOf_mirror (br : Branch) {order resting : Order} (hne : resting.orderId ≠ order.orderId) (M : Price)
    (qty : Quantity) (env env' : Env) (id : OrderID) :
    progressOf id (reportsOf br.other (order.mirror M) (resting.mirror M) qty env') =
      progressOf id (reportsOf br order resting qty env) := by
  cases br
  · refine (progressOf_swap hne id).trans (progressOf_congr ?_ id)
    rfl
  · refine (progressOf_swap hne.symm id).trans (progressOf_congr ?_ id)
    rfl

theorem reportsFrom_mirror (br : Branch) (M : Price) (oid : OrderID) :
    ∀ (ts : List (Node × Quantity)) (order : Order) (env env' : Env),
      (∀ t ∈ ts, t.1.order.orderId ≠ order.orderId) →
      progressOf oid (reportsFrom br.other (order.mirror M) env' (ts.map (Prod.map (Node.mirror M) id))) =
        progressOf oid (reportsFrom br order env ts)
  | [], _, _, _, _ => rfl
  | t :: ts, order, env, env', h => by
    have ih := reportsFrom_mirror br M oid ts (order.reduce t.2) env.afterMatch env'.afterMatch
      fun u hu => h u (List.mem_cons_of_mem _ hu)
    rw [List.map_cons, reportsFrom, reportsFrom, progressOf_append, progressOf_append, ← ih]
    refine congrArg (· ++ _) ?_
    exact reportsOf_mirror br (h t (List.mem_cons_self ..)) M t.2 env env' oid

theorem remainderReport_mirror (M : Price) (order : Order) (now now' : Timestamp) (id : OrderID) :
    progressOf id (BookState.remainderReport (order.mirror M) now') =
      progressOf id (BookState.remainderReport order now) := by
  refine progressOf_congr ?_ id
  have hfields : (order.mirror M).remainingQuantity = order.remainingQuantity ∧ (order.mirror M).type = order.type ∧
      (order.mirror M).quantity = order.quantity := ⟨rfl, rfl, rfl⟩
  unfold BookState.remainderReport
  rw [hfields.1, hfields.2.1, hfields.2.2]
  split
  · split
    · split <;> rfl
    · rfl
  · rfl

namespace BookState

section Results

variable {b : BookState} {M : Price} (h : b.Below M) (hb : b.WF) {order : Order} (horder : order.price ≤ M)
  (hside : order.TwoSided) (hs : b.TwoSided) (env env' : Env)
include h hb horder hside hs

theorem submitBranch_mirror_fills :
    ((b.mirror M h).submitBranch (Branch.ofSide order.side).other (order.mirror M) {} env').result.fills.map
        (Branch.ofSide order.side).other.partiesOf =
      (b.submitBranch (Branch.ofSide order.side) order {} env).result.fills.map
        (Branch.ofSide order.side).partiesOf := by
  have hfills := submitBranch_fills (mirror_wf h hb hs) (order.mirror M) {} env'
  rw [show (order.mirror M).side = order.side.mirror from rfl, hside.ofSide_mirror,
    mirror_taken h hb horder hside, List.nil_append] at hfills
  rw [hfills, submitBranch_fills hb order, List.nil_append]
  exact fillsFrom_mirror ..

theorem submitBranch_mirror_reports (hfresh : ¬ b.Rests order.orderId) (id : OrderID) :
    progressOf id ((b.mirror M h).submitBranch (Branch.ofSide order.side).other (order.mirror M) {}
        env').result.executionReports =
      progressOf id (b.submitBranch (Branch.ofSide order.side) order {} env).result.executionReports := by
  obtain ⟨now', hreports'⟩ := submitBranch_reports (mirror_wf h hb hs) (order.mirror M) {} env'
  obtain ⟨now, hreports⟩ := submitBranch_reports hb order {} env
  rw [show (order.mirror M).side = order.side.mirror from rfl, hside.ofSide_mirror,
    mirror_taken h hb horder hside, mirror_remainder h hb horder hside] at hreports'
  rw [hreports, hreports', List.nil_append, progressOf_append, progressOf_append,
    remainderReport_mirror M (b.remainder order) now now']
  refine congrArg (· ++ _) ?_
  refine reportsFrom_mirror _ M id _ order env env' fun t ht heq => hfresh ?_
  -- a match is with an order that rests, and the id of the incoming one does not
  have hmem : t.1 ∈ b.eligible (Branch.ofSide order.side) order :=
    (takes_isPrefix _ _).subset (List.mem_map_of_mem ht)
  exact ⟨_, t.1, (List.mem_filter.1 hmem).1, heq⟩

end Results

end BookState

/-- On the mirror of any book reached under fresh ids, the mirrored submission of a fresh order leaves
the mirror of the book that the submission leaves, fills the same orders in the same sequence by the
same quantities, and reports the same progress to every order. Nothing else is asked of the
quantities, and the two calls may run at different times and with different trade ids. -/
theorem submitOrder_mirror (symbol : Symbol) (env₀ : Env) (ops : List Op) (hfresh : FreshIds ops)
    (hsides : ∀ o, .submit o ∈ ops → o.TwoSided) (order : Order) (hid : order.orderId ∉ submittedIds ops)
    (hside : order.TwoSided) (M : Price) (hM : (run symbol env₀ ops).book.Below M) (horder : order.price ≤ M)
    (env env' : Env) :
    ∃ hM' : ((run symbol env₀ ops).book.submitOrder order env).book.Below M,
      (((run symbol env₀ ops).book.mirror M hM).submitOrder (order.mirror M) env').book =
          ((run symbol env₀ ops).book.submitOrder order env).book.mirror M hM' ∧
        (((run symbol env₀ ops).book.mirror M hM).submitOrder (order.mirror M) env').result.fills.map
            (Branch.ofSide (order.mirror M).side).partiesOf =
          ((run symbol env₀ ops).book.submitOrder order env).result.fills.map (Branch.ofSide order.side).partiesOf ∧
        ∀ id, progressOf id
            (((run symbol env₀ ops).book.mirror M hM).submitOrder (order.mirror M) env').result.executionReports =
          progressOf id ((run symbol env₀ ops).book.submitOrder order env).result.executionReports := by
  have hwf := (run symbol env₀ ops).book.wf
  have hs : (run symbol env₀ ops).book.TwoSided :=
    run_forall (P := Order.TwoSided) (fun _ _ ho _ => ho) (fun _ _ ho _ _ => ho) ops fun o ho _ _ => hsides o ho
  have hrests : ¬ (run symbol env₀ ops).book.Rests order.orderId :=
    fun hr => hid ((run_idsOk symbol env₀ ops hfresh).2 _ hr)
  have hbr : Branch.ofSide (order.mirror M).side = (Branch.ofSide order.side).other := hside.ofSide_mirror
  unfold BookState.submitOrder
  simp only [BookState.submitOrderInternal_eq, hbr]
  exact ⟨BookState.submitBranch_below hM hwf horder {} env,
    BookState.submitBranch_mirror hM hwf horder hside hs {} {} env env',
    BookState.submitBranch_mirror_fills hM hwf horder hside hs env env',
    BookState.submitBranch_mirror_reports hM hwf horder hside hs env env' hrests⟩

def twoBids : OrderBook := (run [] ⟨1, fun _ => 0, 0⟩
  [.submit { orderId := 1, price := 10, quantity := 5, remainingQuantity := 5 },
    .submit { orderId := 2, price := 9, quantity := 2, remainingQuantity := 2 }]).book

def bothOffered : Order := { orderId := 3, side := .sell, price := 9, quantity := 9, remainingQuantity := 9 }

/-- Two bids, mirrored at 100 into asks, and an offer that trades with both. -/
theorem submitOrder_mirror_offer : ∃ (h : twoBids.Below 100)
    (h' : (twoBids.submitOrder bothOffered ⟨1, fun _ => 0, 0⟩).book.Below 100),
    ((twoBids.mirror 100 h).submitOrder (bothOffered.mirror 100) ⟨7, fun _ => 0, 0⟩).book =
        (twoBids.submitOrder bothOffered ⟨1, fun _ => 0, 0⟩).book.mirror 100 h' ∧
      ((twoBids.mirror 100 h).submitOrder (bothOffered.mirror 100) ⟨7, fun _ => 0, 0⟩).result.fills.map
          (Branch.ofSide (bothOffered.mirror 100).side).partiesOf =
        (twoBids.submitOrder bothOffered ⟨1, fun _ => 0, 0⟩).result.fills.map (Branch.ofSide bothOffered.side).partiesOf ∧
      (twoBids.submitOrder bothOffered ⟨1, fun _ => 0, 0⟩).result.fills.length = 2 ∧
      ∀ id, progressOf id
          ((twoBids.mirror 100 h).submitOrder (bothOffered.mirror 100) ⟨7, fun _ => 0, 0⟩).result.executionReports =
        progressOf id (twoBids.submitOrder bothOffered ⟨1, fun _ => 0, 0⟩).result.executionReports := by
  have hbelow : twoBids.Below 100 := by
    intro br p hp
    have hall : (twoBids.prices br).all (· ≤ 100) = true := by cases br <;> decide
    exact of_decide_eq_true (List.all_eq_true.1 hall p hp)
  obtain ⟨h', hbook, hfills, hreports⟩ := submitOrder_mirror [] ⟨1, fun _ => 0, 0⟩
    [.submit { orderId := 1, price := 10, quantity := 5, remainingQuantity := 5 },
      .submit { orderId := 2, price := 9, quantity := 2, remainingQuantity := 2 }] (by decide) (by
      intro o ho
      simp only [List.mem_cons, List.not_mem_nil, Op.submit.injEq, or_false] at ho
      rcases ho with rfl | rfl <;> exact .inl rfl)
    bothOffered (by decide) (.inr rfl) 100 hbelow (by decide) ⟨1, fun _ => 0, 0⟩ ⟨7, fun _ => 0, 0⟩
  exact ⟨hbelow, h', hbook, hfills, by decide, hreports⟩

end StockExchange
