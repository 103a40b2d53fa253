/-
What one operation of a run puts into its result. `submission` is the order an operation hands to
`submitOrderInternal`, with the book it finds there; the fills are one per take from the eligible
resting orders (`applies_fills`), and the reports are the two of every match and then at most one
for the remainder (`submitBranch_reports`).
-/
import StockExchange.Engine.Unique

namespace StockExchange

open Greedy

namespace BookState

/-- The book and the order with which an operation calls `submitOrderInternal`, if it does. -/
def submission (b : BookState) : Op → Option (BookState × Order)
  | .submit order => some (b, order)
  | .cancel _ => none
  | .modify request =>
    match b.orderIndex.get request.orderId with
    | none => none
    | some entry => do
      let existing ← b.deref entry.position
      let b ← b.eraseEntry entry
      some ({ b with orderIndex := b.orderIndex.remove request.orderId }, modified existing request)

/-- The matches of an incoming order: which resting orders it meets and how much it takes of each. -/
def taken (b : BookState) (order : Order) : List (Node × Quantity) :=
  takes Node.size order.remainingQuantity (b.eligible (Branch.ofSide order.side) order)

/-- What is left of an incoming order when the matching loops are done. -/
def remainder (b : BookState) (order : Order) : Order :=
  { order with
    remainingQuantity := unmet Node.size order.remainingQuantity (b.eligible (Branch.ofSide order.side) order) }

/-- The allocation of the matching loops, over `ℕ`. -/
theorem takes_toNat (q : Quantity) (l : List Node) :
    takes (fun n : Node => n.size.toNat) q.toNat l = (takes Node.size q l).map (Prod.map id UInt32.toNat) ∧
      unmet (fun n : Node => n.size.toNat) q.toNat l = (unmet Node.size q l).toNat := by
  obtain ⟨htakes, hunmet, -⟩ := takes_map Node.size UInt32.toNat quantity_toNat_eq_zero quantity_toNat_le
    (fun _ _ h => UInt32.toNat_sub_of_le _ _ h) q l
  exact ⟨htakes, hunmet⟩

@[simp] theorem remainder_orderId (b : BookState) (order : Order) : (b.remainder order).orderId = order.orderId := rfl
@[simp] theorem remainder_type (b : BookState) (order : Order) : (b.remainder order).type = order.type := rfl
@[simp] theorem remainder_quantity (b : BookState) (order : Order) : (b.remainder order).quantity = order.quantity :=
  rfl

/-- The report for what is left of an incoming order. -/
def remainderReport (incoming : Order) (now : Timestamp) : List ExecutionReport :=
  if incoming.remainingQuantity > 0 then
    if incoming.type = OrderType.limit then
      if incoming.remainingQuantity = incoming.quantity then [newReport incoming now] else []
    else [expiryReport incoming now]
  else []

theorem mem_remainderReport {incoming : Order} {now : Timestamp} {r : ExecutionReport} :
    r ∈ remainderReport incoming now ↔ incoming.remainingQuantity ≠ 0 ∧
      (incoming.type = OrderType.limit ∧ incoming.remainingQuantity = incoming.quantity ∧ r = newReport incoming now ∨
        incoming.type ≠ OrderType.limit ∧ r = expiryReport incoming now) := by
  unfold remainderReport
  rw [← quantity_pos]
  split_ifs with hq ht hfull <;> simp_all

section Results

variable {b : BookState} (hb : b.WF) (order : Order) (result : MatchResult) (env : Env)

theorem settle_fills (b : BookState) (br : Branch) (incoming : Order) (result : MatchResult) (env : Env) :
    (b.settle br incoming result env).result.fills = result.fills := by
  unfold settle
  split
  · split
    · split <;> rfl
    · rfl
  · rfl

theorem settle_reports (b : BookState) (br : Branch) (incoming : Order) (result : MatchResult) (env : Env) :
    (b.settle br incoming result env).result.executionReports =
      result.executionReports ++ remainderReport incoming (env.clock env.reads) := by
  unfold settle remainderReport
  split
  · split
    · split
      · rfl
      · rw [List.append_nil]
    · rfl
  · rw [List.append_nil]

include hb

/-- The opposite side after a submission: what is left of the eligible orders, then the others. -/
theorem submitBranch_nodes_other {br : Branch} : (b.submitBranch br order result env).book.nodes br.other =
    leftover Node.size Node.reduce order.remainingQuantity (b.eligible br order) ++ b.unreachable br order := by
  rw [submitBranch_book, ← sweep_nodes_other order result env (hb.levels _) (hb.sizes _)]
  split
  · rw [rest_nodes_other]
  · rfl

/-- The book after a submission: the remainder of a `Limit` order rests, any other is dropped. -/
theorem submitBranch_rests : (b.submitBranch (Branch.ofSide order.side) order result env).book =
    if (b.remainder order).remainingQuantity ≠ 0 ∧ order.type = OrderType.limit then
      (b.sweep (Branch.ofSide order.side) order result env).1.rest (Branch.ofSide order.side) (b.remainder order)
    else (b.sweep (Branch.ofSide order.side) order result env).1 := by
  rw [submitBranch_book, sweep_incoming hb]
  by_cases h : (b.remainder order).remainingQuantity ≠ 0 ∧ order.type = OrderType.limit
  · rw [if_pos h, if_pos ⟨quantity_pos.2 h.1, h.2⟩]
    rfl
  · rw [if_neg h, if_neg fun h' => h ⟨quantity_pos.1 h'.1, h'.2⟩]

/-- The submitted order's own side: what rested there, and the remainder of a `Limit` order. -/
theorem mem_submitBranch {n : Node} :
    n ∈ (b.submitBranch (Branch.ofSide order.side) order result env).book.nodes (Branch.ofSide order.side) ↔
      n ∈ b.nodes (Branch.ofSide order.side) ∨ ((b.remainder order).remainingQuantity ≠ 0 ∧
        order.type = OrderType.limit ∧ n = ⟨b.nextNode, b.remainder order⟩) := by
  rw [submitBranch_rests hb]
  split
  · rename_i h
    rw [mem_rest, sweep_nodes, sweep_nextNode, or_comm]
    exact or_congr_right ⟨fun hn => ⟨h.1, h.2, hn⟩, fun hn => hn.2.2⟩
  · rename_i h
    rw [sweep_nodes]
    exact ⟨.inl, fun hn => hn.resolve_right fun hn => h ⟨hn.1, hn.2.1⟩⟩

/-- The own side in order: the remainder goes behind the orders of its own and better prices. -/
theorem submitBranch_nodes :
    (b.submitBranch (Branch.ofSide order.side) order result env).book.nodes (Branch.ofSide order.side) =
      if (b.remainder order).remainingQuantity ≠ 0 ∧ order.type = OrderType.limit then
        (b.nodes (Branch.ofSide order.side)).filter
            (fun n => ¬ (Branch.ofSide order.side).before order.price n.order.price) ++
          ⟨b.nextNode, b.remainder order⟩ :: (b.nodes (Branch.ofSide order.side)).filter
            fun n => (Branch.ofSide order.side).before order.price n.order.price
      else b.nodes (Branch.ofSide order.side) := by
  rw [submitBranch_rests hb]
  split
  · unfold rest
    rw [nodes, levels_mk_index_next, setLevels_levels, sweep_levels, sweep_nextNode]
    exact OrderedMap.flat_pushBack (fun n : Node => n.order.price) _ fun e he => (hb.levels _ e he).2
  · rw [sweep_nodes]

/-- The index after a submission: the orders taken whole are gone, and a remainder that rests is in. -/
theorem submitBranch_orderIndex (id : OrderID) :
    (b.submitBranch (Branch.ofSide order.side) order result env).book.orderIndex id =
      if id = order.orderId ∧ (b.remainder order).remainingQuantity ≠ 0 ∧ order.type = OrderType.limit then
        some ⟨(Branch.ofSide order.side).toSide, order.price, b.nextNode⟩
      else if id ∈ (emptied Node.size order.remainingQuantity (b.eligible (Branch.ofSide order.side) order)).map
          (fun n => n.order.orderId) then none
      else b.orderIndex id := by
  have hsweep : (b.sweep (Branch.ofSide order.side) order result env).1.orderIndex id =
      if id ∈ (emptied Node.size order.remainingQuantity (b.eligible (Branch.ofSide order.side) order)).map
        (fun n => n.order.orderId) then none else b.orderIndex id := by
    rw [sweep_orderIndex, sweep_state order result env (hb.levels _) (hb.sizes _)]
    refine (fold_index _ b.symbol id _ ⟨order, b.orderIndex, result, env⟩).trans ?_
    simp only [List.mem_map]
  rw [submitBranch_rests hb]
  split
  · rename_i h
    rw [rest_orderIndex, hsweep, sweep_nextNode, remainder_orderId]
    by_cases hid : id = order.orderId
    · rw [if_pos hid, if_pos ⟨hid, h⟩]
      rfl
    · rw [if_neg hid]
      exact (if_neg fun h' => hid h'.1).symm
  · rename_i h
    rw [hsweep]
    exact (if_neg fun h' => h h'.2).symm

theorem submitBranch_nextNode : (b.submitBranch (Branch.ofSide order.side) order result env).book.nextNode =
    if (b.remainder order).remainingQuantity ≠ 0 ∧ order.type = OrderType.limit then b.nextNode + 1
    else b.nextNode := by
  rw [submitBranch_rests hb]
  split
  · rw [rest_nextNode, sweep_nextNode]
  · rw [sweep_nextNode]

theorem submitBranch_symbol :
    (b.submitBranch (Branch.ofSide order.side) order result env).book.symbol = b.symbol := by
  rw [submitBranch_rests hb]
  split
  · rw [rest_symbol, sweep_symbol]
  · rw [sweep_symbol]

/-- A submitted order that is filled, or that may not rest, is not in the book. -/
theorem not_rests_submitted (hfresh : ¬ b.Rests order.orderId)
    (h : ¬ ((b.remainder order).remainingQuantity ≠ 0 ∧ order.type = OrderType.limit)) :
    ¬ (b.submitBranch (Branch.ofSide order.side) order result env).book.Rests order.orderId := by
  rw [submitBranch_rests hb, if_neg h]
  exact fun hr => hfresh (rests_of_sweep hb order result env hr)

theorem submitBranch_fills :
    (b.submitBranch (Branch.ofSide order.side) order result env).result.fills =
      result.fills ++ fillsFrom (Branch.ofSide order.side) b.symbol order env (b.taken order) := by
  unfold submitBranch
  rw [settle_fills, sweep_state order result env (hb.levels _) (hb.sizes _), fold_fills]
  rfl

theorem submitBranch_reports : ∃ now,
    (b.submitBranch (Branch.ofSide order.side) order result env).result.executionReports =
      result.executionReports ++ reportsFrom (Branch.ofSide order.side) order env (b.taken order) ++
        remainderReport (b.remainder order) now := by
  let st := (b.sweep (Branch.ofSide order.side) order result env).2
  refine ⟨st.env.clock st.env.reads, ?_⟩
  unfold submitBranch
  simp only [st]
  rw [settle_reports, sweep_incoming hb, sweep_state order result env (hb.levels _) (hb.sizes _), fold_reports]
  rfl

end Results

end BookState

/-! ## Operations -/

namespace OrderBook

variable {b : OrderBook} {env : Env} {op : Op} {o : Outcome}

theorem submit_book (b : OrderBook) (order : Order) (env : Env) : (b.submit order env).book.toBookState =
    (b.submitBranch (Branch.ofSide order.side) order {} env).book := by
  rw [← BookState.submitOrderInternal_eq]
  rfl

theorem submission_modify {br : Branch} {n : Node} {request : ModifyRequest} (hn : n ∈ b.nodes br)
    (hid : n.order.orderId = request.orderId)
    (hi : b.orderIndex n.order.orderId = some ⟨br.toSide, n.order.price, n.addr⟩) :
    b.submission (.modify request) = some (b.without br n, BookState.modified n.order request) := by
  rw [hid] at hi
  unfold BookState.submission OrderIndex.get
  simp only [hi, b.wf.deref_eq hn, BookState.eraseEntry_eq b.wf hn, Option.bind_eq_bind, Option.bind_some]
  unfold BookState.without
  rw [BookState.setLevels_orderIndex, hid]

theorem submission_modify_none {request : ModifyRequest} (hi : b.orderIndex request.orderId = none) :
    b.submission (.modify request) = none := by
  unfold BookState.submission OrderIndex.get
  simp only [hi]

/-- An operation either submits nothing and fills nothing, or its outcome is that of the submission. -/
theorem Applies.submission (h : b.Applies env op o) :
    (b.submission op = none ∧ o.result.fills = []) ∨
      ∃ b' order, b.submission op = some (b', order) ∧ b'.WF ∧
        o = b'.submitBranch (Branch.ofSide order.side) order {} env := by
  cases h with
  | submit order => exact .inr ⟨_, _, rfl, b.wf, rfl⟩
  | cancelMiss id hi => exact .inl ⟨rfl, rfl⟩
  | cancel br n hn hi => exact .inl ⟨rfl, rfl⟩
  | modifyMiss request hi => exact .inl ⟨submission_modify_none hi, rfl⟩
  | modify br n request hn hid hi =>
    have hside := b.wf.modified_side hn request
    exact .inr ⟨_, _, submission_modify hn hid hi, BookState.without_wf b.wf hn, by rw [hside]⟩

/-- A fill of `t.2` between the incoming order and the resting order of `t.1`. -/
def FillOf (incoming : Order) (t : Node × Quantity) (fill : Fill) : Prop :=
  fill.buyOrderId = ((Branch.ofSide incoming.side).buyOf incoming t.1.order).orderId ∧
    fill.sellOrderId = ((Branch.ofSide incoming.side).sellOf incoming t.1.order).orderId ∧ fill.quantity = t.2

theorem fillsFrom_forall₂ (symbol : Symbol) (incoming : Order) : ∀ (ts : List (Node × Quantity)) (env : Env),
    List.Forall₂ (fun t fill => FillOf incoming t fill ∧
        fill.price = execPrice ((Branch.ofSide incoming.side).buyOf incoming t.1.order)
          ((Branch.ofSide incoming.side).sellOf incoming t.1.order))
      ts (fillsFrom (Branch.ofSide incoming.side) symbol incoming env ts)
  | [], _ => .nil
  | _ :: ts, env => .cons ⟨⟨rfl, rfl, rfl⟩, rfl⟩ (fillsFrom_forall₂ symbol incoming ts env.afterMatch)

theorem apply_fills (env : Env) {b' : BookState} {order : Order} (h : b.submission op = some (b', order)) :
    b'.WF ∧ List.Forall₂ (fun t fill => FillOf order t fill ∧
        fill.price = execPrice ((Branch.ofSide order.side).buyOf order t.1.order)
          ((Branch.ofSide order.side).sellOf order t.1.order))
      (b'.taken order) (b.apply op env).result.fills := by
  obtain ⟨o, ho, -, hresult, -⟩ := b.applies op env
  rw [hresult]
  rcases ho.submission with ⟨hnone, -⟩ | ⟨b'', order', hsome, hwf, rfl⟩
  · rw [hnone] at h
    cases h
  · rw [hsome] at h
    cases h
    rw [BookState.submitBranch_fills hwf]
    exact ⟨hwf, fillsFrom_forall₂ b'.symbol order (b'.taken order) env⟩

theorem apply_no_fills (env : Env) (h : b.submission op = none) : (b.apply op env).result.fills = [] := by
  obtain ⟨o, ho, -, hresult, -⟩ := b.applies op env
  rw [hresult]
  rcases ho.submission with ⟨-, hnil⟩ | ⟨b'', order', hsome, -, -⟩
  · exact hnil
  · rw [hsome] at h
    cases h

/-- What `modifyOrder` submits again is a `Limit` order, as all that rest are. -/
theorem submission_type {b' : BookState} {order : Order} (h : b.submission op = some (b', order))
    (hop : ∀ o, op = .submit o → o.type = OrderType.limit) : order.type = OrderType.limit := by
  obtain ⟨o, ho, -⟩ := b.applies op { clock := fun _ => 0 }
  cases ho with
  | submit o =>
    cases h
    exact hop order rfl
  | cancelMiss id hi => cases h
  | cancel br n hn hi => cases h
  | modifyMiss request hi =>
    rw [submission_modify_none hi] at h
    cases h
  | modify br n request hn hid hi =>
    rw [submission_modify hn hid hi] at h
    cases h
    exact (b.wf.resting br n hn).1

end OrderBook

end StockExchange
