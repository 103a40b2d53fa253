/-
Runs in which no order id is submitted twice. Then no id rests twice, the index names exactly the
resting orders, and the whole representation invariant of the book holds in every state reached.
-/
import StockExchange.Engine.Runs

namespace StockExchange

open Greedy

namespace BookState

/-- The ids resting on one side. -/
def ids (b : BookState) (br : Branch) : List OrderID := (b.nodes br).map fun n => n.order.orderId

/-- An order with this id rests in the book. -/
def Rests (b : BookState) (id : OrderID) : Prop := ∃ br, ∃ n ∈ b.nodes br, n.order.orderId = id

/-- No id rests twice, and every resting order has its index entry. -/
structure IdsOk (b : BookState) : Prop where
  nodup : ∀ br, (b.ids br ++ b.ids br.other).Nodup
  indexed : ∀ br, ∀ n ∈ b.nodes br, b.orderIndex n.order.orderId = some ⟨br.toSide, n.order.price, n.addr⟩

theorem IdsOk.of_branch {b : BookState} (br : Branch) (hn : (b.ids br ++ b.ids br.other).Nodup)
    (h : ∀ n ∈ b.nodes br, b.orderIndex n.order.orderId = some ⟨br.toSide, n.order.price, n.addr⟩)
    (h' : ∀ n ∈ b.nodes br.other,
      b.orderIndex n.order.orderId = some ⟨br.other.toSide, n.order.price, n.addr⟩) : b.IdsOk where
  nodup := by
    refine Branch.forall_of br hn ?_
    rw [Branch.other_other]
    exact List.nodup_append_comm.1 hn
  indexed := Branch.forall_of br h h'

theorem init_idsOk (symbol : Symbol) : (init symbol).IdsOk where
  nodup br := by unfold ids; rw [init_nodes, init_nodes]; exact List.nodup_nil
  indexed br n hn := by rw [init_nodes] at hn; cases hn

/-- An order in the book is found by its id. -/
theorem rests_iff {b : BookState} (hb : b.WF) (hu : b.IdsOk) (id : OrderID) :
    b.Rests id ↔ ∃ e, b.orderIndex id = some e := by
  constructor
  · rintro ⟨br, n, hn, rfl⟩
    exact ⟨_, hu.indexed br n hn⟩
  · rintro ⟨e, he⟩
    obtain ⟨br, n, hn, hid, -⟩ := hb.index id e he
    exact ⟨br, n, hn, hid⟩

/-- Two resting orders with one id are the same node on the same side. -/
theorem IdsOk.node_eq {b : BookState} (hu : b.IdsOk) {br br' : Branch} {m n : Node} (hm : m ∈ b.nodes br)
    (hn : n ∈ b.nodes br') (h : m.order.orderId = n.order.orderId) : br = br' ∧ m = n := by
  have hd := hu.nodup br
  rcases br.eq_or_other br' with rfl | rfl
  · exact ⟨rfl, List.inj_on_of_nodup_map (List.nodup_append.1 hd).1 hm hn h⟩
  · exact absurd h ((List.nodup_append.1 hd).2.2 _ (List.mem_map_of_mem hm) _ (List.mem_map_of_mem hn))

section Sweep

variable {b : BookState} {br : Branch} (hb : b.WF) (order : Order) (result : MatchResult) (env : Env)
include hb

/-- The ids of the opposite side before a sweep: those filled, then those that stay. -/
theorem ids_sweep_other : b.ids br.other =
    (emptied Node.size order.remainingQuantity (b.eligible br order)).map (fun n => n.order.orderId) ++
      (b.sweep br order result env).1.ids br.other := by
  unfold ids
  rw [sweep_nodes_other order result env (hb.levels _) (hb.sizes _), ← eligible_append order (hb.levels _),
    List.map_append, List.map_append, map_leftover Node.reduce (fun n => n.order.orderId) (fun _ _ => rfl)
      order.remainingQuantity (b.eligible br order), List.append_assoc]

theorem rests_of_sweep {id : OrderID} (h : (b.sweep br order result env).1.Rests id) : b.Rests id := by
  obtain ⟨br', n, hn, rfl⟩ := h
  rcases br.eq_or_other br' with rfl | rfl
  · rw [sweep_nodes] at hn
    exact ⟨br', n, hn, rfl⟩
  · obtain ⟨m, hm, r, rfl, -⟩ := mem_sweep_other hb order result env hn
    exact ⟨br.other, m, hm, rfl⟩

/-- The index entry of an id that is not filled by the sweep stays. -/
theorem sweep_index_of_not_emptied {id : OrderID}
    (h : id ∉ (emptied Node.size order.remainingQuantity (b.eligible br order)).map fun n => n.order.orderId) :
    (b.sweep br order result env).1.orderIndex id = b.orderIndex id := by
  rw [sweep_orderIndex, sweep_state order result env (hb.levels _) (hb.sizes _)]
  refine (fold_index br b.symbol id (b.eligible br order) ⟨order, b.orderIndex, result, env⟩).trans ?_
  refine if_neg fun ⟨n, hn, hid⟩ => h ?_
  exact List.mem_map.2 ⟨n, hn, hid⟩

theorem sweep_idsOk (hu : b.IdsOk) : (b.sweep br order result env).1.IdsOk := by
  have hd := hu.nodup br
  rw [ids_sweep_other hb order result env] at hd
  -- the filled ids are none of those that stay, on either side
  have hdisj := List.nodup_append.1 hd
  have hother := List.nodup_append.1 hdisj.2.1
  refine .of_branch br ?_ (fun n hn => ?_) (fun n hn => ?_)
  · rw [show (b.sweep br order result env).1.ids br = b.ids br by unfold ids; rw [sweep_nodes]]
    exact hd.sublist ((List.sublist_append_right _ _).append_left _)
  · rw [sweep_nodes] at hn
    rw [sweep_index_of_not_emptied hb order result env, hu.indexed br n hn]
    intro hmem
    exact hdisj.2.2 _ (List.mem_map_of_mem hn) _ (List.mem_append_left _ hmem) rfl
  · obtain ⟨m, hm, r, rfl, -⟩ := mem_sweep_other hb order result env hn
    rw [sweep_index_of_not_emptied hb order result env]
    · exact hu.indexed br.other m hm
    · intro hmem
      exact hother.2.2 _ hmem _ (List.mem_map_of_mem hn) rfl

end Sweep

section Operations

variable {b : BookState} {br : Branch}

theorem rests_rest {order : Order} {id : OrderID} :
    (b.rest br order).Rests id ↔ id = order.orderId ∨ b.Rests id := by
  constructor
  · rintro ⟨br', n, hn, rfl⟩
    rcases br.eq_or_other br' with rfl | rfl
    · rcases mem_rest.1 hn with rfl | hn
      · exact .inl rfl
      · exact .inr ⟨br', n, hn, rfl⟩
    · rw [rest_nodes_other] at hn
      exact .inr ⟨br.other, n, hn, rfl⟩
  · rintro (rfl | ⟨br', n, hn, rfl⟩)
    · exact ⟨br, _, mem_rest.2 (.inl rfl), rfl⟩
    · rcases br.eq_or_other br' with rfl | rfl
      · exact ⟨br', n, mem_rest.2 (.inr hn), rfl⟩
      · exact ⟨br.other, n, by rw [rest_nodes_other]; exact hn, rfl⟩

theorem rest_idsOk {order : Order} (hu : b.IdsOk) (hfresh : ¬ b.Rests order.orderId) :
    (b.rest br order).IdsOk := by
  have hne : ∀ br', ∀ n ∈ b.nodes br', n.order.orderId ≠ order.orderId :=
    fun br' n hn h => hfresh ⟨br', n, hn, h⟩
  refine .of_branch br ?_ (fun n hn => ?_) (fun n hn => ?_)
  · have hperm := ((rest_nodes_perm b br order).map fun n => n.order.orderId).append_right
      (b.ids br.other)
    unfold ids
    rw [rest_nodes_other]
    -- the new id stands in front of the old ones, up to order
    refine hperm.nodup_iff.2 ?_
    rw [List.map_cons, List.cons_append, List.nodup_cons]
    refine ⟨fun hmem => ?_, hu.nodup br⟩
    rcases List.mem_append.1 hmem with h | h
    · obtain ⟨n, hn, hid⟩ := List.mem_map.1 h
      exact hne br n hn hid
    · obtain ⟨n, hn, hid⟩ := List.mem_map.1 h
      exact hne br.other n hn hid
  · rw [rest_orderIndex]
    rcases mem_rest.1 hn with rfl | hn
    · exact if_pos rfl
    · rw [if_neg (hne br n hn)]
      exact hu.indexed br n hn
  · rw [rest_nodes_other] at hn
    rw [rest_orderIndex, if_neg (hne br.other n hn)]
    exact hu.indexed br.other n hn

theorem rests_without (hb : b.WF) (hu : b.IdsOk) {n : Node} (hn : n ∈ b.nodes br) {id : OrderID} :
    (b.without br n).Rests id ↔ b.Rests id ∧ id ≠ n.order.orderId := by
  constructor
  · rintro ⟨br', m, hm, rfl⟩
    rcases br.eq_or_other br' with rfl | rfl
    · obtain ⟨hm, hne⟩ := (mem_without hb hn).1 hm
      exact ⟨⟨br', m, hm, rfl⟩, fun h => hne (hu.node_eq hm hn h).2⟩
    · rw [without_nodes_other] at hm
      exact ⟨⟨br.other, m, hm, rfl⟩, fun h => br.other_ne (hu.node_eq hm hn h).1⟩
  · rintro ⟨⟨br', m, hm, rfl⟩, hne⟩
    rcases br.eq_or_other br' with rfl | rfl
    · exact ⟨br', m, (mem_without hb hn).2 ⟨hm, fun h => hne (by rw [h])⟩, rfl⟩
    · exact ⟨br.other, m, by rw [without_nodes_other]; exact hm, rfl⟩

theorem not_rests_without (hb : b.WF) (hu : b.IdsOk) {n : Node} (hn : n ∈ b.nodes br) :
    ¬ (b.without br n).Rests n.order.orderId := fun h => ((rests_without hb hu hn).1 h).2 rfl

theorem without_idsOk (hb : b.WF) (hu : b.IdsOk) {n : Node} (hn : n ∈ b.nodes br) : (b.without br n).IdsOk := by
  refine .of_branch br ?_ (fun m hm => ?_) (fun m hm => ?_)
  · have hd := hu.nodup br
    unfold ids at hd ⊢
    rw [without_nodes_other, without_nodes hb hn]
    exact hd.sublist ((List.filter_sublist.map _).append_right _)
  · obtain ⟨hm', hne⟩ := (mem_without hb hn).1 hm
    rw [without_orderIndex, if_neg fun h => hne (hu.node_eq hm' hn h).2]
    exact hu.indexed br m hm'
  · rw [without_nodes_other] at hm
    rw [without_orderIndex, if_neg fun h => br.other_ne (hu.node_eq hm hn h).1]
    exact hu.indexed br.other m hm

variable (order : Order) (result : MatchResult) (env : Env)

/-- After a submission only ids from before and the submitted one rest. -/
theorem rests_of_submitBranch (hb : b.WF) {id : OrderID}
    (h : (b.submitBranch br order result env).book.Rests id) : id = order.orderId ∨ b.Rests id := by
  rw [submitBranch_book] at h
  split at h
  · rcases rests_rest.1 h with h | h
    · rw [sweep_incoming hb] at h
      exact .inl h
    · exact .inr (rests_of_sweep hb order result env h)
  · exact .inr (rests_of_sweep hb order result env h)

theorem submitBranch_idsOk (hb : b.WF) (hu : b.IdsOk) (hfresh : ¬ b.Rests order.orderId) :
    (b.submitBranch br order result env).book.IdsOk := by
  have hs : (b.sweep br order result env).1.IdsOk := sweep_idsOk hb order result env hu
  rw [submitBranch_book]
  split
  · refine rest_idsOk hs fun h => hfresh ?_
    rw [sweep_incoming hb] at h
    exact rests_of_sweep hb order result env h
  · exact hs

/-- What holds of every resting order and of the submitted one, and survives partial fills, holds of
every order resting after the submission. -/
theorem submitBranch_forall (hb : b.WF) {P : Order → Prop}
    (hP : ∀ o : Order, ∀ r, P o → r ≤ o.remainingQuantity → P (o.reduce r))
    (h : ∀ br, ∀ n ∈ b.nodes br, P n.order)
    (horder : ∀ q ≤ order.remainingQuantity, P { order with remainingQuantity := q }) :
    ∀ br', ∀ n ∈ (b.submitBranch br order result env).book.nodes br', P n.order := by
  have hsweep : ∀ br', ∀ n ∈ (b.sweep br order result env).1.nodes br', P n.order := by
    refine Branch.forall_of br (fun n hn => ?_) (fun n hn => ?_)
    · rw [sweep_nodes] at hn
      exact h br n hn
    · obtain ⟨m, hm, r, rfl, hr⟩ := mem_sweep_other hb order result env hn
      exact hP m.order r (h br.other m hm) (by unfold Node.size at hr; grind)
  rw [submitBranch_book]
  split
  · rw [sweep_incoming hb]
    refine Branch.forall_of br (fun n hn => ?_) (fun n hn => ?_)
    · rcases mem_rest.1 hn with rfl | hn
      · exact horder _ (unmet_le _ _)
      · exact hsweep br n hn
    · rw [rest_nodes_other] at hn
      exact hsweep br.other n hn
  · exact hsweep

theorem without_forall (hb : b.WF) {P : Order → Prop} {n : Node} (hn : n ∈ b.nodes br)
    (h : ∀ br, ∀ n ∈ b.nodes br, P n.order) : ∀ br', ∀ m ∈ (b.without br n).nodes br', P m.order := by
  refine Branch.forall_of br (fun m hm => ?_) (fun m hm => ?_)
  · exact h br m ((mem_without hb hn).1 hm).1
  · rw [without_nodes_other] at hm
    exact h br.other m hm

end Operations

end BookState

/-! ## Runs with fresh ids -/

/-- The ids submitted in a list of operations, oldest first. -/
def submittedIds (ops : List Op) : List OrderID :=
  ops.filterMap fun
    | .submit order => some order.orderId
    | _ => none

theorem submittedIds_snoc (ops : List Op) (op : Op) : submittedIds (ops ++ [op]) =
    submittedIds ops ++ submittedIds [op] := by
  simp [submittedIds]

/-- No id is submitted twice. -/
def FreshIds (ops : List Op) : Prop := (submittedIds ops).Nodup

instance (ops : List Op) : Decidable (FreshIds ops) := inferInstanceAs (Decidable (submittedIds ops).Nodup)

theorem FreshIds.init {ops : List Op} {op : Op} (h : FreshIds (ops ++ [op])) : FreshIds ops := by
  unfold FreshIds at *
  rw [submittedIds_snoc] at h
  exact (List.nodup_append.1 h).1

theorem FreshIds.last {ops : List Op} {order : Order} (h : FreshIds (ops ++ [.submit order])) :
    order.orderId ∉ submittedIds ops := by
  unfold FreshIds at h
  rw [submittedIds_snoc] at h
  intro hmem
  exact (List.nodup_append.1 h).2.2 _ hmem order.orderId (by simp [submittedIds]) rfl

/-- One operation keeps ids unique, as long as a submitted id does not rest yet. -/
theorem OrderBook.apply_idsOk (b : OrderBook) (op : Op) (env : Env) (hu : b.IdsOk)
    (hfresh : ∀ order, op = .submit order → ¬ b.Rests order.orderId) :
    (b.apply op env).book.IdsOk ∧
      ∀ id, (b.apply op env).book.Rests id → b.Rests id ∨ id ∈ submittedIds [op] := by
  obtain ⟨o, ho, hbook, -, -⟩ := b.applies op env
  rw [hbook]
  cases ho with
  | submit order =>
    refine ⟨BookState.submitBranch_idsOk order {} env b.wf hu (hfresh order rfl), fun id h => ?_⟩
    rcases BookState.rests_of_submitBranch order {} env b.wf h with h | h
    · exact .inr (by simp [submittedIds, h])
    · exact .inl h
  | cancelMiss id hi => exact ⟨hu, fun _ h => .inl h⟩
  | cancel br n hn hi =>
    exact ⟨BookState.without_idsOk b.wf hu hn, fun _ h => .inl ((BookState.rests_without b.wf hu hn).1 h).1⟩
  | modifyMiss request hi => exact ⟨hu, fun _ h => .inl h⟩
  | modify br n request hn hid hi =>
    have hw := BookState.without_wf b.wf hn
    refine ⟨BookState.submitBranch_idsOk _ {} env hw (BookState.without_idsOk b.wf hu hn) fun h => ?_, fun id h => ?_⟩
    · exact BookState.not_rests_without b.wf hu hn h
    · rcases BookState.rests_of_submitBranch _ {} env hw h with h | h
      · exact .inl ⟨br, n, hn, h.symm⟩
      · exact .inl ((BookState.rests_without b.wf hu hn).1 h).1

/-- In a run without repeated ids the index names exactly the resting orders, all of them submitted. -/
theorem run_idsOk (symbol : Symbol) (env : Env) (ops : List Op) (h : FreshIds ops) :
    (run symbol env ops).book.IdsOk ∧ ∀ id, (run symbol env ops).book.Rests id → id ∈ submittedIds ops := by
  refine run_induction (P := fun ops r => FreshIds ops → r.book.IdsOk ∧
    ∀ id, r.book.Rests id → id ∈ submittedIds ops) (fun _ => ⟨BookState.init_idsOk symbol, ?_⟩) ?_ ops h
  · rintro id ⟨br, n, hn, -⟩
    rw [show (Run.start symbol env).book.nodes br = [] from BookState.init_nodes symbol br] at hn
    cases hn
  · intro ops op ih h
    obtain ⟨hu, hsub⟩ := ih h.init
    have hfresh : ∀ order, op = .submit order → ¬ (run symbol env ops).book.Rests order.orderId := by
      rintro order rfl hr
      exact h.last (hsub _ hr)
    obtain ⟨hu', hsub'⟩ := OrderBook.apply_idsOk _ op (run symbol env ops).env hu hfresh
    refine ⟨hu', fun id hr => ?_⟩
    rw [submittedIds_snoc, List.mem_append]
    exact (hsub' id hr).imp_left (hsub id)

/-- What holds of every resting order, of the submitted one and of the modified one, and survives partial fills,
holds of every order resting after the operation. -/
theorem OrderBook.apply_forall {b : OrderBook} {P : Order → Prop}
    (hreduce : ∀ o : Order, ∀ r, P o → r ≤ o.remainingQuantity → P (o.reduce r)) (op : Op) (env : Env)
    (hsubmit : ∀ o, op = .submit o → ∀ q ≤ o.remainingQuantity, P { o with remainingQuantity := q })
    (hmodify : ∀ br, ∀ n ∈ b.nodes br, ∀ request, op = .modify request → n.order.orderId = request.orderId →
      b.orderIndex n.order.orderId = some ⟨br.toSide, n.order.price, n.addr⟩ → ∀ q ≤ request.quantity,
        P { BookState.modified n.order request with remainingQuantity := q })
    (h : ∀ br, ∀ n ∈ b.nodes br, P n.order) : ∀ br, ∀ n ∈ (b.apply op env).book.nodes br, P n.order := by
  obtain ⟨o, ho, hbook, -, -⟩ := b.applies op env
  rw [hbook]
  cases ho with
  | submit order => exact BookState.submitBranch_forall order {} _ b.wf hreduce h (hsubmit order rfl)
  | cancelMiss id hi => exact h
  | cancel br n hn hi => exact BookState.without_forall b.wf hn h
  | modifyMiss request hi => exact h
  | modify br n request hn hid hi =>
    exact BookState.submitBranch_forall _ {} _ (BookState.without_wf b.wf hn) hreduce
      (BookState.without_forall b.wf hn h) (hmodify br n hn request rfl hid hi)

/-- What holds of the submitted orders, and survives partial fills and modifies, holds of every
resting order of the run. -/
theorem run_forall {symbol : Symbol} {env : Env} {P : Order → Prop}
    (hreduce : ∀ o : Order, ∀ r, P o → r ≤ o.remainingQuantity → P (o.reduce r))
    (hmodify : ∀ o request, P o → ∀ q ≤ request.quantity,
      P { BookState.modified o request with remainingQuantity := q })
    (ops : List Op)
    (h : ∀ o, .submit o ∈ ops → ∀ q ≤ o.remainingQuantity, P { o with remainingQuantity := q }) :
    ∀ br, ∀ n ∈ (run symbol env ops).book.nodes br, P n.order := by
  refine run_induction (P := fun ops r => (∀ o, .submit o ∈ ops → ∀ q ≤ o.remainingQuantity,
    P { o with remainingQuantity := q }) → ∀ br, ∀ n ∈ r.book.nodes br, P n.order) ?_ ?_ ops h
  · intro _ br n hn
    rw [show (Run.start symbol env).book.nodes br = [] from BookState.init_nodes symbol br] at hn
    cases hn
  · intro ops op ih h
    have ih := ih fun o ho => h o (List.mem_append_left _ ho)
    refine OrderBook.apply_forall hreduce op _ ?_ ?_ ih
    · rintro o rfl
      exact h o (List.mem_append_right _ (List.mem_singleton_self _))
    · intro br n hn request _ _ _
      exact hmodify n.order request (ih br n hn)

/-! ## The representation invariant -/

/-- What `RiskChecker` lets through to the book of `symbol`: orders of that symbol with a positive
remaining quantity within the quantity, under ids never submitted before. -/
structure Admitted (symbol : Symbol) (ops : List Op) : Prop where
  fresh : FreshIds ops
  orders : ∀ o, .submit o ∈ ops → o.symbol = symbol ∧ 0 < o.remainingQuantity ∧ o.remainingQuantity ≤ o.quantity

/-- The representation invariant of the book for `symbol`. -/
structure RepInv (symbol : Symbol) (b : BookState) : Prop where
  noEmptyLevel : ∀ br, ∀ e ∈ (b.levels br).entries, e.2 ≠ []
  stored : ∀ br, ∀ e ∈ (b.levels br).entries, ∀ n ∈ e.2, n.order.price = e.1 ∧ n.order.type = OrderType.limit ∧
    n.order.symbol = symbol ∧ 0 < n.order.remainingQuantity ∧ n.order.remainingQuantity ≤ n.order.quantity
  buySide : ∀ n ∈ b.nodes .buy, n.order.side = Side.buy
  sellSide : ∀ n ∈ b.nodes .sell, n.order.side ≠ Side.buy
  uniqueIds : (b.ids .buy ++ b.ids .sell).Nodup
  uniqueNodes : ((b.nodes .buy ++ b.nodes .sell).map Node.addr).Nodup
  indexed : ∀ id, (∃ e, b.orderIndex.get id = some e) ↔ b.Rests id
  entry : ∀ id e, b.orderIndex.get id = some e → ∃ br q, e.side = br.toSide ∧
    (b.levels br).find? e.priceLevel = some q ∧ ∃ n ∈ q, n.addr = e.position ∧ n.order.orderId = id

/-- Every state reached by admitted submissions, cancels and arbitrary modifies satisfies the
representation invariant. -/
theorem run_repInv (symbol : Symbol) (env : Env) (ops : List Op) (h : Admitted symbol ops) :
    RepInv symbol (run symbol env ops).book.toBookState := by
  have hwf := (run symbol env ops).book.wf
  obtain ⟨hu, -⟩ := run_idsOk symbol env ops h.fresh
  -- these two are no part of the class invariant: they rest on what was submitted
  have hfields : ∀ br, ∀ n ∈ (run symbol env ops).book.nodes br,
      n.order.symbol = symbol ∧ n.order.remainingQuantity ≤ n.order.quantity := by
    refine run_forall (P := fun o => o.symbol = symbol ∧ o.remainingQuantity ≤ o.quantity) ?_ ?_ ops ?_
    · rintro o r ⟨hs, hq⟩ hr
      refine ⟨hs, ?_⟩
      rw [Order.reduce_remaining, Order.reduce_quantity]
      grind
    · rintro o request ⟨hs, -⟩ q hq
      exact ⟨hs, hq⟩
    · intro o ho q hq
      obtain ⟨hs, -, hle⟩ := h.orders o ho
      exact ⟨hs, UInt32.le_trans hq hle⟩
  refine ⟨fun br e he => (hwf.levels br e he).1, fun br e he n hn => ?_, fun n hn => ?_, fun n hn => ?_,
    hu.nodup .buy, hwf.addrs .buy, fun id => (BookState.rests_iff hwf hu id).symm, fun id e he => ?_⟩
  · have hmem : n ∈ (run symbol env ops).book.nodes br := OrderedMap.mem_flat.2 ⟨e.1, e.2, he, hn⟩
    obtain ⟨ht, hq, -⟩ := hwf.resting br n hmem
    obtain ⟨hs, hle⟩ := hfields br n hmem
    exact ⟨(hwf.levels br e he).2 n hn, ht, hs, quantity_pos.2 hq, hle⟩
  · have hs := (hwf.resting .buy n hn).2.2
    unfold Branch.ofSide at hs
    split at hs
    · assumption
    · cases hs
  · have hs := (hwf.resting .sell n hn).2.2
    unfold Branch.ofSide at hs
    split at hs
    · cases hs
    · assumption
  · obtain ⟨br, n, hn, hid, rfl⟩ := hwf.index id e he
    obtain ⟨q, hq, hnq⟩ := hwf.node_level hn
    exact ⟨br, q, rfl, hq, n, hnq, rfl, hid⟩

/-- A bid that trades and is moved, an offer and a second bid that is cancelled, on a book for the empty symbol. -/
def tradedAndMoved : List Op :=
  [.submit { orderId := 1, price := 10, quantity := 5, remainingQuantity := 5 },
    .submit { orderId := 2, side := .sell, price := 10, quantity := 2, remainingQuantity := 2 },
    .modify { orderId := 1, price := 9, quantity := 4 },
    .submit { orderId := 3, side := .sell, price := 11, quantity := 3, remainingQuantity := 3 },
    .submit { orderId := 4, price := 9, quantity := 1, remainingQuantity := 1 },
    .submit { orderId := 5, price := 9, quantity := 6, remainingQuantity := 6 }, .cancel 4]

theorem run_repInv_trade : RepInv [] (run [] ⟨1, fun _ => 0, 0⟩ tradedAndMoved).book.toBookState ∧
    (run [] ⟨1, fun _ => 0, 0⟩ tradedAndMoved).book.ids .buy = [1, 5] ∧
    (run [] ⟨1, fun _ => 0, 0⟩ tradedAndMoved).book.ids .sell = [3] := by
  refine ⟨run_repInv [] _ _ ⟨by decide, fun o ho => ?_⟩, by decide, by decide⟩
  simp only [tradedAndMoved, List.mem_cons, List.not_mem_nil, Op.submit.injEq, reduceCtorEq, or_false, false_or] at ho
  rcases ho with rfl | rfl | rfl | rfl | rfl <;> decide

end StockExchange
