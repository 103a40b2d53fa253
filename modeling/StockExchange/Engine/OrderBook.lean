/-
The class invariant of `OrderBook`, kept by every operation on arbitrary orders and requests: levels
are non-empty queues of open `Limit` orders at the level's price, list nodes have distinct addresses,
every index entry names the node of an order with its id, and the sides are not crossed. An
`OrderBook` is a `BookState` with this invariant; on it no operation reads or erases through a dead
iterator, so `cancelOrder` and `modifyOrder` are total.
-/
import StockExchange.Engine.Matching

namespace StockExchange

open Greedy

namespace Branch

theorem forall_of {P : Branch → Prop} (br : Branch) (h : P br) (h' : P br.other) : ∀ br', P br' := by
  intro br'
  cases br <;> cases br' <;> assumption

theorem eq_or_other (br br' : Branch) : br' = br ∨ br' = br.other := by
  cases br <;> cases br' <;> decide

theorem before_other (br : Branch) (p q : Price) : br.other.before p q ↔ br.before q p := by
  cases br <;> rfl

end Branch

namespace BookState

/-- The class invariant. -/
structure WF (b : BookState) : Prop where
  levels : ∀ br, LevelsOk (b.levels br)
  resting : ∀ br, ∀ n ∈ b.nodes br, n.order.type = OrderType.limit ∧ n.size ≠ 0 ∧ Branch.ofSide n.order.side = br
  addrs : ∀ br, ((b.nodes br ++ b.nodes br.other).map Node.addr).Nodup
  addrLt : ∀ br, ∀ n ∈ b.nodes br, n.addr < b.nextNode
  index : ∀ id e, b.orderIndex id = some e →
    ∃ br, ∃ n ∈ b.nodes br, n.order.orderId = id ∧ e = ⟨br.toSide, n.order.price, n.addr⟩
  uncrossed : ∀ br, ∀ m ∈ b.nodes br, ∀ n ∈ b.nodes br.other, br.other.before m.order.price n.order.price

theorem init_nodes (symbol : Symbol) (br : Branch) : (init symbol).nodes br = [] := by cases br <;> rfl

theorem init_wf (symbol : Symbol) : (init symbol).WF where
  levels br := by cases br <;> (intro e he; cases he)
  resting br n hn := by rw [init_nodes] at hn; cases hn
  addrs br := by rw [init_nodes, init_nodes]; exact List.nodup_nil
  addrLt br n hn := by rw [init_nodes] at hn; cases hn
  index id e h := by cases h
  uncrossed br m hm := by rw [init_nodes] at hm; cases hm

section Sides

variable {b : BookState} (br : Branch)

/-- One order of the sides tells whether an address repeats. -/
theorem addrs_sides (h : ((b.nodes br ++ b.nodes br.other).map Node.addr).Nodup) :
    ∀ br', ((b.nodes br' ++ b.nodes br'.other).map Node.addr).Nodup := by
  refine Branch.forall_of br h ?_
  rw [Branch.other_other]
  exact (List.perm_append_comm.map _).nodup_iff.1 h

/-- One side tells whether the book is crossed. -/
theorem uncrossed_sides
    (h : ∀ m ∈ b.nodes br, ∀ n ∈ b.nodes br.other, br.other.before m.order.price n.order.price) :
    ∀ br', ∀ m ∈ b.nodes br', ∀ n ∈ b.nodes br'.other, br'.other.before m.order.price n.order.price := by
  refine Branch.forall_of br h ?_
  intro m hm n hn
  rw [Branch.other_other] at hn ⊢
  exact (br.before_other _ _).1 (h n hn m hm)

end Sides

section Facts

variable {b : BookState} (hb : b.WF)
include hb

theorem WF.sizes (br : Branch) : ∀ n ∈ b.nodes br, n.size ≠ 0 := fun n hn => (hb.resting br n hn).2.1

/-- A modified order stays on its side. -/
theorem WF.modified_side {br : Branch} {n : Node} (hn : n ∈ b.nodes br) (request : ModifyRequest) :
    Branch.ofSide (modified n.order request).side = br := (hb.resting br n hn).2.2

/-- Two nodes of a book at one address are the same node on the same side. -/
theorem WF.node_eq {br br' : Branch} {m n : Node} (hm : m ∈ b.nodes br) (hn : n ∈ b.nodes br')
    (h : m.addr = n.addr) : br = br' ∧ m = n := by
  have hm' : m ∈ b.nodes br ++ b.nodes br.other := List.mem_append_left _ hm
  rcases br.eq_or_other br' with rfl | rfl
  · exact ⟨rfl, List.inj_on_of_nodup_map (hb.addrs br') hm' (List.mem_append_left _ hn) h⟩
  · exfalso
    have hd := hb.addrs br
    rw [List.map_append, List.nodup_append] at hd
    exact hd.2.2 _ (List.mem_map_of_mem hm) _ (List.mem_map_of_mem hn) h

/-- A resting order sits in the queue of its own price. -/
theorem WF.node_level {br : Branch} {n : Node} (hn : n ∈ b.nodes br) :
    ∃ q, (b.levels br).find? n.order.price = some q ∧ n ∈ q := by
  obtain ⟨p, q, he, hq⟩ := OrderedMap.mem_flat.1 hn
  have hp : n.order.price = p := (hb.levels br (p, q) he).2 n hq
  subst hp
  exact ⟨q, (OrderedMap.find?_eq_some _).2 he, hq⟩

theorem WF.deref_eq {br : Branch} {n : Node} (hn : n ∈ b.nodes br) : b.deref n.addr = some n.order := by
  unfold deref
  have hmem : n ∈ b.nodes .buy ++ b.nodes .sell := by
    cases br
    · exact List.mem_append_left _ hn
    · exact List.mem_append_right _ hn
  cases hf : (b.nodes .buy ++ b.nodes .sell).find? fun m => m.addr = n.addr with
  | none =>
    rw [List.find?_eq_none] at hf
    simpa using hf n hmem
  | some m =>
    have hm := List.mem_of_find?_eq_some hf
    have ha : m.addr = n.addr := by simpa using List.find?_some hf
    have : m = n := by
      rcases List.mem_append.1 hm with hm | hm
      · exact (hb.node_eq hm hn ha).2
      · exact (hb.node_eq hm hn ha).2
    rw [this]; rfl

end Facts

/-- A well-formed book can be read off its orders and its index. -/
theorem WF.ext_nodes {b b' : BookState} (hb : b.WF) (hb' : b'.WF) (hsymbol : b.symbol = b'.symbol)
    (hnodes : ∀ br, b.nodes br = b'.nodes br) (hindex : b.orderIndex = b'.orderIndex)
    (hnext : b.nextNode = b'.nextNode) : b = b' := by
  have hlevels : ∀ br, b.levels br = b'.levels br := by
    intro br
    refine OrderedMap.ext ?_
    exact OrderedMap.entries_eq_of_flat_eq _ _ (b.levels br).sorted (b'.levels br).sorted (hb.levels br) (hb'.levels br)
      (hnodes br)
  have hbuy := hlevels .buy
  have hsell := hlevels .sell
  cases b
  cases b'
  simp only [BookState.mk.injEq]
  exact ⟨hsymbol, hbuy, hsell, hindex, hnext⟩

/-! ## The matching loops -/

section Sweep

variable {b : BookState} {br : Branch} (hb : b.WF) (order : Order) (result : MatchResult) (env : Env)

theorem eligible_append (hl : LevelsOk (b.levels br.other)) :
    b.eligible br order ++ b.unreachable br order = b.nodes br.other := by
  obtain ⟨h1, h2⟩ := flatMap_accepted br order hl
  unfold eligible unreachable nodes
  rw [← h1, ← h2, ← List.flatMap_append, List.takeWhile_append_dropWhile]
  rfl

include hb

/-- A node of the opposite side after a sweep is a node from before with less than all of it taken. -/
theorem mem_sweep_other {n : Node} (hn : n ∈ (b.sweep br order result env).1.nodes br.other) :
    ∃ m ∈ b.nodes br.other, ∃ r, n = m.reduce r ∧ r < m.size := by
  rw [sweep_nodes_other order result env (hb.levels _) (hb.sizes _)] at hn
  have huntouched : n ∈ b.nodes br.other → ∃ m ∈ b.nodes br.other, ∃ r, n = m.reduce r ∧ r < m.size :=
    fun hm => ⟨n, hm, 0, n.reduce_zero.symm, quantity_pos.2 (hb.sizes _ n hm)⟩
  rcases List.mem_append.1 hn with hn | hn
  · rcases mem_leftover Node.reduce hn with hn | ⟨m, hm, r, rfl, hle, -⟩
    · exact huntouched (List.mem_filter.1 hn).1
    · exact ⟨m, (List.mem_filter.1 hm).1, r, rfl, by grind⟩
  · exact huntouched (List.mem_filter.1 hn).1

theorem sweep_addrs : ((b.sweep br order result env).1.nodes br.other).map Node.addr <:+
    (b.nodes br.other).map Node.addr := by
  rw [sweep_nodes_other order result env (hb.levels _) (hb.sizes _), ← eligible_append order (hb.levels _),
    List.map_append, List.map_append,
    map_leftover Node.reduce Node.addr (fun _ _ => rfl) order.remainingQuantity (b.eligible br order),
    List.append_assoc]
  exact List.suffix_append ..

/-- A node of the opposite side whose id is still indexed after the sweep is still in the book. -/
theorem sweep_index_other {n : Node} {e : OrderIndexEntry} (hn : n ∈ b.nodes br.other)
    (he : (b.sweep br order result env).1.orderIndex n.order.orderId = some e) :
    ∃ r, n.reduce r ∈ (b.sweep br order result env).1.nodes br.other := by
  rw [sweep_orderIndex, sweep_state order result env (hb.levels _) (hb.sizes _)] at he
  have hix := fold_index br b.symbol n.order.orderId (b.eligible br order) ⟨order, b.orderIndex, result, env⟩
  rw [hix] at he
  split at he
  · cases he
  · rename_i hne
    rw [sweep_nodes_other order result env (hb.levels _) (hb.sizes _)]
    rw [← eligible_append order (hb.levels br.other)] at hn
    rcases List.mem_append.1 hn with hn | hn
    · have hnot : n ∉ emptied Node.size order.remainingQuantity (b.eligible br order) :=
        fun h => hne ⟨n, h, rfl⟩
      rcases leftover_of_mem Node.reduce hn hnot with h | ⟨r, h, -⟩
      · exact ⟨0, by rw [n.reduce_zero]; exact List.mem_append_left _ h⟩
      · exact ⟨r, List.mem_append_left _ h⟩
    · exact ⟨0, by rw [n.reduce_zero]; exact List.mem_append_right _ hn⟩

theorem sweep_index_mono {id : OrderID} {e : OrderIndexEntry}
    (he : (b.sweep br order result env).1.orderIndex id = some e) : b.orderIndex id = some e := by
  rw [sweep_orderIndex, sweep_state order result env (hb.levels _) (hb.sizes _)] at he
  have hix := fold_index br b.symbol id (b.eligible br order) ⟨order, b.orderIndex, result, env⟩
  rw [hix] at he
  split at he
  · cases he
  · exact he

theorem sweep_wf : (b.sweep br order result env).1.WF where
  levels := by
    refine Branch.forall_of br ?_ ?_
    · rw [sweep_levels]; exact hb.levels br
    · exact sweep_levelsOk order result env (hb.levels _)
  resting := by
    refine Branch.forall_of br ?_ ?_
    · rw [sweep_nodes]; exact hb.resting br
    · intro n hn
      obtain ⟨m, hm, r, rfl, hsz⟩ := mem_sweep_other hb order result env hn
      obtain ⟨h1, -, h3⟩ := hb.resting _ m hm
      exact ⟨h1, Node.reduce_size_ne hsz, h3⟩
  addrs := by
    -- the nodes that are left keep their addresses
    refine addrs_sides br ?_
    have hd := hb.addrs br
    rw [List.map_append] at hd
    rw [sweep_nodes, List.map_append]
    exact hd.sublist ((sweep_addrs hb order result env).sublist.append_left _)
  addrLt := by
    refine Branch.forall_of br ?_ ?_
    · rw [sweep_nodes, sweep_nextNode]; exact hb.addrLt br
    · intro n hn
      obtain ⟨m, hm, r, rfl, -⟩ := mem_sweep_other hb order result env hn
      rw [sweep_nextNode]
      exact hb.addrLt _ m hm
  index id e he := by
    -- an entry that survives the sweep is of a node that is not filled
    obtain ⟨br', n, hn, hid, heq⟩ := hb.index id e (sweep_index_mono hb order result env he)
    rcases br.eq_or_other br' with rfl | rfl
    · exact ⟨br', n, by rw [sweep_nodes]; exact hn, hid, heq⟩
    · subst hid
      obtain ⟨r, hr⟩ := sweep_index_other hb order result env hn he
      exact ⟨br.other, n.reduce r, hr, rfl, heq⟩
  uncrossed := by
    refine uncrossed_sides br fun m hm n hn => ?_
    rw [sweep_nodes] at hm
    obtain ⟨n', hn', r, rfl, -⟩ := mem_sweep_other hb order result env hn
    exact hb.uncrossed br m hm n' hn'

/-- What is left of the incoming order after a sweep. -/
theorem sweep_incoming : (b.sweep br order result env).2.incoming = { order with
    remainingQuantity := unmet Node.size order.remainingQuantity (b.eligible br order) } := by
  rw [sweep_state order result env (hb.levels _) (hb.sizes _)]
  exact fold_incoming br b.symbol (b.eligible br order) ⟨order, b.orderIndex, result, env⟩

/-- An incoming order that is not filled has left only orders out of its reach. -/
theorem sweep_other_of_unmet (h : unmet Node.size order.remainingQuantity (b.eligible br order) ≠ 0) :
    (b.sweep br order result env).1.nodes br.other = b.unreachable br order := by
  rw [sweep_nodes_other order result env (hb.levels _) (hb.sizes _), (leftover_of_unmet Node.reduce _ _ h).1,
    List.nil_append]

end Sweep

/-! ## The remainder -/

section Rest

variable {b : BookState} {br : Branch} {order : Order}

theorem rest_nodes_perm (b : BookState) (br : Branch) (order : Order) : ((b.rest br order).nodes br).Perm (⟨b.nextNode, order⟩ :: b.nodes br) := by
  unfold rest nodes
  rw [levels_mk_index_next, setLevels_levels]
  exact OrderedMap.flat_pushBack_perm ..

theorem mem_rest {n : Node} : n ∈ (b.rest br order).nodes br ↔ n = ⟨b.nextNode, order⟩ ∨ n ∈ b.nodes br := by
  rw [(rest_nodes_perm b br order).mem_iff, List.mem_cons]

@[simp] theorem rest_levels_other : (b.rest br order).levels br.other = b.levels br.other := by
  unfold rest
  rw [levels_mk_index_next, setLevels_other_levels]

@[simp] theorem rest_nodes_other : (b.rest br order).nodes br.other = b.nodes br.other := by
  unfold nodes
  rw [rest_levels_other]

@[simp] theorem rest_symbol : (b.rest br order).symbol = b.symbol := by
  unfold rest
  exact setLevels_symbol ..

@[simp] theorem rest_nextNode : (b.rest br order).nextNode = b.nextNode + 1 := rfl

theorem rest_orderIndex (id : OrderID) : (b.rest br order).orderIndex id =
    if id = order.orderId then some ⟨br.toSide, order.price, b.nextNode⟩ else b.orderIndex id := by
  unfold rest OrderIndex.insert
  exact Function.update_apply ..

theorem rest_levelsOk (h : LevelsOk (b.levels br)) : LevelsOk ((b.rest br order).levels br) := by
  unfold rest
  rw [levels_mk_index_next, setLevels_levels]
  intro e he
  rcases (OrderedMap.mem_upsert _).1 he with ⟨-, he⟩ | rfl
  · exact h e he
  · refine ⟨by simp, fun n hn => ?_⟩
    rcases List.mem_append.1 hn with hn | hn
    · cases hf : (b.levels br).find? order.price with
      | none => simp [hf] at hn
      | some q =>
        rw [hf] at hn
        exact (h _ ((OrderedMap.find?_eq_some _).1 hf)).2 n hn
    · rw [List.mem_singleton.1 hn]

/-- An open `Limit` order of this side that crosses nothing may rest. -/
theorem rest_wf (hb : b.WF) (ht : order.type = OrderType.limit) (hq : order.remainingQuantity ≠ 0)
    (hs : Branch.ofSide order.side = br)
    (hx : ∀ n ∈ b.nodes br.other, br.other.before order.price n.order.price) : (b.rest br order).WF where
  levels := by
    refine Branch.forall_of br (rest_levelsOk (hb.levels br)) ?_
    rw [rest_levels_other]; exact hb.levels _
  resting := by
    refine Branch.forall_of br (fun n hn => ?_) ?_
    · rcases mem_rest.1 hn with rfl | hn
      · exact ⟨ht, hq, hs⟩
      · exact hb.resting br n hn
    · rw [rest_nodes_other]; exact hb.resting _
  addrs := by
    refine addrs_sides br ?_
    have hperm := (rest_nodes_perm b br order).append_right (b.nodes br.other)
    rw [rest_nodes_other, (hperm.map Node.addr).nodup_iff, List.cons_append, List.map_cons, List.nodup_cons]
    refine ⟨fun hmem => ?_, hb.addrs br⟩
    -- every node of the book was allocated before the new one
    obtain ⟨n, hn, ha⟩ := List.mem_map.1 hmem
    have hlt : n.addr < b.nextNode := by
      rcases List.mem_append.1 hn with hn | hn
      · exact hb.addrLt _ n hn
      · exact hb.addrLt _ n hn
    simp only at ha
    omega
  addrLt := by
    refine Branch.forall_of br (fun n hn => ?_) (fun n hn => ?_)
    · rw [rest_nextNode]
      rcases mem_rest.1 hn with rfl | hn
      · exact Nat.lt_succ_self _
      · exact Nat.lt_succ_of_lt (hb.addrLt br n hn)
    · rw [rest_nodes_other] at hn
      rw [rest_nextNode]
      exact Nat.lt_succ_of_lt (hb.addrLt _ n hn)
  index id e he := by
    rw [rest_orderIndex] at he
    split at he
    · rename_i hid
      cases he
      exact ⟨br, ⟨b.nextNode, order⟩, mem_rest.2 (.inl rfl), hid.symm, rfl⟩
    · obtain ⟨br', n, hn, hid, heq⟩ := hb.index id e he
      rcases br.eq_or_other br' with rfl | rfl
      · exact ⟨br', n, mem_rest.2 (.inr hn), hid, heq⟩
      · exact ⟨br.other, n, by rw [rest_nodes_other]; exact hn, hid, heq⟩
  uncrossed := by
    refine uncrossed_sides br fun m hm n hn => ?_
    rw [rest_nodes_other] at hn
    rcases mem_rest.1 hm with rfl | hm
    · exact hx n hn
    · exact hb.uncrossed br m hm n hn

end Rest

/-! ## Submission -/

section Submit

variable {b : BookState} {br : Branch} (order : Order) (result : MatchResult) (env : Env)

/-- The book after one branch of `submitOrderInternal`: the remainder of a `Limit` order rests, any
other remainder is dropped. -/
theorem submitBranch_book : (b.submitBranch br order result env).book =
    if (b.sweep br order result env).2.incoming.remainingQuantity > 0 ∧
        (b.sweep br order result env).2.incoming.type = OrderType.limit then
      (b.sweep br order result env).1.rest br (b.sweep br order result env).2.incoming
    else (b.sweep br order result env).1 := by
  unfold submitBranch settle
  simp only
  by_cases hq : (b.sweep br order result env).2.incoming.remainingQuantity > 0
  · by_cases ht : (b.sweep br order result env).2.incoming.type = OrderType.limit
    · simp only [hq, ht, and_self, if_true]
      split <;> rfl
    · rw [if_pos hq, if_neg ht, if_neg fun h => ht h.2]
  · rw [if_neg hq, if_neg fun h => hq h.1]

theorem submitBranch_wf (hb : b.WF) (hs : Branch.ofSide order.side = br) :
    (b.submitBranch br order result env).book.WF := by
  rw [submitBranch_book]
  have hw : (b.sweep br order result env).1.WF := sweep_wf hb order result env
  split
  · rename_i h
    rw [sweep_incoming hb order result env] at h ⊢
    have hne : unmet Node.size order.remainingQuantity (b.eligible br order) ≠ 0 := quantity_pos.1 h.1
    refine rest_wf hw h.2 hne hs fun n hn => ?_
    rw [sweep_other_of_unmet hb order result env hne] at hn
    have hacc := (List.mem_filter.1 hn).2
    simp only [Branch.accepts, Bool.not_not, Bool.and_eq_true, decide_eq_true_eq] at hacc
    exact (br.misses_iff _ _).1 hacc.2
  · exact hw

theorem submitOrderInternal_eq : b.submitOrderInternal order result env =
    b.submitBranch (Branch.ofSide order.side) order result env := by
  unfold submitOrderInternal Branch.ofSide
  split <;> rfl

theorem submitOrderInternal_wf (hb : b.WF) : (b.submitOrderInternal order result env).book.WF := by
  rw [submitOrderInternal_eq]
  exact submitBranch_wf order result env hb rfl

end Submit

/-! ## Removal through the index -/

/-- The book without one node and its id. -/
def without (b : BookState) (br : Branch) (n : Node) : BookState :=
  { b.setLevels br ((b.levels br).filterAt n.order.price fun m => m.addr ≠ n.addr) with
    orderIndex := b.orderIndex.remove n.order.orderId }

section Remove

variable {b : BookState} {br : Branch} {n : Node} (hb : b.WF) (hn : n ∈ b.nodes br)

theorem without_levels : (b.without br n).levels br =
    (b.levels br).filterAt n.order.price fun m => m.addr ≠ n.addr := by
  unfold without
  rw [levels_mk_index, setLevels_levels]

@[simp] theorem without_levels_other : (b.without br n).levels br.other = b.levels br.other := by
  unfold without
  rw [levels_mk_index, setLevels_other_levels]

@[simp] theorem without_nodes_other : (b.without br n).nodes br.other = b.nodes br.other := by
  unfold nodes
  rw [without_levels_other]

@[simp] theorem without_symbol : (b.without br n).symbol = b.symbol := by
  unfold without
  exact setLevels_symbol ..

@[simp] theorem without_nextNode : (b.without br n).nextNode = b.nextNode := by
  unfold without
  exact setLevels_nextNode ..

theorem without_orderIndex (id : OrderID) :
    (b.without br n).orderIndex id = if id = n.order.orderId then none else b.orderIndex id := by
  unfold without
  exact Function.update_apply ..

include hb hn

theorem without_nodes : (b.without br n).nodes br = (b.nodes br).filter fun m => m.addr ≠ n.addr := by
  unfold nodes
  rw [without_levels]
  refine OrderedMap.flat_filterAt _ _ _ fun e he hk m hm => ?_
  have hm' : m ∈ b.nodes br := OrderedMap.mem_flat.2 ⟨e.1, e.2, he, hm⟩
  refine decide_eq_true fun ha => hk ?_
  rw [← (hb.levels br e he).2 m hm, (hb.node_eq hm' hn ha).2]

theorem mem_without {m : Node} : m ∈ (b.without br n).nodes br ↔ m ∈ b.nodes br ∧ m ≠ n := by
  rw [without_nodes hb hn, List.mem_filter]
  constructor
  · rintro ⟨hm, ha⟩
    exact ⟨hm, by rintro rfl; simp at ha⟩
  · rintro ⟨hm, hne⟩
    exact ⟨hm, by simpa using fun ha => hne (hb.node_eq hm hn ha).2⟩

theorem without_wf : (b.without br n).WF where
  levels := by
    refine Branch.forall_of br ?_ ?_
    · rw [without_levels]
      intro e he
      -- the level of the node is filtered, and erased if nothing is left
      rcases (OrderedMap.mem_filterAt _).1 he with ⟨-, he⟩ | ⟨hk, hne, q, hq, hf⟩
      · exact hb.levels br e he
      · refine ⟨hne, fun m hm => ?_⟩
        rw [hf] at hm
        rw [hk]
        exact (hb.levels br _ hq).2 m (List.mem_filter.1 hm).1
    · rw [without_levels_other]; exact hb.levels _
  resting := by
    refine Branch.forall_of br (fun m hm => ?_) ?_
    · exact hb.resting br m ((mem_without hb hn).1 hm).1
    · rw [without_nodes_other]; exact hb.resting _
  addrs := by
    refine addrs_sides br ?_
    rw [without_nodes_other, without_nodes hb hn]
    exact (hb.addrs br).sublist ((List.filter_sublist.append_right _).map _)
  addrLt := by
    rw [without_nextNode]
    refine Branch.forall_of br (fun m hm => ?_) ?_
    · exact hb.addrLt br m ((mem_without hb hn).1 hm).1
    · rw [without_nodes_other]; exact hb.addrLt _
  index id e he := by
    rw [without_orderIndex] at he
    split at he
    · cases he
    · rename_i hid
      obtain ⟨br', m, hm, rfl, heq⟩ := hb.index id e he
      rcases br.eq_or_other br' with rfl | rfl
      · exact ⟨br', m, (mem_without hb hn).2 ⟨hm, fun h => hid (by rw [h])⟩, rfl, heq⟩
      · exact ⟨br.other, m, by rw [without_nodes_other]; exact hm, rfl, heq⟩
  uncrossed := by
    refine uncrossed_sides br fun m hm k hk => ?_
    rw [without_nodes_other] at hk
    exact hb.uncrossed br m ((mem_without hb hn).1 hm).1 k hk

/-- The code that removes an indexed order erases the node of the entry. -/
theorem eraseEntry_eq : b.eraseEntry ⟨br.toSide, n.order.price, n.addr⟩ =
    some (b.setLevels br ((b.levels br).filterAt n.order.price fun m => m.addr ≠ n.addr)) := by
  obtain ⟨q, hq, hnq⟩ := hb.node_level hn
  have hany : (q.any fun m => m.addr = n.addr) = true :=
    List.any_eq_true.2 ⟨n, hnq, by simp⟩
  unfold eraseEntry
  rw [Branch.ofSide_toSide]
  unfold eraseAt
  rw [hq]
  exact if_pos hany

end Remove

/-! ## Cancel and modify -/

section CancelModify

variable {b : BookState} (hb : b.WF)
include hb

/-- `cancelOrder` finds nothing and changes nothing, or removes the indexed order and reports it. -/
theorem cancelOrder_cases (id : OrderID) (result : MatchResult) (env : Env) :
    (b.orderIndex id = none ∧ b.cancelOrder id result env = some (false, ⟨b, result, env⟩)) ∨
      ∃ br, ∃ n ∈ b.nodes br, n.order.orderId = id ∧
        b.orderIndex id = some ⟨br.toSide, n.order.price, n.addr⟩ ∧
        b.cancelOrder id result env = some (true, ⟨b.without br n,
          result.report (b.cancelReport id ⟨br.toSide, n.order.price, n.addr⟩ n.order.clientId
            (env.clock env.reads)), { env with reads := env.reads + 1 }⟩) := by
  cases hi : b.orderIndex id with
  | none =>
    refine .inl ⟨rfl, ?_⟩
    unfold cancelOrder OrderIndex.get
    rw [hi]
  | some e =>
    obtain ⟨br, n, hn, rfl, rfl⟩ := hb.index id e hi
    refine .inr ⟨br, n, hn, rfl, rfl, ?_⟩
    unfold cancelOrder OrderIndex.get
    rw [hi]
    simp only [hb.deref_eq hn, eraseEntry_eq hb hn, Option.bind_eq_bind, Option.bind_some]
    unfold without cancelReport Env.getCurrentTimeNs
    simp only [setLevels_orderIndex, setLevels_symbol]

/-- `modifyOrder` finds nothing and changes nothing, or removes the indexed order and submits it again
as the request rewrites it. -/
theorem modifyOrder_cases (request : ModifyRequest) (result : MatchResult) (env : Env) :
    (b.orderIndex request.orderId = none ∧ b.modifyOrder request result env = some (false, ⟨b, result, env⟩)) ∨
      ∃ br, ∃ n ∈ b.nodes br, n.order.orderId = request.orderId ∧
        b.orderIndex request.orderId = some ⟨br.toSide, n.order.price, n.addr⟩ ∧
        b.modifyOrder request result env = some (true,
          (b.without br n).submitBranch br (modified n.order request) result env) := by
  cases hi : b.orderIndex request.orderId with
  | none =>
    refine .inl ⟨rfl, ?_⟩
    unfold modifyOrder OrderIndex.get
    rw [hi]
  | some e =>
    obtain ⟨br, n, hn, hid, rfl⟩ := hb.index request.orderId e hi
    refine .inr ⟨br, n, hn, hid, rfl, ?_⟩
    have hs : Branch.ofSide (modified n.order request).side = br := (hb.resting br n hn).2.2
    unfold modifyOrder OrderIndex.get
    rw [hi]
    simp only [hb.deref_eq hn, eraseEntry_eq hb hn, Option.bind_eq_bind, Option.bind_some]
    rw [submitOrderInternal_eq, hs]
    unfold without
    rw [setLevels_orderIndex, hid]

theorem queryOrder_cases (id : OrderID) : b.queryOrder id = some none ∧ b.orderIndex id = none ∨
    ∃ br, ∃ n ∈ b.nodes br, n.order.orderId = id ∧ b.queryOrder id = some (some n.order) := by
  unfold queryOrder OrderIndex.get
  cases hi : b.orderIndex id with
  | none => exact .inl ⟨rfl, rfl⟩
  | some e =>
    obtain ⟨br, n, hn, rfl, rfl⟩ := hb.index id e hi
    exact .inr ⟨br, n, hn, rfl, by simp [hb.deref_eq hn]⟩

end CancelModify

end BookState

/-! ## The class -/

/-- An `OrderBook`: its memory together with the class invariant. -/
structure OrderBook extends BookState where
  wf : toBookState.WF

namespace OrderBook

/-- What an operation on a book leaves behind. -/
structure Effect where
  book : OrderBook
  result : MatchResult
  env : Env

def init (symbol : Symbol) : OrderBook := ⟨.init symbol, BookState.init_wf symbol⟩

/-- `submitOrder` under the class invariant. -/
def submit (b : OrderBook) (order : Order) (env : Env) : Effect :=
  let o := b.toBookState.submitOrder order env
  ⟨⟨o.book, BookState.submitOrderInternal_wf order {} env b.wf⟩, o.result, o.env⟩

theorem cancelOrder_defined (b : OrderBook) (id : OrderID) (env : Env) :
    ∃ r, b.toBookState.cancelOrder id {} env = some r ∧ r.2.book.WF := by
  rcases BookState.cancelOrder_cases b.wf id {} env with ⟨-, h⟩ | ⟨br, n, hn, -, -, h⟩
  · exact ⟨_, h, b.wf⟩
  · exact ⟨_, h, BookState.without_wf b.wf hn⟩

theorem modifyOrder_defined (b : OrderBook) (request : ModifyRequest) (env : Env) :
    ∃ r, b.toBookState.modifyOrder request {} env = some r ∧ r.2.book.WF := by
  rcases BookState.modifyOrder_cases b.wf request {} env with ⟨-, h⟩ | ⟨br, n, hn, -, -, h⟩
  · exact ⟨_, h, b.wf⟩
  · exact ⟨_, h, BookState.submitBranch_wf _ _ _ (BookState.without_wf b.wf hn) (b.wf.resting br n hn).2.2⟩

/-- The result of an operation that is defined on every book. -/
def ofDefined {x : Option (Bool × Outcome)} (h : ∃ r, x = some r ∧ r.2.book.WF) : Effect :=
  let o := (x.get (by obtain ⟨r, hr, -⟩ := h; rw [hr]; rfl)).2
  ⟨⟨o.book, by
    obtain ⟨r, hr, hw⟩ := h
    subst hr
    exact hw⟩, o.result, o.env⟩

theorem ofDefined_eq {x : Option (Bool × Outcome)} (h : ∃ r, x = some r ∧ r.2.book.WF) {ok : Bool} {o : Outcome}
    (hx : x = some (ok, o)) :
    (ofDefined h).book.toBookState = o.book ∧ (ofDefined h).result = o.result ∧ (ofDefined h).env = o.env := by
  subst hx
  exact ⟨rfl, rfl, rfl⟩

/-- `cancelOrder` under the class invariant. -/
def cancel (b : OrderBook) (id : OrderID) (env : Env) : Effect := ofDefined (b.cancelOrder_defined id env)

/-- `modifyOrder` under the class invariant. -/
def modify (b : OrderBook) (request : ModifyRequest) (env : Env) : Effect :=
  ofDefined (b.modifyOrder_defined request env)

@[ext] theorem ext {a b : OrderBook} (h : a.toBookState = b.toBookState) : a = b := by
  cases a; cases b; cases h; rfl

end OrderBook

end StockExchange
