/-
Price-time priority over whole runs. Every submission serves a side from its front, so an order that ranks behind
another one, by price or by the time of entry, is not touched as long as the one ahead rests, whatever is submitted,
cancelled or modified meanwhile.
-/
import StockExchange.Engine.Priority

namespace StockExchange

open Greedy

namespace BookState

variable {b : BookState}

/-- `m` ranks strictly before `n` on a side: a better price, or the same one and an earlier entry. -/
def Ahead (br : Branch) (entered : OrderID → ℕ) (m n : Order) : Prop :=
  br.before m.price n.price ∨ m.price = n.price ∧ entered m.orderId < entered n.orderId

instance (br : Branch) (entered : OrderID → ℕ) (m n : Order) : Decidable (Ahead br entered m n) :=
  inferInstanceAs (Decidable (_ ∨ _))

theorem Ranked.sublist {entered : OrderID → ℕ} (h : b.Ranked entered) {br : Branch} {m n : Node} (hm : m ∈ b.nodes br)
    (hn : n ∈ b.nodes br) (hahead : Ahead br entered m.order n.order) : [m, n].Sublist (b.nodes br) := by
  have hback : ¬ Ranks br entered n.order m.order := Ranks.antisymm_of_lt hahead
  refine pair_sublist (h br) hm hn ?_ fun hnm => hback (hnm.imp_right fun h => ⟨h.1, h.2.le⟩)
  rintro rfl
  exact hback (.inr ⟨rfl, Nat.le_refl _⟩)

/-- A submission does not touch what stands behind an order that rests after it. -/
theorem shielded_submitBranch (hb : b.WF) (hu : b.IdsOk) {order : Order} {br' : Branch}
    (hside : Branch.ofSide order.side = br') (hfresh : ¬ b.Rests order.orderId) (result : MatchResult) (env : Env)
    {br : Branch} {m n : Node} (hmn : [m, n].Sublist (b.nodes br))
    (hrests : (b.submitBranch br' order result env).book.Rests m.order.orderId) :
    n ∈ (b.submitBranch br' order result env).book.nodes br := by
  subst hside
  have hm : m ∈ b.nodes br := hmn.subset (by simp)
  have hn : n ∈ b.nodes br := hmn.subset (by simp)
  rcases (Branch.ofSide order.side).eq_or_other br with rfl | rfl
  · exact (mem_submitBranch hb order result env).2 (.inl hn)
  · -- the order ahead is still in the index, so it was not used up
    have hkept : m ∉ emptied Node.size order.remainingQuantity (b.eligible (Branch.ofSide order.side) order) := by
      intro hmem
      obtain ⟨e, he⟩ := (rests_iff (submitBranch_wf order result env hb rfl)
        (submitBranch_idsOk order result env hb hu hfresh) _).1 hrests
      rw [submitBranch_orderIndex hb, if_neg, if_pos (List.mem_map_of_mem hmem)] at he
      · cases he
      · rintro ⟨hid, -⟩
        exact hfresh ⟨_, m, hm, hid⟩
    rw [submitBranch_nodes_other hb]
    rw [← eligible_append order (hb.levels _)] at hmn
    rcases pair_sublist_append hmn with hmn | hn
    · exact List.mem_append_left _ (mem_leftover_of_ahead Node.reduce hmn hkept)
    · exact List.mem_append_right _ hn

/-- Taking one order out of the book does not disturb two others. -/
theorem sublist_without (hb : b.WF) {br br' : Branch} {k m n : Node} (hk : k ∈ b.nodes br')
    (hmn : [m, n].Sublist (b.nodes br)) (hm : k.order.orderId ≠ m.order.orderId)
    (hn : k.order.orderId ≠ n.order.orderId) : [m, n].Sublist ((b.without br' k).nodes br) := by
  rcases br'.eq_or_other br with rfl | rfl
  · have haddr : ∀ p ∈ [m, n], p.addr ≠ k.addr := by
      intro p hp ha
      obtain rfl := (hb.node_eq (hmn.subset hp) hk ha).2
      simp only [List.mem_cons, List.not_mem_nil, or_false] at hp
      rcases hp with rfl | rfl
      · exact hm rfl
      · exact hn rfl
    have hfilter : [m, n].filter (fun p => p.addr ≠ k.addr) = [m, n] := by
      simpa using haddr
    rw [without_nodes hb hk, ← hfilter]
    exact hmn.filter _
  · rwa [without_nodes_other]

end BookState

/-- The operation takes an order with this id out of the book. -/
def Op.targets (id : OrderID) : Op → Bool
  | .submit _ => false
  | .cancel i => i = id
  | .modify request => request.orderId = id

/-- An operation that leaves two orders alone does not touch the one behind as long as the one ahead rests. -/
theorem OrderBook.shielded_apply {b : OrderBook} (hu : b.IdsOk) (op : Op) (env : Env)
    (hfresh : ∀ order, op = .submit order → ¬ b.Rests order.orderId) {br : Branch} {m n : Node}
    (hmn : [m, n].Sublist (b.nodes br)) (hm : op.targets m.order.orderId = false) (hn : op.targets n.order.orderId = false)
    (hrests : (b.apply op env).book.Rests m.order.orderId) : n ∈ (b.apply op env).book.nodes br := by
  have hn' : n ∈ b.nodes br := hmn.subset (by simp)
  obtain ⟨o, ho, hbook, -, -⟩ := b.applies op env
  rw [hbook] at hrests ⊢
  cases ho with
  | submit order => exact BookState.shielded_submitBranch b.wf hu rfl (hfresh order rfl) {} env hmn hrests
  | cancelMiss id hi => exact hn'
  | cancel br' k hk hi =>
    exact (BookState.sublist_without b.wf hk hmn (of_decide_eq_false hm) (of_decide_eq_false hn)).subset (by simp)
  | modifyMiss request hi => exact hn'
  | modify br' k request hk hid hi =>
    -- the modified order is neither of the two, and is submitted to a book in which both still rest
    have hmn' : [m, n].Sublist ((b.without br' k).nodes br) :=
      BookState.sublist_without b.wf hk hmn (hid ▸ of_decide_eq_false hm) (hid ▸ of_decide_eq_false hn)
    have hshield := BookState.shielded_submitBranch (BookState.without_wf b.wf hk) (BookState.without_idsOk b.wf hu hk)
      (b.wf.modified_side hk request) (BookState.not_rests_without b.wf hu hk) {} env hmn'
    exact hshield hrests

/-! ## Runs -/

theorem lastEntry_append (ops later : List Op) (id : OrderID) (h : ∀ op ∈ later, op.enters id = false) :
    lastEntry (ops ++ later) id = lastEntry ops id := by
  induction later using List.reverseRecOn with
  | nil => rw [List.append_nil]
  | append_singleton later op ih =>
    rw [← List.append_assoc, lastEntry_snoc, h op (by simp)]
    exact ih fun op hop => h op (List.mem_append_left _ hop)

/-- An operation on another order does not move an order to another price or side. -/
theorem OrderBook.apply_place {b : OrderBook} (op : Op) (env : Env) {id : OrderID} {p : Price} {br : Branch}
    (htargets : op.targets id = false) (hfresh : ∀ order, op = .submit order → order.orderId ≠ id)
    (h : ∀ br', ∀ n ∈ b.nodes br', n.order.orderId = id → n.order.price = p ∧ Branch.ofSide n.order.side = br) :
    ∀ br', ∀ n ∈ (b.apply op env).book.nodes br', n.order.orderId = id →
      n.order.price = p ∧ Branch.ofSide n.order.side = br := by
  refine OrderBook.apply_forall (P := fun o => o.orderId = id → o.price = p ∧ Branch.ofSide o.side = br)
    (fun _ _ ho _ => ho) op env ?_ ?_ h
  · intro order horder q _ hid
    exact absurd hid (hfresh order horder)
  · rintro br' n _ request rfl hid _ q _ heq
    exact absurd (hid.symm.trans heq) (of_decide_eq_false htargets)

theorem FreshIds.left {ops later : List Op} (h : FreshIds (ops ++ later)) : FreshIds ops :=
  List.Nodup.sublist ((List.sublist_append_left ops later).filterMap _) h

theorem FreshIds.submit_ne {ops later : List Op} (h : FreshIds (ops ++ later)) {id : OrderID} (hid : id ∈ submittedIds ops)
    {order : Order} (horder : .submit order ∈ later) : order.orderId ≠ id := by
  rintro rfl
  unfold FreshIds submittedIds at h
  rw [List.filterMap_append] at h
  exact (List.nodup_append.1 h).2.2 _ hid _ (List.mem_filterMap.2 ⟨_, horder, rfl⟩) rfl

theorem FreshIds.lastEntry_eq {ops later : List Op} (h : FreshIds (ops ++ later)) {id : OrderID}
    (hid : id ∈ submittedIds ops) (htargets : ∀ op ∈ later, op.targets id = false) :
    lastEntry (ops ++ later) id = lastEntry ops id := by
  refine lastEntry_append ops later id fun op hop => ?_
  cases op with
  | submit order => exact decide_eq_false (h.submit_ne hid hop)
  | cancel i => rfl
  | modify request => exact htargets _ hop

section Shielded

variable (symbol : Symbol) (env : Env) (ops later : List Op) (hfresh : FreshIds (ops ++ later)) (br : Branch) (m n : Node)

include hfresh

/-- An order that no later operation names keeps its price and its side as long as it rests. -/
theorem run_place (hm : m ∈ (run symbol env ops).book.nodes br)
    (hops : ∀ op ∈ later, op.targets m.order.orderId = false) :
    ∀ br', ∀ k ∈ (run symbol env (ops ++ later)).book.nodes br', k.order.orderId = m.order.orderId →
      k.order.price = m.order.price ∧ Branch.ofSide k.order.side = br := by
  obtain ⟨hu, hsub⟩ := run_idsOk symbol env ops hfresh.left
  have hid : m.order.orderId ∈ submittedIds ops := hsub _ ⟨br, m, hm, rfl⟩
  induction later using List.reverseRecOn with
  | nil =>
    intro br' k hk heq
    rw [List.append_nil] at hk
    obtain ⟨rfl, rfl⟩ := hu.node_eq hk hm heq
    exact ⟨rfl, ((run symbol env ops).book.wf.resting br' k hm).2.2⟩
  | append_singleton later op ih =>
    have hne : ∀ order, op = .submit order → order.orderId ≠ m.order.orderId := by
      rintro order rfl
      exact hfresh.submit_ne hid (by simp)
    rw [← List.append_assoc] at hfresh ⊢
    rw [run_snoc]
    have hbefore := ih hfresh.init fun op hop => hops op (List.mem_append_left _ hop)
    exact OrderBook.apply_place op _ (hops op (by simp)) hne hbefore

/-- An order is not touched as long as one that ranks before it rests, whatever the operations on other orders are. -/
theorem no_overtaking (hm : m ∈ (run symbol env ops).book.nodes br) (hn : n ∈ (run symbol env ops).book.nodes br)
    (hahead : BookState.Ahead br (lastEntry ops) m.order n.order)
    (hops : ∀ op ∈ later, op.targets m.order.orderId = false ∧ op.targets n.order.orderId = false)
    (hrests : (run symbol env (ops ++ later)).book.Rests m.order.orderId) :
    n ∈ (run symbol env (ops ++ later)).book.nodes br := by
  obtain ⟨hu, hsub⟩ := run_idsOk symbol env ops hfresh.left
  have hmid : m.order.orderId ∈ submittedIds ops := hsub _ ⟨br, m, hm, rfl⟩
  have hnid : n.order.orderId ∈ submittedIds ops := hsub _ ⟨br, n, hn, rfl⟩
  induction later using List.reverseRecOn with
  | nil => rwa [List.append_nil]
  | append_singleton later op ih =>
    have hlater : ∀ op ∈ later, op.targets m.order.orderId = false ∧ op.targets n.order.orderId = false :=
      fun op hop => hops op (List.mem_append_left _ hop)
    obtain ⟨hopm, hopn⟩ := hops op (by simp)
    have hnew : ∀ order, op = .submit order → order.orderId ≠ m.order.orderId := by
      rintro order rfl
      exact hfresh.submit_ne hmid (by simp)
    rw [← List.append_assoc] at hfresh hrests ⊢
    rw [run_snoc] at hrests ⊢
    obtain ⟨hu', hsub'⟩ := run_idsOk symbol env (ops ++ later) hfresh.init
    have hunused : ∀ order, op = .submit order → ¬ (run symbol env (ops ++ later)).book.Rests order.orderId := by
      rintro order rfl hr
      exact hfresh.last (hsub' _ hr)
    -- the order ahead rested before the operation, where it was, so the ranking puts it in front
    have hbefore : (run symbol env (ops ++ later)).book.Rests m.order.orderId := by
      refine ((OrderBook.apply_idsOk _ op _ hu' hunused).2 _ hrests).resolve_right fun hmem => ?_
      obtain ⟨o, ho, hid⟩ := List.mem_filterMap.1 hmem
      obtain rfl := List.mem_singleton.1 ho
      cases o with
      | submit order => exact hnew order rfl (Option.some.inj hid)
      | cancel i => cases hid
      | modify request => cases hid
    have hmem := ih hfresh.init hlater hbefore
    obtain ⟨br', k, hk, hkid⟩ := hbefore
    have hplace := run_place symbol env ops later hfresh.init br m hm fun op hop => (hlater op hop).1
    obtain ⟨hprice, hside⟩ := hplace br' k hk hkid
    obtain rfl : br' = br := ((run symbol env (ops ++ later)).book.wf.resting br' k hk).2.2.symm.trans hside
    have hahead' : BookState.Ahead br' (lastEntry (ops ++ later)) k.order n.order := by
      unfold BookState.Ahead at hahead ⊢
      rw [hprice, hkid, hfresh.init.lastEntry_eq hmid fun op hop => (hlater op hop).1,
        hfresh.init.lastEntry_eq hnid fun op hop => (hlater op hop).2]
      exact hahead
    have hkn := (run_ranked symbol env (ops ++ later) hfresh.init).sublist hk hmem hahead'
    rw [← hkid] at hopm hrests
    exact OrderBook.shielded_apply hu' op _ hunused hkn hopm hopn hrests

end Shielded

/-- Two asks of one price. -/
def behind : List Op :=
  [.submit { orderId := 1, side := .sell, price := 10, quantity := 5, remainingQuantity := 5 },
    .submit { orderId := 2, side := .sell, price := 10, quantity := 4, remainingQuantity := 4 }]

/-- The second ask keeps all of its 4 while the first one is filled by 3 and a better one comes and goes. -/
theorem no_overtaking_behind :
    ⟨1, { orderId := 2, side := .sell, price := 10, quantity := 4, remainingQuantity := 4 }⟩ ∈
      (run [] ⟨1, fun _ => 0, 0⟩ (behind ++
        [.submit { orderId := 3, side := .sell, price := 9, quantity := 1, remainingQuantity := 1 },
          .submit { orderId := 4, price := 10, quantity := 4, remainingQuantity := 4 }])).book.nodes .sell := by
  refine no_overtaking [] ⟨1, fun _ => 0, 0⟩ behind _ (by decide) .sell
    ⟨0, { orderId := 1, side := .sell, price := 10, quantity := 5, remainingQuantity := 5 }⟩ _ (by decide) (by decide)
    (by decide) (by decide) ?_
  exact ⟨.sell, ⟨0, { orderId := 1, side := .sell, price := 10, quantity := 5, remainingQuantity := 2 }⟩, by decide, rfl⟩

end StockExchange
