/-
Price-time priority. The reference matcher works on a flat, unordered collection of resting orders:
it ranks them by best price and then by the operation with which they last entered the book, keeps
those the incoming order accepts, and serves the incoming quantity from the front. In runs with
fresh ids every queue of the book is in entry order (`run_ranked`), so `submitOrder` does what the
reference matcher does (`price_time_priority`).
-/
import StockExchange.Engine.Events
import Mathlib.Data.List.Sort

namespace StockExchange

open Greedy

/-! ## The reference matcher -/

/-- The order of the reference list: better price first, and within a price earlier entry first. -/
def Ranks (br : Branch) (entered : OrderID → ℕ) (m n : Order) : Prop :=
  br.before m.price n.price ∨ m.price = n.price ∧ entered m.orderId ≤ entered n.orderId

instance (br : Branch) (entered : OrderID → ℕ) : DecidableRel (Ranks br entered) :=
  fun m n => inferInstanceAs (Decidable (br.before m.price n.price ∨ m.price = n.price ∧
    entered m.orderId ≤ entered n.orderId))

/-- The resting orders `resting` of the side `br`, in any order, ranked by price and time. -/
def ranking (br : Branch) (entered : OrderID → ℕ) (resting : List Order) : List Order :=
  resting.insertionSort (Ranks br entered)

/-- Greedy takes from the front: the smaller of the rest of the demand and what the order has left. -/
def allot : ℕ → List Order → List (Order × ℕ)
  | _, [] => []
  | q, o :: l =>
    if q = 0 then [] else (o, min q o.remainingQuantity.toNat) :: allot (q - min q o.remainingQuantity.toNat) l

/-- The operation lets an order with this id enter the book. -/
def Op.enters (id : OrderID) : Op → Bool
  | .submit order => order.orderId = id
  | .modify request => request.orderId = id
  | .cancel _ => false

/-- The number of the last operation that submits or modifies the id, counted from one. -/
def lastEntry (ops : List Op) (id : OrderID) : ℕ := ops.length - ops.reverse.findIdx (Op.enters id)

theorem lastEntry_le (ops : List Op) (id : OrderID) : lastEntry ops id ≤ ops.length := by
  unfold lastEntry
  omega

theorem lastEntry_snoc (ops : List Op) (op : Op) (id : OrderID) :
    lastEntry (ops ++ [op]) id = if op.enters id then ops.length + 1 else lastEntry ops id := by
  unfold lastEntry
  rw [List.reverse_append, List.reverse_singleton, List.singleton_append, List.findIdx_cons, List.length_append,
    List.length_singleton]
  cases op.enters id
  · simp
  · simp

instance (br : Branch) (entered : OrderID → ℕ) : Std.Total (Ranks br entered) where
  total m n := by
    rcases trichotomous_of br.before m.price n.price with h | h | h
    · exact .inl (.inl h)
    · rcases Nat.le_total (entered m.orderId) (entered n.orderId) with ht | ht
      · exact .inl (.inr ⟨h, ht⟩)
      · exact .inr (.inr ⟨h.symm, ht⟩)
    · exact .inr (.inl h)

instance (br : Branch) (entered : OrderID → ℕ) : IsTrans Order (Ranks br entered) where
  trans m n k hmn hnk := by
    rcases hmn with hmn | ⟨hp, ht⟩
    · rcases hnk with hnk | ⟨hp, -⟩
      · exact .inl (IsTrans.trans _ _ _ hmn hnk)
      · exact .inl (by rw [← hp]; exact hmn)
    · rcases hnk with hnk | ⟨hp', ht'⟩
      · exact .inl (by rw [hp]; exact hnk)
      · exact .inr ⟨hp.trans hp', ht.trans ht'⟩

/-! ## The queues are in entry order -/

namespace BookState

/-- Along a side of the book the price gets worse or, within a price, the entry later. -/
def Ranked (b : BookState) (entered : OrderID → ℕ) : Prop :=
  ∀ br, (b.nodes br).Pairwise fun m n => br.before m.order.price n.order.price ∨
    m.order.price = n.order.price ∧ entered m.order.orderId < entered n.order.orderId

section Ranked

variable {b : BookState} {entered entered' : OrderID → ℕ}

theorem Ranked.congr (h : b.Ranked entered)
    (hsame : ∀ br, ∀ n ∈ b.nodes br, entered' n.order.orderId = entered n.order.orderId) : b.Ranked entered' := by
  intro br
  refine (h br).imp_of_mem ?_
  intro m n hm hn hmn
  rw [hsame br m hm, hsame br n hn]
  exact hmn

/-- Ranking only reads prices and ids, so it survives any thinning of the sides by these. -/
theorem Ranked.of_sublist {b' : BookState} (h : b.Ranked entered)
    (hsub : ∀ br, ((b'.nodes br).map fun n => (n.order.price, n.order.orderId)).Sublist
      ((b.nodes br).map fun n => (n.order.price, n.order.orderId))) : b'.Ranked entered := by
  intro br
  let R : Price × OrderID → Price × OrderID → Prop :=
    fun x y => br.before x.1 y.1 ∨ x.1 = y.1 ∧ entered x.2 < entered y.2
  have hmap : ((b.nodes br).map fun n => (n.order.price, n.order.orderId)).Pairwise R :=
    List.pairwise_map.2 (h br)
  exact List.pairwise_map.1 (hmap.sublist (hsub br))

theorem sweep_ranked (hb : b.WF) (br : Branch) (order : Order) (result : MatchResult) (env : Env)
    (h : b.Ranked entered) : (b.sweep br order result env).1.Ranked entered := by
  refine h.of_sublist (Branch.forall_of br ?_ ?_)
  · rw [sweep_nodes]
  · rw [sweep_nodes_other order result env (hb.levels _) (hb.sizes _), ← eligible_append order (hb.levels _),
      List.map_append, List.map_append, map_leftover Node.reduce (fun n => (n.order.price, n.order.orderId))
        (fun _ _ => rfl) order.remainingQuantity (b.eligible br order)]
    exact (List.sublist_append_right _ _).append_right _

theorem without_ranked (hb : b.WF) {br : Branch} {n : Node} (hn : n ∈ b.nodes br) (h : b.Ranked entered) :
    (b.without br n).Ranked entered := by
  refine h.of_sublist (Branch.forall_of br ?_ ?_)
  · rw [without_nodes hb hn]
    exact List.filter_sublist.map _
  · rw [without_nodes_other]

/-- An order that enters after all others goes behind those of its own and better prices. -/
theorem rest_ranked (hb : b.WF) {br : Branch} {order : Order} (h : b.Ranked entered)
    (hlast : ∀ n ∈ b.nodes br, entered n.order.orderId < entered order.orderId) :
    (b.rest br order).Ranked entered := by
  refine Branch.forall_of br ?_ ?_
  · -- a worse price than the new order's is the only thing that ranks behind it
    unfold rest nodes
    rw [levels_mk_index_next, setLevels_levels]
    refine OrderedMap.flat_pushBack_pairwise (fun n : Node => n.order.price) _
      (fun e he => (hb.levels br e he).2) (h br) ?_ ?_ ?_
    · intro n hn hk
      rcases trichotomous_of br.before n.order.price order.price with hp | hp | hp
      · exact .inl hp
      · exact .inr ⟨hp, hlast n hn⟩
      · exact absurd hp hk
    · intro n _ hk
      exact .inl hk
    · intro m _ n _ hm hn
      rcases trichotomous_of br.before m.order.price order.price with hp | hp | hp
      · exact .inl (IsTrans.trans _ _ _ hp hn)
      · exact .inl (by rw [hp]; exact hn)
      · exact absurd hp hm
  · rw [rest_nodes_other]
    exact h br.other

theorem submitBranch_ranked (hb : b.WF) {br : Branch} (order : Order) (result : MatchResult) (env : Env)
    (h : b.Ranked entered) (hlast : ∀ n ∈ b.nodes br, entered n.order.orderId < entered order.orderId) :
    (b.submitBranch br order result env).book.Ranked entered := by
  rw [submitBranch_book]
  have hs := sweep_ranked hb br order result env h
  split
  · refine rest_ranked (sweep_wf hb order result env) hs ?_
    rw [sweep_nodes, sweep_incoming hb]
    exact hlast
  · exact hs

end Ranked

end BookState

/-- In a run with fresh ids every side of the book is ranked by price and last entry. -/
theorem run_ranked (symbol : Symbol) (env : Env) (ops : List Op) (h : FreshIds ops) :
    (run symbol env ops).book.Ranked (lastEntry ops) := by
  refine run_induction (P := fun ops r => FreshIds ops → r.book.Ranked (lastEntry ops)) ?_ ?_ ops h
  · intro _ br
    rw [show (Run.start symbol env).book.nodes br = [] from BookState.init_nodes symbol br]
    exact .nil
  · intro ops op ih h
    have ih := ih h.init
    obtain ⟨hu, hsub⟩ := run_idsOk symbol env ops h.init
    have hwf := (run symbol env ops).book.wf
    obtain ⟨o, ho, hbook, -, -⟩ := (run symbol env ops).book.applies op (run symbol env ops).env
    show ((run symbol env ops).book.apply op (run symbol env ops).env).book.Ranked _
    rw [hbook]
    -- only the entry time of the operation's own id changes
    have hsame : ∀ id, op.enters id = false → lastEntry (ops ++ [op]) id = lastEntry ops id := by
      intro id hid
      rw [lastEntry_snoc, hid]
      rfl
    have hlater : ∀ id id', op.enters id = false → op.enters id' = true →
        lastEntry (ops ++ [op]) id < lastEntry (ops ++ [op]) id' := by
      intro id id' hid hid'
      rw [hsame id hid, lastEntry_snoc, hid', if_pos rfl]
      exact Nat.lt_succ_of_le (lastEntry_le ops id)
    cases ho with
    | submit order =>
      have hother : ∀ br, ∀ n ∈ (run symbol env ops).book.nodes br,
          (Op.submit order).enters n.order.orderId = false := by
        intro br n hn
        refine decide_eq_false fun heq => h.last ?_
        rw [heq]
        exact hsub _ ⟨br, n, hn, rfl⟩
      refine BookState.submitBranch_ranked hwf order {} _ (ih.congr fun br n hn => hsame _ (hother br n hn)) ?_
      exact fun n hn => hlater _ _ (hother _ n hn) (decide_eq_true rfl)
    | cancelMiss id hi => exact ih.congr fun br n hn => hsame _ rfl
    | cancel br n hn hi => exact (BookState.without_ranked hwf hn ih).congr fun br n hn => hsame _ rfl
    | modifyMiss request hi =>
      refine ih.congr fun br n hn => hsame _ (decide_eq_false fun heq => ?_)
      rw [heq, hu.indexed br n hn] at hi
      cases hi
    | modify br n request hn hid hi =>
      -- the modified order leaves and enters again, behind all others of its price
      have hother : ∀ br', ∀ m ∈ ((run symbol env ops).book.without br n).nodes br',
          (Op.modify request).enters m.order.orderId = false := by
        intro br' m hm
        refine decide_eq_false fun heq => ?_
        exact ((BookState.rests_without hwf hu hn).1 ⟨br', m, hm, rfl⟩).2 (heq.symm.trans hid.symm)
      refine BookState.submitBranch_ranked (BookState.without_wf hwf hn) _ {} _
        ((BookState.without_ranked hwf hn ih).congr fun br' m hm => hsame _ (hother br' m hm)) ?_
      exact fun m hm => hlater _ _ (hother _ m hm) (decide_eq_true hid.symm)

/-! ## The refinement -/

theorem Ranks.antisymm_of_lt {br : Branch} {entered : OrderID → ℕ} {m n : Order}
    (h : br.before m.price n.price ∨ m.price = n.price ∧ entered m.orderId < entered n.orderId) :
    ¬ Ranks br entered n m := by
  have hirr : ∀ p, ¬ br.before p p := fun p => Std.Irrefl.irrefl p
  rintro (hnm | ⟨hp, ht⟩)
  · rcases h with h | ⟨hp, -⟩
    · exact hirr _ (IsTrans.trans _ _ _ h hnm)
    · rw [hp] at hnm
      exact hirr _ hnm
  · rcases h with h | ⟨-, ht'⟩
    · rw [hp] at h
      exact hirr _ h
    · omega

/-- Ranking any listing of a ranked side gives the side itself. -/
theorem ranking_eq {b : BookState} {entered : OrderID → ℕ} (h : b.Ranked entered) {br : Branch} {resting : List Order}
    (hperm : resting.Perm ((b.nodes br).map Node.order)) :
    ranking br entered resting = (b.nodes br).map Node.order := by
  have hsorted : ((b.nodes br).map Node.order).Pairwise fun m n => br.before m.price n.price ∨
      m.price = n.price ∧ entered m.orderId < entered n.orderId := List.pairwise_map.2 (h br)
  have hanti : ∀ ⦃m⦄, m ∈ (b.nodes br).map Node.order → ∀ ⦃n⦄, n ∈ (b.nodes br).map Node.order →
      Ranks br entered m n → Ranks br entered n m → m = n := by
    refine List.Pairwise.forall_of_forall_of_flip (fun _ _ _ _ => rfl) (hsorted.imp ?_) (hsorted.imp ?_)
    · exact fun hmn _ hnm => absurd hnm (Ranks.antisymm_of_lt hmn)
    · exact fun hmn hnm _ => absurd hnm (Ranks.antisymm_of_lt hmn)
  refine List.Perm.eq_of_pairwise (fun m n hm hn => hanti ?_ hn) (List.pairwise_insertionSort _ _)
    (hsorted.imp fun hmn => hmn.imp_right fun ⟨hp, ht⟩ => ⟨hp, ht.le⟩) ((List.perm_insertionSort _ _).trans hperm)
  exact hperm.mem_iff.1 ((List.perm_insertionSort _ _).mem_iff.1 hm)

theorem allot_eq_takes : ∀ (q : ℕ) (l : List Order), allot q l = takes (fun o => o.remainingQuantity.toNat) q l
  | _, [] => rfl
  | q, o :: l => by
    unfold allot takes
    split
    · rfl
    · split
      · rename_i hle
        rw [Nat.min_eq_right hle, allot_eq_takes]
      · rename_i hle
        rw [Nat.min_eq_left (Nat.le_of_not_le hle), Nat.sub_self, allot_eq_takes]
        cases l <;> rfl

theorem allot_eq_taken (b : BookState) (order : Order) :
    allot order.remainingQuantity.toNat ((b.eligible (Branch.ofSide order.side) order).map Node.order) =
      (b.taken order).map fun t => (t.1.order, t.2.toNat) := by
  rw [allot_eq_takes, (takes_comp Node.order _ _ _).1]
  show (takes (fun n : Node => n.size.toNat) _ _).map _ = _
  rw [(BookState.takes_toNat _ _).1, List.map_map]
  rfl

/-- The part of the ranking that the incoming order accepts. -/
def acceptable (entered : OrderID → ℕ) (order : Order) (resting : List Order) : List Order :=
  (ranking (Branch.ofSide order.side).other entered resting).filter fun o =>
    (Branch.ofSide order.side).accepts order o.price

/-- Total of the remaining quantities. -/
def totalRemaining (l : List Order) : ℕ := (l.map fun o => o.remainingQuantity.toNat).sum

/-- Each order with all that it has left. -/
def wholly (l : List Order) : List (Order × ℕ) := l.map fun o => (o, o.remainingQuantity.toNat)

/-- `submitOrder` of `order` turned `before` into `after` with `fills`, as the reference matcher does
from a listing `resting` of the opposite side. -/
structure PriceTime (entered : OrderID → ℕ) (order : Order) (resting : List Order) (before after : BookState)
    (fills : List Fill) : Prop where
  /-- The fills are, in order, the greedy takes. -/
  greedy : List.Forall₂ (fun t fill =>
      fill.buyOrderId = ((Branch.ofSide order.side).buyOf order t.1).orderId ∧
        fill.sellOrderId = ((Branch.ofSide order.side).sellOf order t.1).orderId ∧ fill.quantity.toNat = t.2)
    (allot order.remainingQuantity.toNat (acceptable entered order resting)) fills
  positive : ∀ fill ∈ fills, 0 < fill.quantity
  total : (fills.map fun fill => fill.quantity.toNat).sum =
    min order.remainingQuantity.toNat (totalRemaining (acceptable entered order resting))
  /-- The touched orders are at the front of the ranking. Those taken whole are removed; the last one stays with less
  if it is taken in part, by as much as is taken of it; the others stay as they are. -/
  opposite : ∃ removed rest, ranking (Branch.ofSide order.side).other entered resting = removed ++ rest ∧
    (allot order.remainingQuantity.toNat (acceptable entered order resting) = wholly removed ∧
        (after.nodes (Branch.ofSide order.side).other).map Node.order = rest ∨
      ∃ o r rest', rest = o :: rest' ∧ 0 < r ∧ r < o.remainingQuantity ∧
        allot order.remainingQuantity.toNat (acceptable entered order resting) = wholly removed ++ [(o, r.toNat)] ∧
        (after.nodes (Branch.ofSide order.side).other).map Node.order = o.reduce r :: rest')
  /-- A `Limit` remainder goes to the tail of the queue of its price. -/
  limitRests : order.type = OrderType.limit →
    totalRemaining (acceptable entered order resting) < order.remainingQuantity.toNat →
      ∃ addr r, r.toNat = order.remainingQuantity.toNat - totalRemaining (acceptable entered order resting) ∧
        ∀ p, (after.levels (Branch.ofSide order.side)).find? p =
          if p = order.price then some (((before.levels (Branch.ofSide order.side)).find? p).getD [] ++
            [⟨addr, { order with remainingQuantity := r }⟩])
          else (before.levels (Branch.ofSide order.side)).find? p
  /-- Nothing else ever rests. -/
  nothingRests : (order.type ≠ OrderType.limit ∨
      order.remainingQuantity.toNat ≤ totalRemaining (acceptable entered order resting)) →
    after.levels (Branch.ofSide order.side) = before.levels (Branch.ofSide order.side)

section Submit

variable {b : OrderBook} {order : Order} {env : Env}

theorem submit_fills : List.Forall₂ (OrderBook.FillOf order) (b.taken order) (b.submit order env).result.fills := by
  have h : b.submission (.submit order) = some (b.toBookState, order) := rfl
  exact (OrderBook.apply_fills env h).2.imp fun _ _ hf => hf.1

theorem submit_quantities : (b.submit order env).result.fills.map (fun fill => fill.quantity.toNat) =
    (allot order.remainingQuantity.toNat ((b.eligible (Branch.ofSide order.side) order).map Node.order)).map
      Prod.snd := by
  rw [allot_eq_taken, List.map_map, eq_comm, ← List.forall₂_eq_eq_eq, List.forall₂_map_left_iff,
    List.forall₂_map_right_iff]
  exact submit_fills.imp fun t fill hf => by rw [hf.2.2]; rfl

theorem submit_positive : ∀ fill ∈ (b.submit order env).result.fills, 0 < fill.quantity := by
  intro fill hfill
  have hmem : fill.quantity.toNat ∈ (b.submit order env).result.fills.map fun fill => fill.quantity.toNat :=
    List.mem_map_of_mem hfill
  rw [submit_quantities, allot_eq_takes] at hmem
  obtain ⟨t, ht, hq⟩ := List.mem_map.1 hmem
  have hsize : ∀ o ∈ (b.eligible (Branch.ofSide order.side) order).map Node.order, 0 < o.remainingQuantity.toNat := by
    intro o ho
    obtain ⟨n, hn, rfl⟩ := List.mem_map.1 ho
    have hne := b.wf.sizes _ n (List.mem_filter.1 hn).1
    exact Nat.pos_of_ne_zero fun h0 => hne ((quantity_toNat_eq_zero _).1 h0)
  have hpos := (takes_bounds _ _ hsize t ht).1
  rw [hq] at hpos
  exact UInt32.lt_iff_toNat_lt.2 hpos

theorem submit_total : ((b.submit order env).result.fills.map fun fill => fill.quantity.toNat).sum =
    min order.remainingQuantity.toNat
      (totalRemaining ((b.eligible (Branch.ofSide order.side) order).map Node.order)) := by
  rw [submit_quantities, allot_eq_takes]
  exact takes_sum _ _

theorem remainder_toNat (b : BookState) (order : Order) : (b.remainder order).remainingQuantity.toNat =
    order.remainingQuantity.toNat -
      totalRemaining ((b.eligible (Branch.ofSide order.side) order).map Node.order) := by
  unfold BookState.remainder totalRemaining
  rw [List.map_map, ← (BookState.takes_toNat _ _).2]
  exact unmet_eq _ _

/-- The opposite side after a submission: the orders taken whole are gone from the front, and the next
one has less by what is taken of it. -/
theorem submit_opposite : ∃ removed rest,
    (b.nodes (Branch.ofSide order.side).other).map Node.order = removed ++ rest ∧
    ((b.taken order).map (fun t => (t.1.order, t.2.toNat)) = wholly removed ∧
        ((b.submit order env).book.nodes (Branch.ofSide order.side).other).map Node.order = rest ∨
      ∃ o r rest', rest = o :: rest' ∧ 0 < r ∧ r < o.remainingQuantity ∧
        (b.taken order).map (fun t => (t.1.order, t.2.toNat)) = wholly removed ++ [(o, r.toNat)] ∧
        ((b.submit order env).book.nodes (Branch.ofSide order.side).other).map Node.order = o.reduce r :: rest') := by
  have hnodes : (b.submit order env).book.nodes (Branch.ofSide order.side).other =
      leftover Node.size Node.reduce order.remainingQuantity (b.eligible (Branch.ofSide order.side) order) ++
        b.unreachable (Branch.ofSide order.side) order := by
    rw [OrderBook.submit_book, BookState.submitBranch_nodes_other b.wf]
  obtain ⟨rest, hsplit, hcases⟩ := takes_leftover Node.reduce order.remainingQuantity
    (b.eligible (Branch.ofSide order.side) order)
  refine ⟨(emptied Node.size order.remainingQuantity (b.eligible (Branch.ofSide order.side) order)).map Node.order,
    rest.map Node.order ++ (b.unreachable (Branch.ofSide order.side) order).map Node.order, ?_, ?_⟩
  · rw [← BookState.eligible_append order (b.wf.levels _), List.map_append, hsplit, List.map_append,
      List.append_assoc, ← hsplit]
  · rw [hnodes, List.map_append]
    unfold BookState.taken wholly
    rcases hcases with ⟨htakes, hleft⟩ | ⟨n, r, rest', rfl, htakes, hleft, hle, hr, -⟩
    · refine .inl ⟨?_, by rw [hleft]⟩
      rw [htakes, List.map_map, List.map_map]
      rfl
    · refine .inr ⟨n.order, r, rest'.map Node.order ++ (b.unreachable _ order).map Node.order, rfl,
        quantity_pos.2 hr, UInt32.not_le.1 hle, ?_, by rw [hleft]; rfl⟩
      rw [htakes, List.map_append, List.map_map, List.map_map]
      rfl

/-- The submitted order's own side: a `Limit` remainder is pushed back at its price. -/
theorem submit_levels : (b.submit order env).book.levels (Branch.ofSide order.side) =
    if (b.remainder order).remainingQuantity ≠ 0 ∧ order.type = OrderType.limit then
      (b.levels (Branch.ofSide order.side)).pushBack order.price ⟨b.nextNode, b.remainder order⟩
    else b.levels (Branch.ofSide order.side) := by
  rw [OrderBook.submit_book, BookState.submitBranch_rests b.wf]
  split
  · unfold BookState.rest
    rw [BookState.levels_mk_index_next, BookState.setLevels_levels, BookState.sweep_levels, BookState.sweep_nextNode]
    rfl
  · rw [BookState.sweep_levels]

end Submit

theorem submit_priceTime {b : OrderBook} {entered : OrderID → ℕ} (hrank : b.Ranked entered) (order : Order)
    (resting : List Order) (env : Env)
    (hresting : resting.Perm ((b.nodes (Branch.ofSide order.side).other).map Node.order)) :
    PriceTime entered order resting b.toBookState (b.submit order env).book.toBookState
      (b.submit order env).result.fills := by
  have hranking := ranking_eq hrank hresting
  have hacc : acceptable entered order resting = (b.eligible (Branch.ofSide order.side) order).map Node.order := by
    unfold acceptable
    rw [hranking, List.filter_map]
    rfl
  have hrem := remainder_toNat b.toBookState order
  refine ⟨?_, submit_positive, ?_, ?_, ?_, ?_⟩
  · rw [hacc, allot_eq_taken, List.forall₂_map_left_iff]
    exact submit_fills.imp fun t fill hf => ⟨hf.1, hf.2.1, by rw [hf.2.2]⟩
  · rw [hacc]
    exact submit_total
  · rw [hacc, hranking, allot_eq_taken]
    exact submit_opposite
  · -- a remainder rests at the back of its level
    intro ht hlt
    rw [hacc] at hlt ⊢
    have hne : (b.remainder order).remainingQuantity ≠ 0 := by
      intro h0
      rw [← quantity_toNat_eq_zero] at h0
      omega
    refine ⟨b.nextNode, (b.remainder order).remainingQuantity, hrem, fun p => ?_⟩
    rw [submit_levels, if_pos ⟨hne, ht⟩, OrderedMap.find?_pushBack]
    split
    · rename_i hp
      rw [hp]
      rfl
    · rfl
  · -- nothing rests of a filled order or of one that is not `Limit`
    intro h
    rw [hacc] at h
    rw [submit_levels, if_neg]
    rintro ⟨hne, ht⟩
    rcases h with h | h
    · exact h ht
    · refine hne ((quantity_toNat_eq_zero _).1 ?_)
      omega

/-- On every book reached with fresh ids, `submitOrder` of any order is the reference matcher, whatever
listing of the opposite side that one starts from. -/
theorem price_time_priority (symbol : Symbol) (env env' : Env) (ops : List Op) (hfresh : FreshIds ops) (order : Order)
    (resting : List Order) (hresting : resting.Perm
      (((run symbol env ops).book.nodes (Branch.ofSide order.side).other).map Node.order)) :
    PriceTime (lastEntry ops) order resting (run symbol env ops).book.toBookState
      ((run symbol env ops).book.submit order env').book.toBookState
      ((run symbol env ops).book.submit order env').result.fills :=
  submit_priceTime (run_ranked symbol env ops hfresh) order resting env' hresting

/-- Two asks at one price, of which the first is modified and so falls behind the second. -/
def requeued : List Op :=
  [.submit { orderId := 1, side := .sell, price := 10, quantity := 5, remainingQuantity := 5 },
    .submit { orderId := 2, side := .sell, price := 10, quantity := 4, remainingQuantity := 4 },
    .modify { orderId := 1, price := 10, quantity := 3 }]

/-- A bid for six takes all of the second ask and two of the modified one, which is listed first. -/
theorem price_time_priority_requeued :
    ((run [] ⟨1, fun _ => 0, 0⟩ requeued).book.submit { orderId := 3, price := 11, quantity := 6, remainingQuantity := 6 }
        ⟨1, fun _ => 0, 0⟩).result.fills.map (fun fill => (fill.sellOrderId, fill.quantity)) = [(2, 4), (1, 2)] ∧
      PriceTime (lastEntry requeued) { orderId := 3, price := 11, quantity := 6, remainingQuantity := 6 }
        [{ orderId := 1, side := .sell, price := 10, quantity := 3, remainingQuantity := 3 },
          { orderId := 2, side := .sell, price := 10, quantity := 4, remainingQuantity := 4 }]
        (run [] ⟨1, fun _ => 0, 0⟩ requeued).book.toBookState
        ((run [] ⟨1, fun _ => 0, 0⟩ requeued).book.submit
          { orderId := 3, price := 11, quantity := 6, remainingQuantity := 6 } ⟨1, fun _ => 0, 0⟩).book.toBookState
        ((run [] ⟨1, fun _ => 0, 0⟩ requeued).book.submit
          { orderId := 3, price := 11, quantity := 6, remainingQuantity := 6 } ⟨1, fun _ => 0, 0⟩).result.fills :=
  ⟨by decide, price_time_priority [] _ _ requeued (by decide) _ _ (by decide)⟩

end StockExchange
