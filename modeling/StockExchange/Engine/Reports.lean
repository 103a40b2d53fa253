/-
The reports of a run and the book. A client that keeps the last report of each of its orders sees
an order as open when that report says `New` or `PartiallyFilled`. An operation reports everything
it does to the book, with one exception: a modify to quantity zero removes the order it finds and
reports nothing. So the reports track the book through a run exactly when no such modify finds an
order (`reports_track_book`).
-/
import StockExchange.Engine.Events

namespace StockExchange

open Greedy

/-! ## What a client sees -/

/-- The report leaves the order open. -/
def ExecutionReport.Open (r : ExecutionReport) : Prop := r.status = .new ∨ r.status = .partiallyFilled

instance (r : ExecutionReport) : Decidable r.Open :=
  inferInstanceAs (Decidable (r.status = .new ∨ r.status = .partiallyFilled))

/-- The last report for the id. -/
def lastReport (reports : List ExecutionReport) (id : OrderID) : Option ExecutionReport :=
  (reports.filter fun r => r.orderId = id).getLast?

/-- What a client takes from a report about the order `id` it sees with open quantity `seen`. -/
def see (id : OrderID) (seen : Option Quantity) (r : ExecutionReport) : Option Quantity :=
  if r.orderId = id then (if r.Open then some r.remainingQuantity else none) else seen

/-- A client that folds its reports knows the last one. -/
theorem foldl_see (id : OrderID) : ∀ (reports : List ExecutionReport),
    reports.foldl (see id) none =
      (lastReport reports id).bind fun r => if r.Open then some r.remainingQuantity else none := by
  intro reports
  induction reports using List.reverseRecOn with
  | nil => rfl
  | append_singleton reports r ih =>
    rw [List.foldl_append, ih]
    unfold lastReport see
    by_cases h : r.orderId = id
    · simp [h]
    · simp [h]

/-- The order of the book with this id has this open quantity. -/
def BookState.openQuantity (b : BookState) (id : OrderID) : Option Quantity :=
  match b.queryOrder id with
  | some (some order) => some order.remainingQuantity
  | _ => none

section OpenQuantity

variable {b : BookState} (hb : b.WF)
include hb

theorem openQuantity_of_not_rests {id : OrderID} (h : ¬ b.Rests id) : b.openQuantity id = none := by
  unfold BookState.openQuantity
  rcases BookState.queryOrder_cases hb id with ⟨hq, -⟩ | ⟨br, n, hn, hid, -⟩
  · rw [hq]
  · exact absurd ⟨br, n, hn, hid⟩ h

theorem openQuantity_of_mem (hu : b.IdsOk) {br : Branch} {n : Node} (hn : n ∈ b.nodes br) :
    b.openQuantity n.order.orderId = some n.size := by
  unfold BookState.openQuantity
  rcases BookState.queryOrder_cases hb n.order.orderId with ⟨-, hi⟩ | ⟨br', m, hm, hid, hq⟩
  · rw [hu.indexed br n hn] at hi
    cases hi
  · rw [hq, (hu.node_eq hm hn hid).2]
    rfl

theorem openQuantity_without (hu : b.IdsOk) {br : Branch} {n : Node} (hn : n ∈ b.nodes br) (id : OrderID) :
    (b.without br n).openQuantity id = if id = n.order.orderId then none else b.openQuantity id := by
  have hw := BookState.without_wf hb hn
  have hv := BookState.without_idsOk hb hu hn
  have hrests : (b.without br n).Rests id ↔ b.Rests id ∧ id ≠ n.order.orderId := BookState.rests_without hb hu hn
  split
  · rename_i hid
    exact openQuantity_of_not_rests hw fun h => (hrests.1 h).2 hid
  · rename_i hid
    by_cases hr : b.Rests id
    · obtain ⟨br', m, hm, rfl⟩ := hr
      rw [openQuantity_of_mem hb hu hm]
      rcases br.eq_or_other br' with rfl | rfl
      · exact openQuantity_of_mem hw hv ((BookState.mem_without hb hn).2 ⟨hm, fun h => hid (by rw [h])⟩)
      · rw [← BookState.without_nodes_other (n := n)] at hm
        exact openQuantity_of_mem hw hv hm
    · rw [openQuantity_of_not_rests hb hr, openQuantity_of_not_rests hw fun h => hr (hrests.1 h).1]

end OpenQuantity

/-! ## The reports of a match -/

/-- The open quantity of an order that has this much left. -/
def openOf (q : Quantity) : Option Quantity := if q = 0 then none else some q

theorem openOf_pos {q : Quantity} (h : q ≠ 0) : openOf q = some q := if_neg h

theorem see_matchReport (id : OrderID) (seen : Option Quantity) (o : Order) (q : Quantity) (px : Price)
    (now : Timestamp) : see id seen (matchReport o q px now) =
      if o.orderId = id then openOf o.remainingQuantity else seen := by
  unfold see ExecutionReport.Open matchReport openOf
  by_cases h : o.remainingQuantity = 0
  · simp [h]
  · simp [h]

/-- After the two reports of a match a client sees what both orders have left, in either order. -/
theorem see_reportsOf (id : OrderID) (seen : Option Quantity) (br : Branch) (incoming resting : Order) (q : Quantity)
    (env : Env) (hne : resting.orderId ≠ incoming.orderId) : (reportsOf br incoming resting q env).foldl (see id) seen =
      if id = incoming.orderId then openOf (incoming.remainingQuantity - q)
      else if id = resting.orderId then openOf (resting.remainingQuantity - q)
      else seen := by
  unfold reportsOf
  simp only [List.foldl_cons, List.foldl_nil, see_matchReport]
  by_cases hi : id = incoming.orderId
  · subst hi
    cases br <;> simp [Branch.buyOf, Branch.sellOf, hne]
  · have hi' : ¬ incoming.orderId = id := fun h => hi h.symm
    by_cases hr : id = resting.orderId
    · subst hr
      cases br <;> simp [Branch.buyOf, Branch.sellOf, hi, hi']
    · have hr' : ¬ resting.orderId = id := fun h => hr h.symm
      cases br <;> simp [Branch.buyOf, Branch.sellOf, hi, hi', hr, hr']

/-- The open quantity of the first node with this id. -/
def quantityIn (l : List Node) (id : OrderID) : Option Quantity :=
  (l.find? fun n => n.order.orderId = id).map Node.size

theorem quantityIn_cons (n : Node) (l : List Node) (id : OrderID) :
    quantityIn (n :: l) id = if n.order.orderId = id then some n.size else quantityIn l id := by
  unfold quantityIn
  rw [List.find?_cons]
  by_cases h : n.order.orderId = id
  · simp [h]
  · simp [h]

theorem quantityIn_eq_none {l : List Node} {id : OrderID} (h : id ∉ l.map fun n => n.order.orderId) :
    quantityIn l id = none := by
  unfold quantityIn
  rw [Option.map_eq_none_iff, List.find?_eq_none]
  intro n hn hid
  exact h (List.mem_map.2 ⟨n, hn, by simpa using hid⟩)

section ReportsFrom

variable (br : Branch) (id : OrderID)

/-- The reports of the matches say nothing about an order that is not matched. -/
theorem see_reportsFrom_other (seen : Option Quantity) : ∀ (l : List Node) (incoming : Order) (env : Env),
    id ≠ incoming.orderId → id ∉ l.map (fun n => n.order.orderId) →
    (∀ n ∈ l, n.order.orderId ≠ incoming.orderId) →
      (reportsFrom br incoming env (takes Node.size incoming.remainingQuantity l)).foldl (see id) seen = seen
  | [], _, _, _, _, _ => rfl
  | n :: l, incoming, env, hi, hl, hne => by
    rw [List.map_cons, List.mem_cons, not_or] at hl
    have hn := hne n (List.mem_cons_self ..)
    unfold takes
    split
    · rfl
    · split
      · rw [reportsFrom, List.foldl_append, see_reportsOf _ _ _ _ _ _ _ hn, if_neg hi, if_neg hl.1]
        exact see_reportsFrom_other seen l (incoming.reduce n.size) _ hi hl.2
          fun m hm => hne m (List.mem_cons_of_mem _ hm)
      · rw [reportsFrom, List.foldl_append, see_reportsOf _ _ _ _ _ _ _ hn, if_neg hi, if_neg hl.1]
        rfl

/-- After the reports of the matches a client sees what is left of a resting order that may be
matched. -/
theorem see_reportsFrom_resting : ∀ (l : List Node) (incoming : Order) (env : Env),
    (l.map fun n => n.order.orderId).Nodup → id ∈ l.map (fun n => n.order.orderId) →
    (∀ n ∈ l, n.order.orderId ≠ incoming.orderId) →
      (reportsFrom br incoming env (takes Node.size incoming.remainingQuantity l)).foldl (see id) (quantityIn l id) =
        quantityIn (leftover Node.size Node.reduce incoming.remainingQuantity l) id
  | [], _, _, _, h, _ => by cases h
  | n :: l, incoming, env, hd, h, hne => by
    rw [List.map_cons, List.nodup_cons] at hd
    have hn := hne n (List.mem_cons_self ..)
    have hl : ∀ m ∈ l, m.order.orderId ≠ incoming.orderId := fun m hm => hne m (List.mem_cons_of_mem _ hm)
    have hi : id ≠ incoming.orderId := by
      obtain ⟨m, hm, rfl⟩ := List.mem_map.1 h
      exact hne m hm
    unfold takes leftover
    split
    · rfl
    · rename_i hq
      split
      · rename_i hle
        rw [reportsFrom, List.foldl_append, see_reportsOf _ _ _ _ _ _ _ hn, if_neg hi]
        by_cases hid : id = n.order.orderId
        · -- the order is filled, and no other order has its id
          subst hid
          have hnil : n.order.orderId ∉ (leftover Node.size Node.reduce (incoming.remainingQuantity - n.size) l).map
              fun m => m.order.orderId := by
            intro hmem
            refine hd.1 ?_
            rw [map_leftover Node.reduce (fun m => m.order.orderId) (fun _ _ => rfl)
              (incoming.remainingQuantity - n.size) l]
            exact List.mem_append_right _ hmem
          have hzero : openOf (n.order.remainingQuantity - n.size) = none := by simp [openOf, Node.size]
          rw [if_pos rfl, quantityIn_eq_none hnil, hzero]
          exact see_reportsFrom_other br _ none l (incoming.reduce n.size) _ hi hd.1 hl
        · have hmem : id ∈ l.map fun n => n.order.orderId :=
            (List.mem_cons.1 h).resolve_left hid
          rw [if_neg hid, quantityIn_cons, if_neg fun h => hid h.symm]
          exact see_reportsFrom_resting l (incoming.reduce n.size) _ hd.2 hmem hl
      · -- the last match: the first order has less, the others are as before
        rename_i hle
        rw [reportsFrom, List.foldl_append, see_reportsOf _ _ _ _ _ _ _ hn, if_neg hi, quantityIn_cons,
          quantityIn_cons]
        by_cases hid : id = n.order.orderId
        · subst hid
          have hpos : (n.reduce incoming.remainingQuantity).size ≠ 0 := Node.reduce_size_ne (UInt32.not_le.1 hle)
          rw [if_pos rfl, if_pos (by rfl)]
          exact openOf_pos hpos
        · have hid' : ¬ n.order.orderId = id := fun h => hid h.symm
          rw [if_neg hid, if_neg hid']
          exact (if_neg hid').symm

/-- After the reports of the matches a client sees what is left of the incoming order, if there is any
match. -/
theorem see_reportsFrom_incoming : ∀ (l : List Node) (incoming : Order) (env : Env) (seen : Option Quantity),
    (∀ n ∈ l, n.order.orderId ≠ incoming.orderId) →
      (reportsFrom br incoming env (takes Node.size incoming.remainingQuantity l)).foldl (see incoming.orderId) seen =
        if takes Node.size incoming.remainingQuantity l = [] then seen
        else openOf (unmet Node.size incoming.remainingQuantity l)
  | [], _, _, _, _ => rfl
  | n :: l, incoming, env, seen, hne => by
    have hn := hne n (List.mem_cons_self ..)
    have hl : ∀ m ∈ l, m.order.orderId ≠ incoming.orderId := fun m hm => hne m (List.mem_cons_of_mem _ hm)
    unfold takes unmet
    split
    · rfl
    · split
      · rw [if_neg (List.cons_ne_nil _ _), reportsFrom, List.foldl_append, see_reportsOf _ _ _ _ _ _ _ hn, if_pos rfl]
        have ih := see_reportsFrom_incoming l (incoming.reduce n.size) env.afterMatch
          (openOf (incoming.remainingQuantity - n.size)) hl
        refine ih.trans ?_
        rw [Order.reduce_remaining]
        split
        · -- no further match: nothing is left, or the list has run out
          rename_i hnil
          rw [unmet_of_takes_eq_nil hnil]
        · rfl
      · rw [if_neg (List.cons_ne_nil _ _), reportsFrom, List.foldl_append, see_reportsOf _ _ _ _ _ _ _ hn, if_pos rfl]
        simp [reportsFrom]

end ReportsFrom

theorem quantityIn_of_mem {l : List Node} (hd : (l.map fun n => n.order.orderId).Nodup) {n : Node} (hn : n ∈ l) :
    quantityIn l n.order.orderId = some n.size := by
  unfold quantityIn
  cases hf : l.find? fun m => m.order.orderId = n.order.orderId with
  | none =>
    rw [List.find?_eq_none] at hf
    simpa using hf n hn
  | some m =>
    have hid : m.order.orderId = n.order.orderId := by simpa using List.find?_some hf
    rw [List.inj_on_of_nodup_map hd (List.mem_of_find?_eq_some hf) hn hid]
    rfl

theorem see_remainderReport {id : OrderID} (incoming : Order) (hid : id ≠ incoming.orderId) (now : Timestamp)
    (seen : Option Quantity) : (BookState.remainderReport incoming now).foldl (see id) seen = seen := by
  have hid' : ¬ incoming.orderId = id := fun h => hid h.symm
  unfold BookState.remainderReport
  split
  · split
    · split
      · simp [see, newReport, hid']
      · rfl
    · simp [see, expiryReport, hid']
  · rfl

/-! ## The reports of a submission -/

section Submission

variable {b : BookState} (hb : b.WF) (hu : b.IdsOk) (order : Order) (hfresh : ¬ b.Rests order.orderId) (env : Env)
include hb hu hfresh

/-- A submission reports what becomes of the submitted order, whatever was reported of it before. -/
theorem see_submitted (hfull : order.remainingQuantity = order.quantity) (hpos : order.remainingQuantity ≠ 0)
    (seen : Option Quantity) :
    (b.submitBranch (Branch.ofSide order.side) order {} env).result.executionReports.foldl (see order.orderId) seen =
      (b.submitBranch (Branch.ofSide order.side) order {} env).book.openQuantity order.orderId := by
  have hw := BookState.submitBranch_wf order {} env hb rfl
  have hv : (b.submitBranch (Branch.ofSide order.side) order {} env).book.IdsOk :=
    BookState.submitBranch_idsOk order {} env hb hu hfresh
  have hne : ∀ n ∈ b.eligible (Branch.ofSide order.side) order, n.order.orderId ≠ order.orderId :=
    fun n hn heq => hfresh ⟨_, n, (List.mem_filter.1 hn).1, heq⟩
  obtain ⟨now, hreports⟩ := BookState.submitBranch_reports hb order {} env
  rw [hreports, List.nil_append, List.foldl_append]
  unfold BookState.taken
  rw [see_reportsFrom_incoming _ _ order env seen hne]
  -- an order that is not matched keeps all of its quantity
  have hmatched : (b.remainder order).remainingQuantity ≠ order.quantity →
      ¬ takes Node.size order.remainingQuantity (b.eligible (Branch.ofSide order.side) order) = [] :=
    fun h hnil => h ((unmet_of_takes_eq_nil hnil).trans hfull)
  unfold BookState.remainderReport
  by_cases hq : (b.remainder order).remainingQuantity = 0
  · -- filled: the last match reported it
    have hne : (b.remainder order).remainingQuantity ≠ order.quantity := by
      rw [hq, ← hfull]
      exact hpos.symm
    have hnot := BookState.not_rests_submitted hb order {} env hfresh fun h => h.1 hq
    rw [if_neg (hmatched hne), if_neg (by rw [hq]; decide), openQuantity_of_not_rests hw hnot]
    show openOf (b.remainder order).remainingQuantity = none
    rw [hq]
    rfl
  · rw [if_pos (quantity_pos.2 hq), BookState.remainder_type]
    by_cases ht : order.type = OrderType.limit
    · -- the remainder rests: `New` if nothing was matched, else as the last match reported it
      have hmem := (BookState.mem_submitBranch hb order {} env).2 (.inr ⟨hq, ht, rfl⟩)
      have hopen : _ = some (b.remainder order).remainingQuantity := openQuantity_of_mem hw hv hmem
      rw [BookState.remainder_orderId] at hopen
      rw [if_pos ht, hopen]
      by_cases hpart : (b.remainder order).remainingQuantity = (b.remainder order).quantity
      · rw [if_pos hpart]
        simp [see, newReport, ExecutionReport.Open]
      · rw [if_neg hpart, if_neg (hmatched hpart)]
        exact openOf_pos hq
    · have hnot := BookState.not_rests_submitted hb order {} env hfresh fun h => ht h.2
      rw [if_neg ht, openQuantity_of_not_rests hw hnot]
      simp [see, expiryReport, ExecutionReport.Open]

/-- What a submission leaves open of an order that it may match. -/
theorem openQuantity_eligible {id : OrderID} (hid : id ≠ order.orderId)
    (hel : id ∈ (b.eligible (Branch.ofSide order.side) order).map fun n => n.order.orderId) :
    (b.submitBranch (Branch.ofSide order.side) order {} env).book.openQuantity id =
      quantityIn (leftover Node.size Node.reduce order.remainingQuantity
        (b.eligible (Branch.ofSide order.side) order)) id := by
  have hw := BookState.submitBranch_wf order {} env hb rfl
  have hv : (b.submitBranch (Branch.ofSide order.side) order {} env).book.IdsOk :=
    BookState.submitBranch_idsOk order {} env hb hu hfresh
  obtain ⟨m, hm, rfl⟩ := List.mem_map.1 hel
  have hm' := (List.mem_filter.1 hm).1
  by_cases hleft : m.order.orderId ∈ (leftover Node.size Node.reduce order.remainingQuantity
      (b.eligible (Branch.ofSide order.side) order)).map fun n => n.order.orderId
  · -- the order stays, possibly with less
    obtain ⟨n, hn, hnid⟩ := List.mem_map.1 hleft
    have hafter : n ∈ (b.submitBranch (Branch.ofSide order.side) order {} env).book.nodes
        (Branch.ofSide order.side).other := by
      rw [BookState.submitBranch_nodes_other hb]
      exact List.mem_append_left _ hn
    have hd : ((b.eligible (Branch.ofSide order.side) order).map fun n => n.order.orderId).Nodup :=
      (List.nodup_append.1 (hu.nodup _)).1.sublist (List.filter_sublist.map _)
    rw [map_leftover Node.reduce (fun n => n.order.orderId) (fun _ _ => rfl) order.remainingQuantity] at hd
    rw [← hnid, quantityIn_of_mem (List.nodup_append.1 hd).2.1 hn, openQuantity_of_mem hw hv hafter]
  · -- the order is filled, and no node of the new book has its id
    rw [quantityIn_eq_none hleft, openQuantity_of_not_rests hw]
    rintro ⟨br, n, hn, hnid⟩
    rcases (Branch.ofSide order.side).eq_or_other br with rfl | rfl
    · rcases (BookState.mem_submitBranch hb order {} env).1 hn with hn | ⟨-, -, rfl⟩
      · exact Branch.other_ne _ (hu.node_eq hm' hn hnid.symm).1
      · exact hid hnid.symm
    · rw [BookState.submitBranch_nodes_other hb] at hn
      rcases List.mem_append.1 hn with hn | hn
      · exact hleft (List.mem_map.2 ⟨n, hn, hnid⟩)
      · obtain ⟨hn, hacc⟩ := List.mem_filter.1 hn
        rw [(hu.node_eq hn hm' hnid).2, (List.mem_filter.1 hm).2] at hacc
        cases hacc

/-- A submission leaves alone what it may not match. -/
theorem openQuantity_not_eligible {id : OrderID} (hid : id ≠ order.orderId)
    (hel : id ∉ (b.eligible (Branch.ofSide order.side) order).map fun n => n.order.orderId) :
    (b.submitBranch (Branch.ofSide order.side) order {} env).book.openQuantity id = b.openQuantity id := by
  have hw := BookState.submitBranch_wf order {} env hb rfl
  have hv : (b.submitBranch (Branch.ofSide order.side) order {} env).book.IdsOk :=
    BookState.submitBranch_idsOk order {} env hb hu hfresh
  by_cases hr : b.Rests id
  · obtain ⟨br, n, hn, rfl⟩ := hr
    rw [openQuantity_of_mem hb hu hn]
    rcases (Branch.ofSide order.side).eq_or_other br with rfl | rfl
    · exact openQuantity_of_mem hw hv ((BookState.mem_submitBranch hb order {} env).2 (.inl hn))
    · rw [← BookState.eligible_append order (hb.levels _)] at hn
      have hun := (List.mem_append.1 hn).resolve_left fun h => hel (List.mem_map_of_mem h)
      have hafter : n ∈ (b.submitBranch (Branch.ofSide order.side) order {} env).book.nodes
          (Branch.ofSide order.side).other := by
        rw [BookState.submitBranch_nodes_other hb]
        exact List.mem_append_right _ hun
      exact openQuantity_of_mem hw hv hafter
  · rw [openQuantity_of_not_rests hb hr, openQuantity_of_not_rests hw]
    exact fun h => (BookState.rests_of_submitBranch order {} env hb h).elim hid hr

/-- A submission reports what it does to the other orders. -/
theorem see_others {id : OrderID} (hid : id ≠ order.orderId) :
    (b.submitBranch (Branch.ofSide order.side) order {} env).result.executionReports.foldl (see id)
        (b.openQuantity id) =
      (b.submitBranch (Branch.ofSide order.side) order {} env).book.openQuantity id := by
  have hne : ∀ n ∈ b.eligible (Branch.ofSide order.side) order, n.order.orderId ≠ order.orderId :=
    fun n hn heq => hfresh ⟨_, n, (List.mem_filter.1 hn).1, heq⟩
  obtain ⟨now, hreports⟩ := BookState.submitBranch_reports hb order {} env
  rw [hreports, List.nil_append, List.foldl_append, see_remainderReport (b.remainder order) hid]
  unfold BookState.taken
  by_cases hel : id ∈ (b.eligible (Branch.ofSide order.side) order).map fun n => n.order.orderId
  · have hd : ((b.eligible (Branch.ofSide order.side) order).map fun n => n.order.orderId).Nodup :=
      (List.nodup_append.1 (hu.nodup _)).1.sublist (List.filter_sublist.map _)
    rw [openQuantity_eligible hb hu order hfresh env hid hel]
    obtain ⟨m, hm, rfl⟩ := List.mem_map.1 hel
    rw [openQuantity_of_mem hb hu (List.mem_filter.1 hm).1, ← quantityIn_of_mem hd hm,
      see_reportsFrom_resting _ _ _ _ _ hd hel hne]
  · rw [see_reportsFrom_other _ _ _ _ _ _ hid hel hne, openQuantity_not_eligible hb hu order hfresh env hid hel]

end Submission

/-! ## Runs -/

/-- All reports of a run, oldest first. -/
def Run.reports (r : Run) : List ExecutionReport := r.events.flatMap fun e => e.result.executionReports

/-- An order rests exactly when its last report leaves it open, with the remaining quantity of that
report. -/
structure Tracks (b : BookState) (reports : List ExecutionReport) : Prop where
  openIff : ∀ id, b.Rests id ↔ ∃ r, lastReport reports id = some r ∧ r.Open
  remaining : ∀ br, ∀ n ∈ b.nodes br, ∀ r, lastReport reports n.order.orderId = some r →
    r.remainingQuantity = n.order.remainingQuantity

/-- The reports track the book when a client that folds them sees the open quantities of the book. -/
theorem tracks_iff {b : BookState} (hb : b.WF) (hu : b.IdsOk) (reports : List ExecutionReport) :
    Tracks b reports ↔ ∀ id, reports.foldl (see id) none = b.openQuantity id := by
  constructor
  · intro h id
    rw [foldl_see]
    by_cases hr : b.Rests id
    · obtain ⟨r, hlast, hopen⟩ := (h.openIff id).1 hr
      obtain ⟨br, n, hn, rfl⟩ := hr
      rw [openQuantity_of_mem hb hu hn, hlast, Option.bind_some, if_pos hopen, h.remaining br n hn r hlast]
      rfl
    · rw [openQuantity_of_not_rests hb hr]
      cases hlast : lastReport reports id with
      | none => rfl
      | some r =>
        rw [Option.bind_some, if_neg]
        exact fun hopen => hr ((h.openIff id).2 ⟨r, hlast, hopen⟩)
  · intro h
    have hlast : ∀ br, ∀ n ∈ b.nodes br, ∃ r, lastReport reports n.order.orderId = some r ∧ r.Open ∧
        r.remainingQuantity = n.order.remainingQuantity := by
      intro br n hn
      have hid := h n.order.orderId
      rw [foldl_see, openQuantity_of_mem hb hu hn] at hid
      obtain ⟨r, hr, hsome⟩ := Option.bind_eq_some_iff.1 hid
      split at hsome
      · rename_i hopen
        exact ⟨r, hr, hopen, Option.some.inj hsome⟩
      · cases hsome
    refine ⟨fun id => ⟨?_, ?_⟩, ?_⟩
    · rintro ⟨br, n, hn, rfl⟩
      obtain ⟨r, hr, hopen, -⟩ := hlast br n hn
      exact ⟨r, hr, hopen⟩
    · rintro ⟨r, hr, hopen⟩
      by_contra hrests
      have hid := h id
      rw [foldl_see, hr, Option.bind_some, if_pos hopen, openQuantity_of_not_rests hb hrests] at hid
      cases hid
    · intro br n hn r hr
      obtain ⟨r', hr', -, hq⟩ := hlast br n hn
      rw [hr] at hr'
      cases hr'
      exact hq

/-- A modify to quantity zero that finds an order. -/
def Event.Silent (e : Event) : Prop :=
  ∃ request, e.op = .modify request ∧ request.quantity = 0 ∧ e.before.Rests request.orderId

section Step

variable (b : OrderBook) (hu : b.IdsOk) (op : Op) (env : Env)
include hu

/-- A modify to quantity zero of an order that is found removes it without a report. -/
theorem modify_zero_reports {br : Branch} {n : Node} (hn : n ∈ b.nodes br) (request : ModifyRequest)
    (hq : request.quantity = 0) :
    ((b.without br n).submitBranch br (BookState.modified n.order request) {} env).result.executionReports = [] ∧
      ¬ ((b.without br n).submitBranch br (BookState.modified n.order request) {} env).book.Rests n.order.orderId := by
  have hw := BookState.without_wf b.wf hn
  have hside := b.wf.modified_side hn request
  -- no quantity, so neither a match nor a remainder to report
  have hnil : (b.without br n).taken (BookState.modified n.order request) = [] := by
    unfold BookState.taken BookState.modified
    rw [hq]
    cases (b.without br n).eligible _ _ with
    | nil => rfl
    | cons m l => exact if_pos rfl
  have hrem : ((b.without br n).remainder (BookState.modified n.order request)).remainingQuantity = 0 :=
    (unmet_of_takes_eq_nil hnil).trans hq
  have hnot := BookState.not_rests_without b.wf hu hn
  obtain ⟨now, hreports⟩ := BookState.submitBranch_reports hw (BookState.modified n.order request) {} env
  have hgone := BookState.not_rests_submitted hw (BookState.modified n.order request) {} env hnot fun h => h.1 hrem
  rw [hside] at hreports hgone
  refine ⟨?_, hgone⟩
  rw [hreports, hnil]
  unfold BookState.remainderReport
  rw [if_neg (by rw [hrem]; decide)]
  rfl

/-- An operation reports what it does to every order, unless it is a modify to zero that finds one. -/
theorem event_reports (hfresh : ∀ order, op = .submit order → ¬ b.Rests order.orderId ∧
      order.remainingQuantity = order.quantity ∧ order.quantity ≠ 0) :
    (∀ id, (b.event op env).result.executionReports.foldl (see id) (b.openQuantity id) =
      (b.event op env).after.openQuantity id) ↔ ¬ (b.event op env).Silent := by
  obtain ⟨o, ho, hbook, hresult, -⟩ := b.applies op env
  unfold OrderBook.event Event.Silent
  simp only [hbook, hresult]
  cases ho with
  | submit order =>
    obtain ⟨hnew, hfull, hpos⟩ := hfresh order rfl
    refine iff_of_true (fun id => ?_) (fun ⟨_, h, _⟩ => by cases h)
    by_cases hid : id = order.orderId
    · subst hid
      exact see_submitted b.wf hu order hnew env hfull (by rw [hfull]; exact hpos) _
    · exact see_others b.wf hu order hnew env hid
  | cancelMiss id hi => exact iff_of_true (fun id => rfl) (fun ⟨_, h, _⟩ => by cases h)
  | cancel br n hn hi =>
    refine iff_of_true (fun id => ?_) (fun ⟨_, h, _⟩ => by cases h)
    rw [openQuantity_without b.wf hu hn]
    by_cases hid : id = n.order.orderId
    · subst hid
      simp [MatchResult.report, see, BookState.cancelReport, ExecutionReport.Open]
    · have hid' : ¬ n.order.orderId = id := fun h => hid h.symm
      simp [MatchResult.report, see, BookState.cancelReport, hid, hid']
  | modifyMiss request hi =>
    refine iff_of_true (fun id => rfl) ?_
    rintro ⟨_, ⟨⟩, -, hr⟩
    obtain ⟨e, he⟩ := (BookState.rests_iff b.wf hu _).1 hr
    rw [hi] at he
    cases he
  | modify br n request hn hid hi =>
    by_cases hq : request.quantity = 0
    · refine iff_of_false (fun h => ?_) fun h => h ⟨request, rfl, hq, br, n, hn, hid⟩
      obtain ⟨hnone, hgone⟩ := modify_zero_reports b hu env hn request hq
      have hsee := h n.order.orderId
      rw [hnone, openQuantity_of_mem b.wf hu hn, openQuantity_of_not_rests _ hgone] at hsee
      · cases hsee
      · exact BookState.submitBranch_wf _ {} env (BookState.without_wf b.wf hn) (b.wf.resting br n hn).2.2
    · refine iff_of_true (fun id => ?_) ?_
      · have hw := BookState.without_wf b.wf hn
        have hv := BookState.without_idsOk b.wf hu hn
        have hside := b.wf.modified_side hn request
        have hnot : ¬ (b.without br n).Rests (BookState.modified n.order request).orderId :=
          BookState.not_rests_without b.wf hu hn
        by_cases hself : id = n.order.orderId
        · subst hself
          have hsee := see_submitted hw hv (BookState.modified n.order request) hnot env rfl hq
            (b.openQuantity n.order.orderId)
          rw [hside] at hsee
          exact hsee
        · have hsee := see_others hw hv (BookState.modified n.order request) hnot env hself
          rw [hside, openQuantity_without b.wf hu hn, if_neg hself] at hsee
          exact hsee
      · rintro ⟨_, ⟨⟩, hzero, -⟩
        exact hq hzero

end Step

theorem Run.step_reports (r : Run) (op : Op) :
    (r.step op).reports = r.reports ++ (r.book.event op r.env).result.executionReports := by
  simp [Run.reports, Run.step]

/-- In every run with fresh ids and full, positive submissions: the reports track the book after every
operation exactly when no modify to quantity zero finds an order. -/
theorem reports_track_book (symbol : Symbol) (env : Env) (ops : List Op) (hfresh : FreshIds ops)
    (hfull : ∀ order, .submit order ∈ ops → order.remainingQuantity = order.quantity ∧ 0 < order.quantity) :
    (∀ done, done <+: ops →
        Tracks (run symbol env done).book.toBookState (run symbol env done).reports) ↔
      ∀ e ∈ (run symbol env ops).events, ¬ e.Silent := by
  refine run_induction (P := fun ops r => FreshIds ops →
    (∀ order, .submit order ∈ ops → order.remainingQuantity = order.quantity ∧ 0 < order.quantity) →
    ((∀ done, done <+: ops → Tracks (run symbol env done).book.toBookState (run symbol env done).reports) ↔
      ∀ e ∈ r.events, ¬ e.Silent)) ?_ ?_ ops hfresh hfull
  · intro _ _
    refine iff_of_true (fun done hdone => ?_) (fun e he => by cases he)
    rw [List.prefix_nil.1 hdone, tracks_iff (run symbol env []).book.wf (BookState.init_idsOk symbol)]
    exact fun id => rfl
  · intro ops op ih hfresh hfull
    have ih := ih hfresh.init fun order ho => hfull order (List.mem_append_left _ ho)
    obtain ⟨hu, hsub⟩ := run_idsOk symbol env ops hfresh.init
    obtain ⟨hu', -⟩ := run_idsOk symbol env (ops ++ [op]) hfresh
    have hop : ∀ order, op = .submit order → ¬ (run symbol env ops).book.Rests order.orderId ∧
        order.remainingQuantity = order.quantity ∧ order.quantity ≠ 0 := by
      rintro order rfl
      obtain ⟨h1, h2⟩ := hfull order (List.mem_append_right _ (List.mem_singleton_self _))
      exact ⟨fun hr => hfresh.last (hsub _ hr), h1, quantity_pos.1 h2⟩
    have hevent := event_reports _ hu op (run symbol env ops).env hop
    -- as long as the reports track the book, one more operation keeps it so unless it is silent
    have hstep : Tracks (run symbol env ops).book.toBookState (run symbol env ops).reports →
        (Tracks (run symbol env (ops ++ [op])).book.toBookState (run symbol env (ops ++ [op])).reports ↔
          ¬ ((run symbol env ops).book.event op (run symbol env ops).env).Silent) := by
      intro htracks
      have hsee := (tracks_iff (run symbol env ops).book.wf hu _).1 htracks
      rw [tracks_iff (run symbol env (ops ++ [op])).book.wf hu', ← hevent, run_snoc, Run.step_reports]
      refine forall_congr' fun id => ?_
      rw [List.foldl_append, hsee id]
      rfl
    constructor
    · intro h e he
      have hpre : ∀ done, done <+: ops → Tracks (run symbol env done).book.toBookState (run symbol env done).reports :=
        fun done hdone => h done (hdone.trans (List.prefix_append _ _))
      rcases List.mem_append.1 he with he | he
      · exact ih.1 hpre e he
      · rw [List.mem_singleton.1 he]
        exact (hstep (hpre ops (List.prefix_refl _))).1 (h _ (List.prefix_refl _))
    · intro h done hdone
      have hpre := ih.2 fun e he => h e (List.mem_append_left _ he)
      rcases List.prefix_concat_iff.1 hdone with rfl | hdone
      · exact (hstep (hpre ops (List.prefix_refl _))).2 (h _ (List.mem_append_right _ (List.mem_singleton_self _)))
      · exact hpre done hdone

/-- An order for five is submitted and then modified to quantity zero. -/
def silentModify : List Op :=
  [.submit { orderId := 1, price := 10, quantity := 5, remainingQuantity := 5 },
    .modify { orderId := 1, price := 10, quantity := 0 }]

/-- After the modify the book is empty, but the last report for the order still says `New`. -/
theorem silentModify_not_tracked :
    (run [] ⟨1, fun _ => 0, 0⟩ silentModify).book.ids .buy = [] ∧
      (lastReport (run [] ⟨1, fun _ => 0, 0⟩ silentModify).reports 1).map ExecutionReport.status = some .new ∧
      ¬ Tracks (run [] ⟨1, fun _ => 0, 0⟩ silentModify).book.toBookState
        (run [] ⟨1, fun _ => 0, 0⟩ silentModify).reports := by
  refine ⟨by decide, by decide, fun h => ?_⟩
  rw [tracks_iff (run [] ⟨1, fun _ => 0, 0⟩ silentModify).book.wf
    (run_idsOk [] ⟨1, fun _ => 0, 0⟩ silentModify (by decide)).1] at h
  exact absurd (h 1) (by decide)

/-- The same modify to quantity two is tracked. -/
theorem reports_track_book_modified : Tracks
    (run [] ⟨1, fun _ => 0, 0⟩ [.submit { orderId := 1, price := 10, quantity := 5, remainingQuantity := 5 },
      .modify { orderId := 1, price := 10, quantity := 2 }]).book.toBookState
    (run [] ⟨1, fun _ => 0, 0⟩ [.submit { orderId := 1, price := 10, quantity := 5, remainingQuantity := 5 },
      .modify { orderId := 1, price := 10, quantity := 2 }]).reports := by
  refine (reports_track_book [] ⟨1, fun _ => 0, 0⟩ _ (by decide) ?_).2 ?_ _ (List.prefix_refl _)
  · intro order ho
    simp only [List.mem_cons, List.not_mem_nil, Op.submit.injEq, reduceCtorEq, or_false] at ho
    rw [ho]
    decide
  · rintro e he ⟨request, hop, hzero, -⟩
    simp only [run, List.foldl_cons, List.foldl_nil, Run.step, Run.start, List.nil_append, List.cons_append,
      List.mem_cons, List.not_mem_nil, or_false] at he
    rcases he with rfl | rfl
    · cases hop
    · cases hop
      cases hzero

end StockExchange
