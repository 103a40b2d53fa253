/-
The protocol of an order's reports. A client that knows which requests it has made for an order, and has followed its
reports so far, can say which report may come next: `New` once, in front of any other, then executions that take from
what is left, and a last one that fills or cancels, after which nothing comes. Every run of a book keeps to this, and
what such a client has left of the order is what rests in the book.
-/
import StockExchange.Engine.Reports
import StockExchange.Lib.Machine

namespace StockExchange

open Greedy

/-! ## The client's view -/

/-- How far an order has come, as its client sees it. -/
inductive Phase
  | unknown
  /-- Asked for with this quantity, by a submission or a modify, and not heard of since. -/
  | asked (q : Quantity)
  /-- Reported open with this quantity left. -/
  | opened (q : Quantity)
  /-- Reported filled or cancelled. -/
  | closed
  deriving DecidableEq, Repr

namespace Phase

/-- What may still be executed. -/
def left : Phase → Option Quantity
  | .asked q => some q
  | .opened q => some q
  | _ => none

/-- The report takes `lastQty` from what is left. -/
def Takes (phase : Phase) (r : ExecutionReport) : Prop :=
  ∃ q ∈ phase.left, r.lastQty ≠ 0 ∧ r.lastQty ≤ q ∧ r.remainingQuantity = q - r.lastQty

instance (phase : Phase) (r : ExecutionReport) : Decidable (phase.Takes r) :=
  inferInstanceAs (Decidable (∃ q ∈ phase.left, _))

/-- The phase of an order that has this much left after an execution. -/
def after (q : Quantity) : Phase := if q = 0 then .closed else .opened q

/-- What a report about the order makes of the phase; `none` if it may not come now. -/
def next (phase : Phase) (r : ExecutionReport) : Option Phase :=
  match r.status with
  | .new => if phase = .asked r.remainingQuantity ∧ r.lastQty = 0 then some (.opened r.remainingQuantity) else none
  | .partiallyFilled =>
    if phase.Takes r ∧ r.remainingQuantity ≠ 0 then some (.opened r.remainingQuantity) else none
  | .filled => if phase.Takes r ∧ r.remainingQuantity = 0 then some .closed else none
  | .cancelled => if phase.left.isSome ∧ r.lastQty = 0 then some .closed else none
  | .rejected => none

/-- A report as the client of the order `id` follows it. -/
def follow (id : OrderID) (phase : Phase) (r : ExecutionReport) : Option Phase :=
  if r.orderId = id then phase.next r else some phase

/-- The client's own request. A modify counts for an order that is open. -/
def ask (id : OrderID) (phase : Phase) : Op → Phase
  | .submit order => if order.orderId = id then .asked order.quantity else phase
  | .cancel _ => phase
  | .modify request =>
    match phase with
    | .opened _ => if request.orderId = id then .asked request.quantity else phase
    | _ => phase

/-- An operation and then its reports. -/
def event (id : OrderID) (phase : Phase) (e : Event) : Option Phase :=
  Machine.run (follow id) (phase.ask id e.op) e.result.executionReports

end Phase

/-! ## The reports of a match -/

section Match

variable {id : OrderID} {phase : Phase}

theorem follow_of_ne {r : ExecutionReport} (h : r.orderId ≠ id) : phase.follow id r = some phase := if_neg h

/-- The report of a match takes the quantity of the match. -/
theorem follow_matchReport {o : Order} {q : Quantity} (hid : o.orderId = id)
    (hleft : phase.left = some o.remainingQuantity) (hq : q ≠ 0) (hle : q ≤ o.remainingQuantity) (px : Price)
    (now : Timestamp) :
    phase.follow id (matchReport (o.reduce q) q px now) = some (.after (o.remainingQuantity - q)) := by
  have htakes : phase.Takes (matchReport (o.reduce q) q px now) := ⟨_, hleft, hq, hle, rfl⟩
  have hrem : (matchReport (o.reduce q) q px now).remainingQuantity = o.remainingQuantity - q := rfl
  unfold Phase.follow Phase.next Phase.after
  rw [if_pos (show (matchReport (o.reduce q) q px now).orderId = id from hid)]
  by_cases hzero : o.remainingQuantity - q = 0
  · have hstatus : (matchReport (o.reduce q) q px now).status = .filled := if_pos hzero
    rw [hstatus, if_pos hzero]
    exact if_pos ⟨htakes, hrem.trans hzero⟩
  · have hstatus : (matchReport (o.reduce q) q px now).status = .partiallyFilled := if_neg hzero
    rw [hstatus, if_neg hzero]
    exact if_pos ⟨htakes, hzero⟩

/-- The two reports of a match, whichever comes first. -/
theorem follow_pair {o other : Order} {q : Quantity} (hid : o.orderId = id) (hother : other.orderId ≠ id)
    (hleft : phase.left = some o.remainingQuantity) (hq : q ≠ 0) (hle : q ≤ o.remainingQuantity) (px : Price)
    (now : Timestamp) :
    Machine.run (Phase.follow id) phase [matchReport (o.reduce q) q px now, matchReport (other.reduce q) q px now] =
        some (.after (o.remainingQuantity - q)) ∧
      Machine.run (Phase.follow id) phase [matchReport (other.reduce q) q px now, matchReport (o.reduce q) q px now] =
        some (.after (o.remainingQuantity - q)) := by
  have hmine := follow_matchReport hid hleft hq hle px now
  have hskip : ∀ phase : Phase, phase.follow id (matchReport (other.reduce q) q px now) = some phase :=
    fun _ => follow_of_ne hother
  constructor
  · rw [Machine.run, hmine, Option.bind_some, Machine.run, hskip, Option.bind_some, Machine.run]
  · rw [Machine.run, hskip, Option.bind_some, Machine.run, hmine, Option.bind_some, Machine.run]

variable {incoming resting : Order} {q : Quantity} (br : Branch) (env : Env)

theorem follow_incoming (hne : resting.orderId ≠ incoming.orderId)
    (hleft : phase.left = some incoming.remainingQuantity) (hq : q ≠ 0) (hle : q ≤ incoming.remainingQuantity) :
    Machine.run (Phase.follow incoming.orderId) phase (reportsOf br incoming resting q env) =
      some (.after (incoming.remainingQuantity - q)) := by
  cases br with
  | buy => exact (follow_pair rfl hne hleft hq hle _ _).1
  | sell => exact (follow_pair rfl hne hleft hq hle _ _).2

theorem follow_resting (hne : resting.orderId ≠ incoming.orderId)
    (hleft : phase.left = some resting.remainingQuantity) (hq : q ≠ 0) (hle : q ≤ resting.remainingQuantity) :
    Machine.run (Phase.follow resting.orderId) phase (reportsOf br incoming resting q env) =
      some (.after (resting.remainingQuantity - q)) := by
  cases br with
  | buy => exact (follow_pair rfl hne.symm hleft hq hle _ _).2
  | sell => exact (follow_pair rfl hne.symm hleft hq hle _ _).1

/-- Reports about other orders. -/
theorem follow_none {reports : List ExecutionReport} (h : ∀ r ∈ reports, r.orderId ≠ id) :
    Machine.run (Phase.follow id) phase reports = some phase := by
  induction reports with
  | nil => rfl
  | cons r reports ih =>
    rw [Machine.run, follow_of_ne (h r (List.mem_cons_self ..)), Option.bind_some]
    exact ih fun r' hr' => h r' (List.mem_cons_of_mem _ hr')

theorem reportsOf_orderId {r : ExecutionReport} (h : r ∈ reportsOf br incoming resting q env) :
    r.orderId = incoming.orderId ∨ r.orderId = resting.orderId := by
  rcases List.mem_cons.1 h with rfl | h
  · cases br
    · exact .inl rfl
    · exact .inr rfl
  · rw [List.mem_singleton.1 h]
    cases br
    · exact .inr rfl
    · exact .inl rfl

theorem reportsOf_ne (hi : id ≠ incoming.orderId) (hr : id ≠ resting.orderId) {r : ExecutionReport}
    (h : r ∈ reportsOf br incoming resting q env) : r.orderId ≠ id := by
  rintro rfl
  exact (reportsOf_orderId br env h).elim hi hr

end Match

/-! ## The reports of all matches -/

section Matches

variable (br : Branch)

/-- Only the incoming order and the orders that may be matched are reported. -/
theorem reportsFrom_orderId : ∀ (ts : List (Node × Quantity)) (incoming : Order) (env : Env),
    ∀ r ∈ reportsFrom br incoming env ts, r.orderId = incoming.orderId ∨ ∃ t ∈ ts, r.orderId = t.1.order.orderId
  | [], _, _, r, h => by cases h
  | t :: ts, incoming, env, r, h => by
    rw [reportsFrom] at h
    rcases List.mem_append.1 h with h | h
    · exact (reportsOf_orderId br env h).imp_right fun heq => ⟨t, List.mem_cons_self .., heq⟩
    · rcases reportsFrom_orderId ts (incoming.reduce t.2) env.afterMatch r h with heq | ⟨t', ht', heq⟩
      · exact .inl heq
      · exact .inr ⟨t', List.mem_cons_of_mem _ ht', heq⟩

/-- The incoming order is executed match by match, down to what is left of it. -/
theorem follow_reportsFrom_incoming : ∀ (l : List Node) (incoming : Order) (env : Env) (phase : Phase),
    (∀ n ∈ l, n.order.orderId ≠ incoming.orderId) → (∀ n ∈ l, n.size ≠ 0) →
    phase.left = some incoming.remainingQuantity →
      Machine.run (Phase.follow incoming.orderId) phase
          (reportsFrom br incoming env (takes Node.size incoming.remainingQuantity l)) =
        some (if takes Node.size incoming.remainingQuantity l = [] then phase
          else .after (unmet Node.size incoming.remainingQuantity l))
  | [], _, _, _, _, _, _ => rfl
  | n :: l, incoming, env, phase, hne, hsize, hleft => by
    have hn := hne n (List.mem_cons_self ..)
    have hl : ∀ m ∈ l, m.order.orderId ≠ incoming.orderId := fun m hm => hne m (List.mem_cons_of_mem _ hm)
    have hs : ∀ m ∈ l, m.size ≠ 0 := fun m hm => hsize m (List.mem_cons_of_mem _ hm)
    unfold takes unmet
    split
    · rfl
    next hq =>
      split
      next hle =>
        rw [if_neg (List.cons_ne_nil _ _), reportsFrom, Machine.run_append,
          follow_incoming br env hn hleft (hsize n (List.mem_cons_self ..)) hle, Option.bind_some]
        by_cases hzero : incoming.remainingQuantity - n.size = 0
        · -- the order is filled: there is no further match
          have hnil : takes Node.size (incoming.remainingQuantity - n.size) l = [] := takes_eq_nil.2 (.inl hzero)
          rw [hnil, unmet_of_takes_eq_nil hnil]
          rfl
        · have hopen : (Phase.after (incoming.remainingQuantity - n.size)).left =
              some (incoming.reduce n.size).remainingQuantity := by
            rw [Phase.after, if_neg hzero]
            rfl
          refine (follow_reportsFrom_incoming l (incoming.reduce n.size) env.afterMatch _ hl hs hopen).trans ?_
          rw [Order.reduce_remaining]
          split
          next hnil => rw [unmet_of_takes_eq_nil hnil]
          next => rfl
      next hle =>
        rw [if_neg (List.cons_ne_nil _ _), reportsFrom, Machine.run_append,
          follow_incoming br env hn hleft hq (Nat.le_refl _), Option.bind_some]
        simp [reportsFrom, Machine.run]

/-- What is left of an order among these, as its client sees it. -/
def Phase.ofLeft : Option Quantity → Phase
  | some q => .opened q
  | none => .closed

/-- A resting order that may be matched is executed once at most, down to what is left of it. -/
theorem follow_reportsFrom_resting (id : OrderID) : ∀ (l : List Node) (incoming : Order) (env : Env),
    (l.map fun n => n.order.orderId).Nodup → id ∈ l.map (fun n => n.order.orderId) →
    (∀ n ∈ l, n.order.orderId ≠ incoming.orderId) → (∀ n ∈ l, n.size ≠ 0) →
      Machine.run (Phase.follow id) (.ofLeft (quantityIn l id))
          (reportsFrom br incoming env (takes Node.size incoming.remainingQuantity l)) =
        some (.ofLeft (quantityIn (leftover Node.size Node.reduce incoming.remainingQuantity l) id))
  | [], _, _, _, h, _, _ => by cases h
  | n :: l, incoming, env, hd, h, hne, hsize => by
    rw [List.map_cons, List.nodup_cons] at hd
    have hn := hne n (List.mem_cons_self ..)
    have hl : ∀ m ∈ l, m.order.orderId ≠ incoming.orderId := fun m hm => hne m (List.mem_cons_of_mem _ hm)
    have hs : ∀ m ∈ l, m.size ≠ 0 := fun m hm => hsize m (List.mem_cons_of_mem _ hm)
    have hi : id ≠ incoming.orderId := by
      obtain ⟨m, hm, rfl⟩ := List.mem_map.1 h
      exact hne m hm
    have hopen : n.order.orderId = id → (Phase.ofLeft (quantityIn (n :: l) id)).left = some n.order.remainingQuantity := by
      intro hid
      rw [quantityIn_cons, if_pos hid]
      rfl
    unfold takes leftover
    split
    · rfl
    next hq =>
      split
      next hle =>
        rw [reportsFrom, Machine.run_append]
        by_cases hid : n.order.orderId = id
        · -- the order is filled, and no other order has its id
          subst hid
          have hnone : ∀ r ∈ reportsFrom br (incoming.reduce n.size) env.afterMatch
              (takes Node.size (incoming.remainingQuantity - n.size) l), r.orderId ≠ n.order.orderId := by
            intro r hr heq
            rcases reportsFrom_orderId br _ _ _ r hr with hr | ⟨t, ht, hr⟩
            · exact hi (heq.symm.trans hr)
            · refine hd.1 (List.mem_map.2 ⟨t.1, ?_, (heq.symm.trans hr).symm⟩)
              exact (takes_isPrefix _ l).subset (List.mem_map_of_mem ht)
          have hgone : quantityIn (leftover Node.size Node.reduce (incoming.remainingQuantity - n.size) l)
              n.order.orderId = none := by
            refine quantityIn_eq_none fun hmem => hd.1 ?_
            rw [map_leftover Node.reduce (fun m => m.order.orderId) (fun _ _ => rfl)
              (incoming.remainingQuantity - n.size) l]
            exact List.mem_append_right _ hmem
          have hzero : Phase.after (n.order.remainingQuantity - n.size) = .closed := by simp [Phase.after, Node.size]
          rw [follow_resting br env hn (hopen rfl) (hsize n (List.mem_cons_self ..)) (Nat.le_refl _), hzero,
            Option.bind_some, hgone]
          exact follow_none hnone
        · have hskip : ∀ r ∈ reportsOf br incoming n.order n.size env, r.orderId ≠ id :=
            fun _ => reportsOf_ne br env hi (Ne.symm hid)
          have hmem : id ∈ l.map fun n => n.order.orderId := (List.mem_cons.1 h).resolve_left fun heq => hid heq.symm
          rw [follow_none hskip, Option.bind_some, quantityIn_cons, if_neg hid]
          exact follow_reportsFrom_resting id l (incoming.reduce n.size) env.afterMatch hd.2 hmem hl hs
      next hle =>
        -- the last match: the first order has less, the others are as before
        rw [reportsFrom, Machine.run_append, quantityIn_cons]
        by_cases hid : n.order.orderId = id
        · subst hid
          have hlt : incoming.remainingQuantity < n.size := UInt32.not_le.1 hle
          have hpos : n.order.remainingQuantity - incoming.remainingQuantity ≠ 0 := Node.reduce_size_ne hlt
          rw [← quantityIn_cons]
          rw [follow_resting br env hn (hopen rfl) hq (UInt32.le_of_lt hlt), Option.bind_some, quantityIn_cons,
            if_pos (show (n.reduce incoming.remainingQuantity).order.orderId = n.order.orderId from rfl), Phase.after,
            if_neg hpos]
          rfl
        · have hskip : ∀ r ∈ reportsOf br incoming n.order incoming.remainingQuantity env, r.orderId ≠ id :=
            fun _ => reportsOf_ne br env hi (Ne.symm hid)
          rw [follow_none hskip, Option.bind_some, quantityIn_cons, if_neg hid,
            if_neg (show (n.reduce incoming.remainingQuantity).order.orderId ≠ id from hid)]
          rfl

end Matches

/-- An order that is matched has less left. -/
theorem unmet_ne_of_takes {q : Quantity} {l : List Node} (hsize : ∀ n ∈ l, n.size ≠ 0) (h : takes Node.size q l ≠ []) :
    unmet Node.size q l ≠ q := by
  cases l with
  | nil => exact absurd rfl h
  | cons n l =>
    have hq : q ≠ 0 := fun hq => h (takes_eq_nil.2 (.inl hq))
    have hn := hsize n (List.mem_cons_self ..)
    unfold unmet
    rw [if_neg hq]
    split
    next hle =>
      have hless := unmet_le (q - n.size) l
      grind
    next => exact hq.symm

/-! ## Submissions -/

/-- The client has left of the order what rests of it. -/
def Phase.Knows (phase : Phase) (b : BookState) (id : OrderID) : Prop :=
  ∀ q, phase = .opened q ↔ b.openQuantity id = some q

section Submission

variable {b : BookState} (hb : b.WF) (hu : b.IdsOk) (order : Order) (hfresh : ¬ b.Rests order.orderId) (env : Env)
include hb hu hfresh

/-- A submission keeps to the protocol of the submitted order. -/
theorem follow_submitted (hfull : order.remainingQuantity = order.quantity) :
    ∃ phase, Machine.run (Phase.follow order.orderId) (.asked order.quantity)
        (b.submitBranch (Branch.ofSide order.side) order {} env).result.executionReports = some phase ∧
      phase.Knows (b.submitBranch (Branch.ofSide order.side) order {} env).book order.orderId := by
  have hw := BookState.submitBranch_wf order {} env hb rfl
  have hv : (b.submitBranch (Branch.ofSide order.side) order {} env).book.IdsOk :=
    BookState.submitBranch_idsOk order {} env hb hu hfresh
  have hne : ∀ n ∈ b.eligible (Branch.ofSide order.side) order, n.order.orderId ≠ order.orderId :=
    fun n hn heq => hfresh ⟨_, n, (List.mem_filter.1 hn).1, heq⟩
  have hsize : ∀ n ∈ b.eligible (Branch.ofSide order.side) order, n.size ≠ 0 :=
    fun n hn => hb.sizes _ n (List.mem_filter.1 hn).1
  have hleft : (Phase.asked order.quantity).left = some order.remainingQuantity := by rw [hfull]; rfl
  obtain ⟨now, hreports⟩ := BookState.submitBranch_reports hb order {} env
  rw [hreports, List.nil_append, Machine.run_append]
  unfold BookState.taken
  rw [follow_reportsFrom_incoming _ _ order env _ hne hsize hleft, Option.bind_some]
  have hrem : (b.remainder order).remainingQuantity = unmet Node.size order.remainingQuantity
    (b.eligible (Branch.ofSide order.side) order) := rfl
  rw [← hrem]
  unfold BookState.remainderReport
  by_cases hq : (b.remainder order).remainingQuantity = 0
  · -- filled, or there was nothing to fill
    have hnot := BookState.not_rests_submitted hb order {} env hfresh fun h => h.1 hq
    have hnone : ¬ (b.remainder order).remainingQuantity > 0 := by rw [hq]; decide
    rw [if_neg hnone]
    refine ⟨_, rfl, fun q => ?_⟩
    rw [openQuantity_of_not_rests hw hnot, hq]
    split <;> simp [Phase.after]
  · rw [if_pos (quantity_pos.2 hq), BookState.remainder_type]
    by_cases ht : order.type = OrderType.limit
    · -- the remainder rests: `New` if nothing was matched, else as the last match reported it
      have hmem := (BookState.mem_submitBranch hb order {} env).2 (.inr ⟨hq, ht, rfl⟩)
      have hopen : _ = some (b.remainder order).remainingQuantity := openQuantity_of_mem hw hv hmem
      rw [BookState.remainder_orderId] at hopen
      refine ⟨.opened (b.remainder order).remainingQuantity, ?_, fun q => ?_⟩
      · rw [if_pos ht, BookState.remainder_quantity, ← hfull]
        split
        next hnil =>
          have hall : (b.remainder order).remainingQuantity = order.remainingQuantity := unmet_of_takes_eq_nil hnil
          rw [if_pos hall]
          simp [Machine.run, Phase.follow, Phase.next, newReport, hall]
        next hsome =>
          have hless : (b.remainder order).remainingQuantity ≠ order.remainingQuantity := unmet_ne_of_takes hsize hsome
          rw [if_neg hless, Phase.after, if_neg hq]
          rfl
      · rw [hopen]
        simp
    · have hnot := BookState.not_rests_submitted hb order {} env hfresh fun h => ht h.2
      refine ⟨.closed, ?_, fun q => ?_⟩
      · rw [if_neg ht]
        split
        · simp [Machine.run, Phase.follow, Phase.next, expiryReport, Phase.left]
        · simp [Machine.run, Phase.follow, Phase.next, expiryReport, Phase.left, Phase.after, hq]
      · rw [openQuantity_of_not_rests hw hnot]
        simp

/-- A submission keeps to the protocols of the other orders. -/
theorem follow_others {id : OrderID} (hid : id ≠ order.orderId) {phase : Phase} (hknows : phase.Knows b id) :
    ∃ phase', Machine.run (Phase.follow id) phase
        (b.submitBranch (Branch.ofSide order.side) order {} env).result.executionReports = some phase' ∧
      phase'.Knows (b.submitBranch (Branch.ofSide order.side) order {} env).book id := by
  have hne : ∀ n ∈ b.eligible (Branch.ofSide order.side) order, n.order.orderId ≠ order.orderId :=
    fun n hn heq => hfresh ⟨_, n, (List.mem_filter.1 hn).1, heq⟩
  have hsize : ∀ n ∈ b.eligible (Branch.ofSide order.side) order, n.size ≠ 0 :=
    fun n hn => hb.sizes _ n (List.mem_filter.1 hn).1
  obtain ⟨now, hreports⟩ := BookState.submitBranch_reports hb order {} env
  have hlast : ∀ r ∈ BookState.remainderReport (b.remainder order) now, r.orderId ≠ id := by
    intro r hr
    rcases (BookState.mem_remainderReport.1 hr).2 with ⟨-, -, rfl⟩ | ⟨-, rfl⟩
    · exact hid.symm
    · exact hid.symm
  rw [hreports, List.nil_append, Machine.run_append]
  unfold BookState.taken
  by_cases hel : id ∈ (b.eligible (Branch.ofSide order.side) order).map fun n => n.order.orderId
  · have hd : ((b.eligible (Branch.ofSide order.side) order).map fun n => n.order.orderId).Nodup :=
      (List.nodup_append.1 (hu.nodup _)).1.sublist (List.filter_sublist.map _)
    have hbefore : phase = .ofLeft (quantityIn (b.eligible (Branch.ofSide order.side) order) id) := by
      obtain ⟨m, hm, rfl⟩ := List.mem_map.1 hel
      rw [quantityIn_of_mem hd hm]
      exact (hknows m.size).2 (openQuantity_of_mem hb hu (List.mem_filter.1 hm).1)
    refine ⟨.ofLeft (quantityIn (leftover Node.size Node.reduce order.remainingQuantity
      (b.eligible (Branch.ofSide order.side) order)) id), ?_, fun q => ?_⟩
    · rw [hbefore, follow_reportsFrom_resting _ id _ order env hd hel hne hsize, Option.bind_some]
      exact follow_none hlast
    · rw [openQuantity_eligible hb hu order hfresh env hid hel]
      cases quantityIn (leftover Node.size Node.reduce order.remainingQuantity
        (b.eligible (Branch.ofSide order.side) order)) id with
      | none => simp [Phase.ofLeft]
      | some r => simp [Phase.ofLeft]
  · have hskip : ∀ r ∈ reportsFrom (Branch.ofSide order.side) order env
        (takes Node.size order.remainingQuantity (b.eligible (Branch.ofSide order.side) order)), r.orderId ≠ id := by
      rintro r hr rfl
      rcases reportsFrom_orderId _ _ _ _ r hr with hr | ⟨t, ht, hr⟩
      · exact hid hr
      · refine hel (List.mem_map.2 ⟨t.1, ?_, hr.symm⟩)
        exact (takes_isPrefix _ _).subset (List.mem_map_of_mem ht)
    refine ⟨phase, ?_, fun q => ?_⟩
    · rw [follow_none hskip, Option.bind_some, follow_none hlast]
    · rw [openQuantity_not_eligible hb hu order hfresh env hid hel]
      exact hknows q

end Submission

/-! ## Runs -/

section Event

variable {b : OrderBook} {op : Op} (hu : b.IdsOk) (env : Env) {id : OrderID} {phase : Phase}

theorem ask_of_not_opened (h : ∀ q, phase ≠ .opened q) (request : ModifyRequest) :
    phase.ask id (.modify request) = phase := by
  cases phase with
  | opened q => exact absurd rfl (h q)
  | _ => rfl

theorem ask_of_ne {request : ModifyRequest} (h : request.orderId ≠ id) : phase.ask id (.modify request) = phase := by
  cases phase with
  | opened q => exact if_neg h
  | _ => rfl

include hu

/-- Every operation keeps to the protocol of every order. -/
theorem event_follows (hfresh : ∀ order, op = .submit order → ¬ b.Rests order.orderId ∧
    order.remainingQuantity = order.quantity) (hknows : phase.Knows b.toBookState id) :
    ∃ phase', phase.event id (b.event op env) = some phase' ∧ phase'.Knows (b.event op env).after.toBookState id := by
  obtain ⟨o, ho, hbook, hresult, -⟩ := b.applies op env
  unfold Phase.event OrderBook.event
  simp only
  rw [hbook, hresult]
  cases ho with
  | submit order =>
    obtain ⟨hnew, hfull⟩ := hfresh order rfl
    by_cases hid : order.orderId = id
    · subst hid
      rw [Phase.ask, if_pos rfl]
      exact follow_submitted b.wf hu order hnew env hfull
    · rw [Phase.ask, if_neg hid]
      exact follow_others b.wf hu order hnew env (Ne.symm hid) hknows
  | cancelMiss id' hi => exact ⟨phase, rfl, hknows⟩
  | cancel br n hn hi =>
    by_cases hid : n.order.orderId = id
    · subst hid
      have hopen : phase = .opened n.size := (hknows _).2 (openQuantity_of_mem b.wf hu hn)
      refine ⟨.closed, ?_, fun q => ?_⟩
      · rw [hopen]
        simp [Phase.ask, MatchResult.report, Machine.run, Phase.follow, Phase.next, BookState.cancelReport, Phase.left]
      · rw [openQuantity_without b.wf hu hn, if_pos rfl]
        simp
    · refine ⟨phase, follow_none fun r hr => ?_, fun q => ?_⟩
      · rw [List.mem_singleton.1 hr]
        exact hid
      · rw [openQuantity_without b.wf hu hn, if_neg (Ne.symm hid)]
        exact hknows q
  | modifyMiss request hi =>
    refine ⟨phase.ask id (.modify request), rfl, ?_⟩
    by_cases hid : request.orderId = id
    · -- the order is not there, and the client knows it
      subst hid
      have hgone : ¬ b.Rests request.orderId := by
        rw [BookState.rests_iff b.wf hu, hi]
        simp
      rw [ask_of_not_opened]
      · exact hknows
      · intro q hq
        have hsome := (hknows q).1 hq
        rw [openQuantity_of_not_rests b.wf hgone] at hsome
        cases hsome
    · rw [ask_of_ne hid]
      exact hknows
  | modify br n request hn hid hi =>
    have hwf := BookState.without_wf b.wf hn
    have hids := BookState.without_idsOk b.wf hu hn
    have hgone : ¬ (b.without br n).Rests (BookState.modified n.order request).orderId :=
      BookState.not_rests_without b.wf hu hn
    have hside := b.wf.modified_side hn request
    by_cases hsame : n.order.orderId = id
    · subst hsame
      have hopen : phase = .opened n.size := (hknows _).2 (openQuantity_of_mem b.wf hu hn)
      have hask : phase.ask n.order.orderId (.modify request) = .asked request.quantity := by
        rw [hopen]
        exact if_pos hid.symm
      have hsub := follow_submitted hwf hids (BookState.modified n.order request) hgone env rfl
      rw [hside] at hsub
      rw [hask]
      exact hsub
    · have hknows' : phase.Knows (b.without br n) id := by
        intro q
        rw [openQuantity_without b.wf hu hn, if_neg (Ne.symm hsame)]
        exact hknows q
      have hsub := follow_others hwf hids (BookState.modified n.order request) hgone env (Ne.symm hsame) hknows'
      rw [hside] at hsub
      rw [ask_of_ne fun h => hsame (hid.trans h)]
      exact hsub

end Event

/-- The open quantity of an order is that of its node. -/
theorem openQuantity_eq_some {b : BookState} (hb : b.WF) (hu : b.IdsOk) {id : OrderID} {q : Quantity} :
    b.openQuantity id = some q ↔ ∃ br, ∃ n ∈ b.nodes br, n.order.orderId = id ∧ n.order.remainingQuantity = q := by
  constructor
  · intro h
    by_cases hr : b.Rests id
    · obtain ⟨br, n, hn, rfl⟩ := hr
      rw [openQuantity_of_mem hb hu hn] at h
      exact ⟨br, n, hn, rfl, Option.some.inj h⟩
    · rw [openQuantity_of_not_rests hb hr] at h
      cases h
  · rintro ⟨br, n, hn, rfl, rfl⟩
    exact openQuantity_of_mem hb hu hn

theorem run_follows (symbol : Symbol) (env : Env) (ops : List Op) (hfresh : FreshIds ops)
    (hfull : ∀ order, .submit order ∈ ops → order.remainingQuantity = order.quantity) (id : OrderID) :
    ∃ phase, Machine.run (Phase.event id) .unknown (run symbol env ops).events = some phase ∧
      phase.Knows (run symbol env ops).book.toBookState id := by
  refine run_induction (P := fun ops r => FreshIds ops → (∀ order, .submit order ∈ ops →
    order.remainingQuantity = order.quantity) → ∃ phase, Machine.run (Phase.event id) .unknown r.events = some phase ∧
      phase.Knows r.book.toBookState id) ?_ ?_ ops hfresh hfull
  · intro _ _
    refine ⟨.unknown, rfl, fun q => ?_⟩
    constructor
    · rintro ⟨⟩
    · rintro ⟨⟩
  · intro ops op ih hfresh hfull
    obtain ⟨phase, hrun, hknows⟩ := ih hfresh.init fun order ho => hfull order (List.mem_append_left _ ho)
    obtain ⟨hu, hsubmitted⟩ := run_idsOk symbol env ops hfresh.init
    have hnew : ∀ order, op = .submit order → ¬ (run symbol env ops).book.Rests order.orderId ∧
        order.remainingQuantity = order.quantity := by
      rintro order rfl
      refine ⟨fun hr => hfresh.last (hsubmitted _ hr), hfull order ?_⟩
      exact List.mem_append_right _ (List.mem_singleton_self _)
    obtain ⟨phase', hevent, hknows'⟩ := event_follows hu (run symbol env ops).env hnew hknows
    refine ⟨phase', ?_, hknows'⟩
    show Machine.run _ _ ((run symbol env ops).events ++ [_]) = _
    rw [Machine.run_append, hrun, Option.bind_some, Machine.run, hevent]
    rfl

/-- In every run of submissions with fresh ids, cancels and arbitrary modifies, the reports of every order keep to the
protocol, and a client that has followed them and its own requests has left of the order exactly what rests in the
book. -/
theorem reports_follow_protocol (symbol : Symbol) (env : Env) (ops : List Op) (hfresh : FreshIds ops)
    (hfull : ∀ order, .submit order ∈ ops → order.remainingQuantity = order.quantity) (id : OrderID) :
    ∃ phase, Machine.run (Phase.event id) .unknown (run symbol env ops).events = some phase ∧
      ∀ q, phase = .opened q ↔ ∃ br, ∃ n ∈ (run symbol env ops).book.nodes br,
        n.order.orderId = id ∧ n.order.remainingQuantity = q := by
  obtain ⟨phase, hrun, hknows⟩ := run_follows symbol env ops hfresh hfull id
  refine ⟨phase, hrun, fun q => (hknows q).trans ?_⟩
  exact openQuantity_eq_some (run symbol env ops).book.wf (run_idsOk symbol env ops hfresh).1

/-- An order that is filled in part, modified, and then filled by two orders. -/
def reworked : List Op :=
  [.submit { orderId := 1, side := .sell, price := 10, quantity := 5, remainingQuantity := 5 },
    .submit { orderId := 2, price := 10, quantity := 2, remainingQuantity := 2 },
    .modify { orderId := 1, price := 11, quantity := 4 },
    .submit { orderId := 3, price := 12, quantity := 3, remainingQuantity := 3 },
    .submit { orderId := 4, price := 12, quantity := 3, remainingQuantity := 3 },
    .cancel 1]

theorem reports_follow_protocol_reworked : Machine.run (Phase.event 1) .unknown
      (run [] ⟨1, fun _ => 0, 0⟩ reworked).events = some .closed ∧
    Machine.run (Phase.event 4) .unknown (run [] ⟨1, fun _ => 0, 0⟩ reworked).events = some (.opened 2) ∧
    ∃ br, ∃ n ∈ (run [] ⟨1, fun _ => 0, 0⟩ reworked).book.nodes br,
      n.order.orderId = 4 ∧ n.order.remainingQuantity = 2 := by
  have hopened : Machine.run (Phase.event 4) .unknown (run [] ⟨1, fun _ => 0, 0⟩ reworked).events =
    some (.opened 2) := by decide +kernel
  obtain ⟨phase, hrun, hopen⟩ := reports_follow_protocol [] ⟨1, fun _ => 0, 0⟩ reworked (by decide)
    (by simp [reworked]) 4
  refine ⟨by decide +kernel, hopened, ?_⟩
  exact (hopen 2).1 (Option.some.inj (hrun.symm.trans hopened))

end StockExchange
