/-
What the reports of an order add up to. In a run of submissions and cancels, the quantity of an order that has left
the book should be the sum of `last_qty` over its reports and the remaining quantity of its last report. A filled
order and an expired one keep to this; the report of `cancelOrder` leaves its remaining quantity at zero, so
exactly the orders that a cancel takes out of the book do not (`reports_account_iff`).
-/
import StockExchange.Engine.Ledger
import StockExchange.Engine.Reports

namespace StockExchange

open Greedy

/-! ## Totals of reports -/

/-- The quantity that reports state as traded, of an id. -/
def reportedQty (reports : List ExecutionReport) (id : OrderID) : ℕ :=
  (reports.map fun r => if r.orderId = id then r.lastQty.toNat else 0).sum

section Totals

variable (l l' : List ExecutionReport) (id : OrderID)

theorem reportedQty_append : reportedQty (l ++ l') id = reportedQty l id + reportedQty l' id := by
  unfold reportedQty
  rw [List.map_append, List.sum_append]

theorem lastReport_append : lastReport (l ++ l') id = (lastReport l' id).or (lastReport l id) := by
  unfold lastReport
  rw [List.filter_append, List.getLast?_append]

variable {l l' id}

theorem lastReport_eq_none : lastReport l id = none ↔ ∀ r ∈ l, r.orderId ≠ id := by
  unfold lastReport
  rw [List.getLast?_eq_none_iff, List.filter_eq_nil_iff]
  simp

theorem mem_of_lastReport {r : ExecutionReport} (h : lastReport l id = some r) : r ∈ l ∧ r.orderId = id := by
  have hmem := List.mem_filter.1 (List.mem_of_getLast? h)
  exact ⟨hmem.1, by simpa using hmem.2⟩

theorem totals_of_lastReport_none (h : lastReport l id = none) : reportedQty l id = 0 ∧ expired l id = 0 := by
  rw [lastReport_eq_none] at h
  constructor
  · refine List.sum_eq_zero fun q hq => ?_
    obtain ⟨r, hr, rfl⟩ := List.mem_map.1 hq
    exact if_neg (h r hr)
  · refine List.sum_eq_zero fun q hq => ?_
    obtain ⟨r, hr, rfl⟩ := List.mem_map.1 hq
    exact if_neg fun h' => h r hr h'.1

end Totals

/-! ## The reports of a submission -/

/-- The two reports of a match state its quantity once for each of the two orders. -/
theorem reportedQty_reportsFrom (br : Branch) (symbol : Symbol) (incoming : Order) (id : OrderID) :
    ∀ (ts : List (Node × Quantity)) (reduced : Order) (env : Env), reduced.orderId = incoming.orderId →
      (∀ t ∈ ts, t.1.order.orderId ≠ incoming.orderId) →
      reportedQty (reportsFrom br reduced env ts) id = filledBy (fillsFrom br symbol incoming env ts) id
  | [], _, _, _, _ => rfl
  | t :: ts, reduced, env, hid, hne => by
    have ih := reportedQty_reportsFrom br symbol incoming id ts (reduced.reduce t.2) env.afterMatch hid
      fun t' ht' => hne t' (List.mem_cons_of_mem _ ht')
    have ht := hne t (List.mem_cons_self ..)
    rw [reportsFrom, reportedQty_append, ih, fillsFrom, filledBy, filledBy, List.map_cons, List.sum_cons]
    congr 1
    -- the orders of a match differ, so an id is in one of its reports at most
    cases br with
    | buy =>
      by_cases hi : incoming.orderId = id
      · have hr : ¬ t.1.order.orderId = id := fun h => ht (h.trans hi.symm)
        simp [reportedQty, reportsOf, matchReport, fillOf, Branch.buyOf, Branch.sellOf, hid, hi, hr]
      · simp [reportedQty, reportsOf, matchReport, fillOf, Branch.buyOf, Branch.sellOf, hid, hi]
    | sell =>
      by_cases hi : incoming.orderId = id
      · have hr : ¬ t.1.order.orderId = id := fun h => ht (h.trans hi.symm)
        simp [reportedQty, reportsOf, matchReport, fillOf, Branch.buyOf, Branch.sellOf, hid, hi, hr]
      · simp [reportedQty, reportsOf, matchReport, fillOf, Branch.buyOf, Branch.sellOf, hid, hi]

/-- The reports of the matches are about the incoming order and the orders it takes from, and one that closes its order
states that nothing remains. -/
theorem mem_reportsFrom (br : Branch) {r : ExecutionReport} : ∀ (ts : List (Node × Quantity)) (incoming : Order) (env : Env),
    r ∈ reportsFrom br incoming env ts →
      (r.orderId = incoming.orderId ∨ ∃ t ∈ ts, r.orderId = t.1.order.orderId) ∧ (¬ r.Open → r.remainingQuantity = 0)
  | [], _, _, h => by cases h
  | t :: ts, incoming, env, h => by
    have hmatch : ∀ (o : Order) (q : Quantity) (px : Price) (now : Timestamp), ¬ (matchReport o q px now).Open →
        o.remainingQuantity = 0 := by
      intro o q px now hclosed
      by_contra hne
      exact hclosed (.inr (if_neg hne))
    rcases List.mem_append.1 h with h | h
    · have hid : r.orderId = incoming.orderId ∨ r.orderId = t.1.order.orderId := by
        unfold reportsOf at h
        cases br with
        | buy => rcases List.mem_pair.1 h with rfl | rfl <;> simp [matchReport, Branch.buyOf, Branch.sellOf]
        | sell => rcases List.mem_pair.1 h with rfl | rfl <;> simp [matchReport, Branch.buyOf, Branch.sellOf]
      refine ⟨hid.imp_right fun hr => ⟨t, List.mem_cons_self .., hr⟩, fun hclosed => ?_⟩
      rcases List.mem_pair.1 h with rfl | rfl
      · exact hmatch _ _ _ _ hclosed
      · exact hmatch _ _ _ _ hclosed
    · obtain ⟨hid, hclosed⟩ := mem_reportsFrom br ts (incoming.reduce t.2) env.afterMatch h
      refine ⟨?_, hclosed⟩
      rcases hid with hid | ⟨t', ht', hr⟩
      · exact .inl hid
      · exact .inr ⟨t', List.mem_cons_of_mem _ ht', hr⟩

section Submission

variable {b : BookState} (hb : b.WF) (order : Order) (env : Env)

theorem taken_rests {t : Node × Quantity} (ht : t ∈ b.taken order) : b.Rests t.1.order.orderId := by
  have hmem := (takes_isPrefix order.remainingQuantity (b.eligible (Branch.ofSide order.side) order)).subset
    (List.mem_map_of_mem ht)
  exact ⟨_, t.1, (List.mem_filter.1 hmem).1, rfl⟩

include hb

theorem submitBranch_reportedQty (hfresh : ¬ b.Rests order.orderId) (id : OrderID) :
    reportedQty (b.submitBranch (Branch.ofSide order.side) order {} env).result.executionReports id =
      filledBy (b.submitBranch (Branch.ofSide order.side) order {} env).result.fills id := by
  obtain ⟨now, hreports⟩ := BookState.submitBranch_reports hb order {} env
  have hrest : reportedQty (BookState.remainderReport (b.remainder order) now) id = 0 := by
    unfold BookState.remainderReport
    split
    · split
      · split
        · simp [reportedQty, newReport]
        · rfl
      · simp [reportedQty, expiryReport]
    · rfl
  rw [hreports, reportedQty_append, reportedQty_append, hrest, BookState.submitBranch_fills hb]
  rw [reportedQty_reportsFrom _ b.symbol order id _ order env rfl fun t ht heq => ?_]
  · rw [List.nil_append, Nat.add_zero]
    exact Nat.zero_add _
  · exact hfresh (heq ▸ taken_rests order ht)

/-- A submission reports on the submitted order and on resting ones. -/
theorem submitBranch_reports_id {r : ExecutionReport}
    (hr : r ∈ (b.submitBranch (Branch.ofSide order.side) order {} env).result.executionReports) :
    r.orderId = order.orderId ∨ b.Rests r.orderId := by
  obtain ⟨now, hreports⟩ := BookState.submitBranch_reports hb order {} env
  rw [hreports, List.nil_append] at hr
  rcases List.mem_append.1 hr with hr | hr
  · rcases (mem_reportsFrom _ _ _ _ hr).1 with hid | ⟨t, ht, hid⟩
    · exact .inl hid
    · exact .inr (hid ▸ taken_rests order ht)
  · rcases (BookState.mem_remainderReport.1 hr).2 with ⟨-, -, rfl⟩ | ⟨-, rfl⟩
    · exact .inl rfl
    · exact .inl rfl

/-- Only what is left of an order that may not rest is reported as expired. -/
theorem submitBranch_expired (id : OrderID) :
    expired (b.submitBranch (Branch.ofSide order.side) order {} env).result.executionReports id =
      if order.type ≠ OrderType.limit ∧ order.orderId = id then (b.remainder order).remainingQuantity.toNat else 0 := by
  obtain ⟨now, hreports⟩ := BookState.submitBranch_reports hb order {} env
  rw [hreports, expired_append, expired_append, expired_reportsFrom, expired_remainderReport]
  exact Nat.zero_add _

/-- A last report that closes an order states what of it is dropped: nothing after a match, the remainder if it
expires. -/
theorem submitBranch_closing {id : OrderID} {r : ExecutionReport}
    (hlast : lastReport (b.submitBranch (Branch.ofSide order.side) order {} env).result.executionReports id = some r)
    (hclosed : ¬ r.Open) : r.remainingQuantity.toNat =
      expired (b.submitBranch (Branch.ofSide order.side) order {} env).result.executionReports id := by
  obtain ⟨now, hreports⟩ := BookState.submitBranch_reports hb order {} env
  rw [submitBranch_expired hb]
  rw [hreports, List.nil_append, lastReport_append] at hlast
  unfold BookState.remainderReport at hlast
  have hmatch : lastReport (reportsFrom (Branch.ofSide order.side) order env (b.taken order)) id = some r →
      r.remainingQuantity.toNat = 0 := fun h => by
    rw [(mem_reportsFrom _ _ _ _ (mem_of_lastReport h).1).2 hclosed]
    rfl
  split at hlast
  next hpos =>
    split at hlast
    next ht =>
      rw [if_neg fun h => h.1 ht]
      split at hlast
      next =>
        by_cases hid : order.orderId = id
        · -- `New` leaves the order open
          have hnew : lastReport [newReport (b.remainder order) now] id = some (newReport (b.remainder order) now) := by
            simp [lastReport, newReport, hid]
          rw [hnew, Option.some_or] at hlast
          cases hlast
          exact absurd (.inl rfl) hclosed
        · have hnone : lastReport [newReport (b.remainder order) now] id = none := by simp [lastReport, newReport, hid]
          rw [hnone, Option.none_or] at hlast
          exact hmatch hlast
      next => exact hmatch hlast
    next ht =>
      by_cases hid : order.orderId = id
      · have hexpiry : lastReport [expiryReport (b.remainder order) now] id = some (expiryReport (b.remainder order) now) := by
          simp [lastReport, expiryReport, hid]
        rw [hexpiry, Option.some_or] at hlast
        cases hlast
        rw [if_pos ⟨ht, hid⟩]
        rfl
      · have hnone : lastReport [expiryReport (b.remainder order) now] id = none := by simp [lastReport, expiryReport, hid]
        rw [hnone, Option.none_or] at hlast
        rw [if_neg fun h => hid h.2]
        exact hmatch hlast
  next hpos =>
    have hzero : (b.remainder order).remainingQuantity = 0 := by
      by_contra hne
      exact hpos (quantity_pos.2 hne)
    rw [hzero]
    simpa using hmatch hlast

end Submission

/-! ## Events -/

/-- A cancel that finds the order of the id. -/
def Event.CancelsResting (e : Event) (id : OrderID) : Prop := e.op = .cancel id ∧ e.before.Rests id

/-- What a cancel takes of the id out of the book. -/
def Event.cancelledQty (e : Event) (id : OrderID) : ℕ :=
  match e.op with
  | .cancel id' => if id' = id then e.before.remaining id else 0
  | _ => 0

theorem cancelledQty_eq_zero {b : OrderBook} (hu : b.IdsOk) {op : Op} (env : Env) {id : OrderID} :
    (b.event op env).cancelledQty id = 0 ↔ ¬ (b.event op env).CancelsResting id := by
  unfold OrderBook.event Event.cancelledQty Event.CancelsResting
  cases op with
  | submit order => exact iff_of_true rfl fun h => by cases h.1
  | modify request => exact iff_of_true rfl fun h => by cases h.1
  | cancel id' =>
    by_cases hid : id' = id
    · subst hid
      simp only [if_true, true_and]
      exact ⟨fun h hr => absurd h (BookState.remaining_pos b.wf hu hr).ne', BookState.remaining_eq_zero b.wf⟩
    · simp [hid]

/-- What a submission or a cancel reports. -/
structure Event.Reported (e : Event) : Prop where
  /-- The reports are of the submitted order and of orders that rest. -/
  about : ∀ r ∈ e.result.executionReports, r.orderId ∈ submittedIds [e.op] ∨ e.before.Rests r.orderId
  submitted : ∀ order, e.op = .submit order → lastReport e.result.executionReports order.orderId ≠ none
  traded : ∀ id, reportedQty e.result.executionReports id = filledBy e.result.fills id
  dropped : ∀ id, e.dropped id = expired e.result.executionReports id + e.cancelledQty id
  /-- A last report that closes the order states what has expired of it. -/
  closing : ∀ id r, lastReport e.result.executionReports id = some r → ¬ r.Open →
    r.remainingQuantity.toNat = expired e.result.executionReports id
  resting : ∀ id, e.after.Rests id → expired e.result.executionReports id = 0

theorem foldl_see_of_ne {id : OrderID} (seen : Option Quantity) : ∀ {l : List ExecutionReport}, (∀ r ∈ l, r.orderId ≠ id) →
    l.foldl (see id) seen = seen
  | [], _ => rfl
  | r :: l, h => by
    rw [List.foldl_cons, see, if_neg (h r (List.mem_cons_self ..))]
    exact foldl_see_of_ne seen fun r' hr' => h r' (List.mem_cons_of_mem _ hr')

/-- A submission reports on the submitted order: what a client has seen of it before does not matter. -/
theorem submitBranch_told {b : BookState} (hb : b.WF) (hu : b.IdsOk) (order : Order) (hfresh : ¬ b.Rests order.orderId)
    (hfull : order.remainingQuantity = order.quantity) (hpos : order.quantity ≠ 0) (env : Env) :
    lastReport (b.submitBranch (Branch.ofSide order.side) order {} env).result.executionReports order.orderId ≠ none := by
  intro hnone
  rw [lastReport_eq_none] at hnone
  have hseen : ∀ seen, seen =
      (b.submitBranch (Branch.ofSide order.side) order {} env).book.openQuantity order.orderId := by
    intro seen
    rw [← see_submitted hb hu order hfresh env hfull (by rw [hfull]; exact hpos) seen, foldl_see_of_ne seen hnone]
  cases (hseen none).trans (hseen (some 0)).symm

theorem event_reported {b : OrderBook} (hu : b.IdsOk) {op : Op} (env : Env) (hop : ∀ request, op ≠ .modify request)
    (hfresh : ∀ order, op = .submit order → ¬ b.Rests order.orderId ∧ order.remainingQuantity = order.quantity ∧
      order.quantity ≠ 0) : (b.event op env).Reported := by
  obtain ⟨o, ho, hbook, hresult, -⟩ := b.applies op env
  have hafter : (b.event op env).after.toBookState = o.book := hbook
  have hevent : (b.event op env).result = o.result := hresult
  cases ho with
  | submit order =>
    obtain ⟨hnew, hfull, hpos⟩ := hfresh order rfl
    refine ⟨fun r hr => ?_, ?_, fun id => ?_, fun id => rfl, fun id r hlast hclosed => ?_, fun id hrests => ?_⟩
    · rw [hevent] at hr
      refine (submitBranch_reports_id b.wf order env hr).imp_left fun hid => ?_
      rw [hid]
      exact List.mem_singleton_self _
    · rintro _ ⟨⟩
      rw [hevent]
      exact submitBranch_told b.wf hu order hnew hfull hpos env
    · rw [hevent]
      exact submitBranch_reportedQty b.wf order env hnew id
    · rw [hevent] at hlast ⊢
      exact submitBranch_closing b.wf order env hlast hclosed
    · rw [hafter] at hrests
      rw [hevent, submitBranch_expired b.wf]
      refine if_neg ?_
      rintro ⟨ht, rfl⟩
      exact BookState.not_rests_submitted b.wf order {} env hnew (fun h => ht h.2) hrests
  | cancelMiss id hi =>
    refine ⟨fun r hr => ?_, ?_, fun id => ?_, fun id => ?_, fun id r hlast => ?_, fun id _ => ?_⟩
    · rw [hevent] at hr
      cases hr
    · rintro _ ⟨⟩
    · rw [hevent]
      rfl
    · rw [hevent]
      exact (Nat.zero_add _).symm
    · rw [hevent] at hlast
      cases hlast
    · rw [hevent]
      rfl
  | cancel br n hn hi =>
    -- the one report has neither a traded nor a remaining quantity
    have hexpired : ∀ id, expired (b.event (.cancel n.order.orderId) env).result.executionReports id = 0 := by
      intro id
      rw [hevent]
      simp [expired, MatchResult.report, BookState.cancelReport]
    refine ⟨fun r hr => ?_, ?_, fun id => ?_, fun id => ?_, fun id r hlast _ => ?_, fun id _ => hexpired id⟩
    · rw [hevent] at hr
      rw [show r = _ from List.mem_singleton.1 hr]
      exact .inr ⟨br, n, hn, rfl⟩
    · rintro _ ⟨⟩
    · rw [hevent]
      simp [reportedQty, MatchResult.report, BookState.cancelReport, filledBy]
    · rw [hexpired]
      exact (Nat.zero_add _).symm
    · rw [hexpired]
      rw [hevent] at hlast
      rw [show r = _ from List.mem_singleton.1 (mem_of_lastReport hlast).1]
      rfl
  | modifyMiss request hi => exact absurd rfl (hop request)
  | modify br n request hn hid hi => exact absurd rfl (hop request)

/-! ## Runs -/

theorem mem_submittedIds {ops : List Op} {order : Order} (h : .submit order ∈ ops) : order.orderId ∈ submittedIds ops :=
  List.mem_filterMap.2 ⟨_, h, rfl⟩

/-- What the reports of a run tell: of every submitted order and of no other, whether it rests, and of one that
does not rest what has expired of it. -/
structure Run.Told (ops : List Op) (r : Run) : Prop where
  told : ∀ id, lastReport r.reports id ≠ none ↔ id ∈ submittedIds ops
  seen : ∀ id, r.reports.foldl (see id) none = r.book.openQuantity id
  closing : ∀ id last, lastReport r.reports id = some last → ¬ last.Open →
    last.remainingQuantity.toNat = expired r.reports id
  resting : ∀ id, r.book.Rests id → expired r.reports id = 0

/-- The quantity of a submitted order is what its reports state as traded and as expired, what cancels took of it and
what rests. -/
structure Run.Accounted (ops : List Op) (r : Run) : Prop where
  balance : ∀ order, .submit order ∈ ops → order.quantity.toNat = reportedQty r.reports order.orderId +
    expired r.reports order.orderId + (r.events.map fun e => e.cancelledQty order.orderId).sum +
    r.book.remaining order.orderId
  cancelled : ∀ id, (r.events.map fun e => e.cancelledQty id).sum = 0 ↔ ∀ e ∈ r.events, ¬ e.CancelsResting id
  untouched : ∀ id, id ∉ submittedIds ops → (r.events.map fun e => e.cancelledQty id).sum = 0

section Step

variable {ops : List Op} {r : Run} {op : Op} (ht : r.Told ops) (hu : r.book.IdsOk)
  (hsub : ∀ id, r.book.Rests id → id ∈ submittedIds ops) (hfresh : FreshIds (ops ++ [op]))
  (hfull : ∀ order, op = .submit order → order.remainingQuantity = order.quantity ∧ order.quantity ≠ 0)
  (hop : ∀ request, op ≠ .modify request)
include ht

/-- Nothing has been reported of an order that is not submitted yet. -/
theorem Run.Told.fresh {id : OrderID} (hid : id ∉ submittedIds ops) : lastReport r.reports id = none := by
  by_contra hne
  exact hid ((ht.told id).1 hne)

include hfresh

/-- An id on which an event reports: nothing of it has expired so far. -/
theorem Run.Told.expired_eq_zero {id : OrderID} (h : id ∈ submittedIds [op] ∨ r.book.Rests id) :
    expired r.reports id = 0 := by
  rcases h with hid | hr
  · have hnew : id ∉ submittedIds ops := by
      unfold FreshIds at hfresh
      rw [submittedIds_snoc] at hfresh
      exact fun hold => (List.nodup_append.1 hfresh).2.2 id hold id hid rfl
    exact (totals_of_lastReport_none (ht.fresh hnew)).2
  · exact ht.resting id hr

include hu hsub hfull hop

theorem Run.Told.step : (r.step op).Told (ops ++ [op]) := by
  have hnew : ∀ order, op = .submit order → ¬ r.book.Rests order.orderId ∧ order.remainingQuantity = order.quantity ∧
      order.quantity ≠ 0 := by
    rintro order rfl
    exact ⟨fun hr => hfresh.last (hsub _ hr), hfull order rfl⟩
  have hevent := event_reported hu r.env hop hnew
  have hsee := (event_reports r.book hu op r.env hnew).2 fun ⟨request, heq, _⟩ => hop request heq
  refine ⟨fun id => ?_, fun id => ?_, fun id last hlast hclosed => ?_, fun id hr => ?_⟩
  · rw [Run.step_reports, lastReport_append, submittedIds_snoc, List.mem_append, ← ht.told id]
    constructor
    · intro hne
      cases hlast : lastReport (r.book.event op r.env).result.executionReports id with
      | none =>
        rw [hlast, Option.none_or] at hne
        exact .inl hne
      | some rep =>
        obtain ⟨hmem, rfl⟩ := mem_of_lastReport hlast
        rcases hevent.about rep hmem with hid | hr
        · exact .inr hid
        · exact .inl ((ht.told _).2 (hsub _ hr))
    · rintro (hne | hid)
      · cases lastReport (r.book.event op r.env).result.executionReports id with
        | none => rwa [Option.none_or]
        | some rep => simp
      · cases op with
        | submit order =>
          rw [show id = order.orderId from List.mem_singleton.1 hid]
          obtain ⟨rep, hrep⟩ := Option.ne_none_iff_exists'.1 (hevent.submitted order rfl)
          rw [hrep]
          simp
        | cancel _ => cases hid
        | modify _ => cases hid
  · rw [Run.step_reports, List.foldl_append, ht.seen id]
    exact hsee id
  · rw [Run.step_reports, lastReport_append] at hlast
    rw [Run.step_reports, expired_append]
    cases hnow : lastReport (r.book.event op r.env).result.executionReports id with
    | none =>
      rw [hnow, Option.none_or] at hlast
      rw [ht.closing id last hlast hclosed, (totals_of_lastReport_none hnow).2]
      rfl
    | some rep =>
      -- the event reports on the order, of which nothing has expired before
      rw [hnow, Option.some_or] at hlast
      cases hlast
      obtain ⟨hmem, rfl⟩ := mem_of_lastReport hnow
      rw [ht.expired_eq_zero hfresh (hevent.about _ hmem), hevent.closing _ _ hnow hclosed, Nat.zero_add]
  · rw [Run.step_reports, expired_append, hevent.resting id hr, Nat.add_zero]
    have hbefore := (OrderBook.apply_idsOk r.book op r.env hu fun order ho => (hnew order ho).1).2 id hr
    exact ht.expired_eq_zero hfresh hbefore.symm

theorem Run.Accounted.step (ha : r.Accounted ops) : (r.step op).Accounted (ops ++ [op]) := by
  have hnew : ∀ order, op = .submit order → ¬ r.book.Rests order.orderId ∧ order.remainingQuantity = order.quantity ∧
      order.quantity ≠ 0 := by
    rintro order rfl
    exact ⟨fun hr => hfresh.last (hsub _ hr), hfull order rfl⟩
  have hevent := event_reported hu r.env hop hnew
  have hevents : ∀ id, ((r.step op).events.map fun e => e.cancelledQty id).sum =
      (r.events.map fun e => e.cancelledQty id).sum + (r.book.event op r.env).cancelledQty id := by
    intro id
    show ((r.events ++ [r.book.event op r.env]).map fun e => e.cancelledQty id).sum = _
    rw [List.map_append, List.sum_append, List.map_singleton, List.sum_singleton]
  refine ⟨fun order ho => ?_, fun id => ?_, fun id hid => ?_⟩
  · have hbalance := event_balance r.book hu op r.env (fun order ho => ⟨(hnew order ho).1, (hnew order ho).2.1⟩)
      order.orderId
    rw [hevent.dropped, ← hevent.traded] at hbalance
    rw [Run.step_reports, reportedQty_append, expired_append, hevents]
    show _ = _ + (r.book.event op r.env).after.remaining order.orderId
    rcases List.mem_append.1 ho with hold | hlast
    · -- an order from before: this event does not set its quantity
      have hset : (r.book.event op r.env).sets order.orderId = none := by
        cases op with
        | submit order' =>
          refine if_neg fun heq => hfresh.last ?_
          rw [heq]
          exact mem_submittedIds hold
        | cancel _ => rfl
        | modify request => exact absurd rfl (hop request)
      have hbefore := ha.balance order hold
      rw [hset, Option.map_none, Option.getD_none] at hbalance
      omega
    · cases List.mem_singleton.1 hlast
      obtain ⟨hreported, hexpired⟩ := totals_of_lastReport_none (ht.fresh hfresh.last)
      have huntouched := ha.untouched _ hfresh.last
      have hset : (r.book.event (.submit order) r.env).sets order.orderId = some order.quantity := if_pos rfl
      rw [hset, Option.map_some, Option.getD_some] at hbalance
      omega
  · rw [hevents, Nat.add_eq_zero_iff, ha.cancelled, cancelledQty_eq_zero hu]
    show _ ↔ ∀ e ∈ r.events ++ [r.book.event op r.env], _
    simp only [List.mem_append, List.mem_singleton, or_imp, forall_and, forall_eq]
  · rw [submittedIds_snoc, List.mem_append, not_or] at hid
    rw [hevents, ha.untouched id hid.1, (cancelledQty_eq_zero hu r.env).2]
    exact fun hcancels => hid.1 (hsub id hcancels.2)

end Step

/-- The run lemma. -/
theorem run_accounted (symbol : Symbol) (env : Env) (ops : List Op) (hfresh : FreshIds ops)
    (hfull : ∀ order, .submit order ∈ ops → order.remainingQuantity = order.quantity ∧ 0 < order.quantity)
    (hops : ∀ request, .modify request ∉ ops) :
    (run symbol env ops).Told ops ∧ (run symbol env ops).Accounted ops := by
  refine run_induction (P := fun ops r => FreshIds ops →
    (∀ order, .submit order ∈ ops → order.remainingQuantity = order.quantity ∧ 0 < order.quantity) →
    (∀ request, .modify request ∉ ops) → r.Told ops ∧ r.Accounted ops) ?_ ?_ ops hfresh hfull hops
  · intro _ _ _
    refine ⟨⟨fun id => ?_, fun id => rfl, fun id last h => (nomatch h), fun id _ => rfl⟩,
      ⟨fun order h => (nomatch h), fun id => ?_, fun id _ => rfl⟩⟩
    · exact iff_of_false (fun h => h rfl) (fun h => nomatch h)
    · exact iff_of_true rfl fun e h => nomatch h
  · intro ops op ih hfresh hfull hops
    obtain ⟨ht, ha⟩ := ih hfresh.init (fun order ho => hfull order (List.mem_append_left _ ho))
      fun request h => hops request (List.mem_append_left _ h)
    obtain ⟨hu, hsub⟩ := run_idsOk symbol env ops hfresh.init
    have hfull' : ∀ order, op = .submit order → order.remainingQuantity = order.quantity ∧ order.quantity ≠ 0 := by
      rintro order rfl
      exact (hfull order (List.mem_append_right _ (List.mem_singleton_self _))).imp_right quantity_pos.1
    have hop : ∀ request, op ≠ .modify request := by
      rintro request rfl
      exact hops request (List.mem_append_right _ (List.mem_singleton_self _))
    exact ⟨ht.step hu hsub hfresh hfull' hop, ha.step ht hu hsub hfresh hfull' hop⟩

/-- The reports of an id account for a quantity: what they state as traded and the remaining quantity of the last. -/
def AccountFor (reports : List ExecutionReport) (id : OrderID) (quantity : Quantity) : Prop :=
  ∃ last, lastReport reports id = some last ∧
    quantity.toNat = reportedQty reports id + last.remainingQuantity.toNat

/-- In every run of submissions, with fresh ids and full positive quantities, and cancels: the reports of a submitted
order that does not rest any more account for its quantity exactly when no cancel found it in the book. -/
theorem reports_account_iff (symbol : Symbol) (env : Env) (ops : List Op) (hfresh : FreshIds ops)
    (hfull : ∀ order, .submit order ∈ ops → order.remainingQuantity = order.quantity ∧ 0 < order.quantity)
    (hops : ∀ request, .modify request ∉ ops) (order : Order) (ho : .submit order ∈ ops)
    (hgone : ¬ (run symbol env ops).book.Rests order.orderId) :
    AccountFor (run symbol env ops).reports order.orderId order.quantity ↔
      ∀ e ∈ (run symbol env ops).events, ¬ e.CancelsResting order.orderId := by
  obtain ⟨ht, ha⟩ := run_accounted symbol env ops hfresh hfull hops
  obtain ⟨last, hlast⟩ := Option.ne_none_iff_exists'.1 ((ht.told order.orderId).2 (mem_submittedIds ho))
  have hclosed : ¬ last.Open := by
    intro hopen
    have hseen := ht.seen order.orderId
    rw [foldl_see, hlast, Option.bind_some, if_pos hopen,
      openQuantity_of_not_rests (run symbol env ops).book.wf hgone] at hseen
    cases hseen
  have hclosing := ht.closing _ last hlast hclosed
  have hbalance := ha.balance order ho
  rw [BookState.remaining_eq_zero (run symbol env ops).book.wf hgone] at hbalance
  unfold AccountFor
  rw [← ha.cancelled, hlast]
  constructor
  · rintro ⟨_, ⟨⟩, hsum⟩
    omega
  · intro hzero
    exact ⟨last, rfl, by omega⟩

/-- An order for nine of which four trade; a cancel, or a market order for the rest and more. -/
def cancelledAfterFill (last : Op) : List Op :=
  [.submit { orderId := 1, price := 10, quantity := 9, remainingQuantity := 9 },
    .submit { orderId := 2, side := .sell, price := 10, quantity := 4, remainingQuantity := 4 }, last]

/-- The cancel takes five out of the book; the reports account for the four that traded. -/
theorem cancel_not_accounted : FreshIds (cancelledAfterFill (.cancel 1)) ∧
    ¬ (run [] ⟨1, fun _ => 0, 0⟩ (cancelledAfterFill (.cancel 1))).book.Rests 1 ∧
    ¬ AccountFor (run [] ⟨1, fun _ => 0, 0⟩ (cancelledAfterFill (.cancel 1))).reports 1 9 := by
  refine ⟨by decide, ?_, ?_⟩
  · rw [BookState.rests_iff (run [] ⟨1, fun _ => 0, 0⟩ (cancelledAfterFill (.cancel 1))).book.wf
      (run_idsOk [] ⟨1, fun _ => 0, 0⟩ (cancelledAfterFill (.cancel 1)) (by decide)).1]
    rintro ⟨e, he⟩
    cases he
  · rintro ⟨last, hlast, hsum⟩
    cases hlast
    revert hsum
    decide

/-- A market order for seven. -/
def expiringSell : Order := { orderId := 3, side := .sell, type := .market, quantity := 7, remainingQuantity := 7 }

/-- It trades five and expires: its reports account for all of it. -/
theorem reports_account_iff_expired :
    AccountFor (run [] ⟨1, fun _ => 0, 0⟩ (cancelledAfterFill (.submit expiringSell))).reports 3 7 := by
  have hfresh : FreshIds (cancelledAfterFill (.submit expiringSell)) := by decide
  refine (reports_account_iff [] ⟨1, fun _ => 0, 0⟩ (cancelledAfterFill (.submit expiringSell)) hfresh ?_ ?_ expiringSell
    ?_ ?_).2 ?_
  · intro order ho
    simp only [cancelledAfterFill, List.mem_cons, List.not_mem_nil, Op.submit.injEq, or_false] at ho
    rcases ho with rfl | rfl | rfl <;> decide
  · intro request h
    simp [cancelledAfterFill] at h
  · simp [cancelledAfterFill]
  · rw [BookState.rests_iff (run [] ⟨1, fun _ => 0, 0⟩ (cancelledAfterFill (.submit expiringSell))).book.wf
      (run_idsOk [] ⟨1, fun _ => 0, 0⟩ (cancelledAfterFill (.submit expiringSell)) hfresh).1]
    rintro ⟨e, he⟩
    cases he
  · rintro e he ⟨hop, -⟩
    have hmem := List.mem_map_of_mem (f := Event.op) he
    rw [run_events, hop] at hmem
    simp [cancelledAfterFill] at hmem

end StockExchange
