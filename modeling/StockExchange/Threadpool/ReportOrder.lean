/-
The order in which the reports of one order reach the pipeline. An operation makes its reports under the lock
of the book and publishes them after it has given the lock back, so another worker may make and publish later
reports of the same order before. Reports are published in the order in which they were made exactly as long
as none does.
-/
import StockExchange.Threadpool.History
import Mathlib.Data.Fintype.Basic

universe u

namespace StockExchange

/-- The worker is about to publish a report. -/
def Worker.publishes : Worker → Bool
  | .finishing [] (_ :: _) _ => true
  | _ => false

theorem Worker.publishes_iff {s : Worker} :
    s.publishes = true ↔ ∃ report reports trades, s = .finishing [] (report :: reports) trades := by
  constructor
  · intro h
    unfold publishes at h
    split at h
    next report reports trades => exact ⟨report, reports, trades, rfl⟩
    next => cases h
  · rintro ⟨report, reports, trades, rfl⟩
    rfl

namespace History

variable {W : Type u}

/-- Of two reports about the same order, the one made first is in the queue first. -/
def ReportOrder (h : History W) : Prop := Relay.InOrder (fun i j => h.orderOf i = h.orderOf j) h.reports.out

/-- A worker that publishes a report is the next one to do so: no other worker still has to publish a report about
the same order that was made earlier. -/
def NextToReport (s : ThreadPool W × History W) : PoolAction W → Prop
  | .publishReport w => (s.1.workers w).publishes → ∀ j ∈ (s.2.reports.hands w).head?, ∀ w', ∀ i ∈ s.2.reports.hands w',
    s.2.orderOf i = s.2.orderOf j → j ≤ i
  | _ => True

instance [Fintype W] (s : ThreadPool W × History W) (a : PoolAction W) : Decidable (NextToReport s a) :=
  match a with
  | .publishReport w => inferInstanceAs (Decidable ((s.1.workers w).publishes → ∀ j ∈ (s.2.reports.hands w).head?,
    ∀ w', ∀ i ∈ s.2.reports.hands w', s.2.orderOf i = s.2.orderOf j → j ≤ i))
  | .submit _ | .dequeue _ | .getOrderBook _ | .lock _ | .log _ _ _ | .apply _ | .unlock _ | .logFill _ _
  | .publishTrade _ | .finish _ | .flush => .isTrue trivial

variable {p : ThreadPool W} {h h' : History W}

/-- Tasks accepted and reports made later have no part in the order of the reports published so far. -/
theorem Made.reportOrder_of_prefix (hm : Made p h) (ha : Arrived p h) (ho : h.ReportOrder)
    (haccepted : h.accepted <+: h'.accepted) (hgenerated : h.generated <+: h'.generated)
    (hout : h'.reports.out = h.reports.out) : h'.ReportOrder := by
  have hsymbol : ∀ q ∈ h.generated, h'.symbolOf q.1 = h.symbolOf q.1 := by
    intro q hq
    obtain ⟨later, hlater⟩ := haccepted
    rw [symbolOf, ← hlater, List.getElem?_append_left, symbolOf]
    exact Nat.lt_of_lt_of_le (ha.valid.lt_of_out (hm.tasks q hq)) ha.count
  have horder : ∀ i < h.generated.length, h'.orderOf i = h.orderOf i := by
    intro i hi
    obtain ⟨later, hlater⟩ := hgenerated
    rw [orderOf, ← hlater, List.getElem?_append_left hi, orderOf, List.getElem?_eq_getElem hi, Option.map_some,
      Option.map_some, hsymbol _ (List.getElem_mem hi)]
  unfold ReportOrder
  rw [hout]
  refine (Relay.InOrder.congr fun i j hlt hj => ?_).2 ho
  have hlen : j < h.generated.length := hm.count ▸ hm.valid.lt_of_out hj
  rw [horder i (Nat.lt_trans hlt hlen), horder j hlen]

variable [DecidableEq W]

/-- The step lemma: publishing keeps the order exactly if the worker is the next to report, and no other step
changes it. -/
theorem Made.step_reportOrder_iff {s : ThreadPool W × History W} (hm : Made s.1 s.2) (ha : Arrived s.1 s.2)
    (ho : s.2.ReportOrder) (a : PoolAction W) :
    (∀ s' ∈ ThreadPool.tracedStep s a, s'.2.ReportOrder) ↔ NextToReport s a := by
  obtain ⟨p, h⟩ := s
  constructor
  · intro hall
    cases a with
    | publishReport w =>
      intro hpub j hj w' i hi hsame
      obtain ⟨report, reports, trades, hw⟩ := Worker.publishes_iff.1 hpub
      obtain ⟨k, rest, hk, -⟩ := hm.hands_cons (w := w) (by rw [hw]; rfl)
      have hs := ThreadPool.step_publishReport hw
      have hafter := hall (_, h.record p (.publishReport w)) (Machine.traced_eq_some.2 ⟨hs, rfl⟩)
      rw [hk] at hj
      cases hj
      exact (hm.valid.pass_inOrder_iff ho hk).1 hafter w' i hi hsame
    | _ => trivial
  · rintro hnext ⟨p', h'⟩ hs
    obtain ⟨hs, rfl⟩ := Machine.traced_eq_some.1 hs
    cases ThreadPool.steps hs with
    | submit task hlen =>
      exact hm.reportOrder_of_prefix ha ho (List.prefix_append _ _) (List.prefix_refl _) rfl
    | apply w task book hw hb =>
      rw [record_apply hw hb]
      exact hm.reportOrder_of_prefix ha ho (List.prefix_refl _) (List.prefix_append _ _) rfl
    | publishReport w report reports trades hw =>
      obtain ⟨j, rest, hj, -⟩ := hm.hands_cons (w := w) (by rw [hw]; rfl)
      refine (hm.valid.pass_inOrder_iff ho hj).2 fun w' i hi hsame => ?_
      refine hnext (by rw [hw]; rfl) j ?_ w' i hi hsame
      rw [hj]
      rfl
    | _ => exact ho

end History

namespace ThreadPool

variable {W : Type u} [DecidableEq W]

/-- In every state of a run the reports of every order have reached the pipeline in the order in which the operations
made them exactly when, along the run, no worker publishes a report while another one still has to publish an
earlier report about the same order; and the published reports are those in the queue. -/
theorem report_order_iff (env : Env) (actions : List (PoolAction W)) :
    ((∀ pre, pre <+: actions → ∀ s, Machine.run tracedStep (start W env, {}) pre = some s → s.2.ReportOrder) ↔
      Machine.Along tracedStep History.NextToReport (start W env, {}) actions) ∧
    ∀ s, Machine.run tracedStep (start W env, {}) actions = some s →
      s.2.reports.out.map s.2.reportOf = s.1.reports.map some := by
  let I (s : ThreadPool W × History W) : Prop := History.Arrived s.1 s.2 ∧ History.Made s.1 s.2
  let P (s : ThreadPool W × History W) : Prop := s.2.ReportOrder
  have hI : ∀ (s : ThreadPool W × History W) (a : PoolAction W) (s' : ThreadPool W × History W),
      tracedStep s a = some s' → I s → I s' := by
    rintro ⟨p, h⟩ a ⟨p', h'⟩ hs ⟨ha, hm⟩
    obtain ⟨hs, rfl⟩ := Machine.traced_eq_some.1 hs
    exact ⟨ha.step hs, hm.step hs ha⟩
  have hstart : I (start W env, {}) := ⟨History.start_arrived env, History.start_made env⟩
  constructor
  · exact Machine.always_iff_along (P := P) hI (fun s a hs ho => hs.2.step_reportOrder_iff hs.1 ho a) actions _ hstart
      (Relay.inOrder_nil _)
  · intro s hrun
    have hs := Machine.run_invariant (P := I) (fun s a s' (_ : True) => hI s a s') actions _ s (fun _ _ => trivial)
      hrun hstart
    exact hs.2.queue

/-- A buy order rests and is hit by two sell orders, handled by two workers one after the other up to where both have
their reports in hand; the workers in `order` then publish two reports each. -/
def reportRace (order : List Bool) : List (PoolAction Bool) :=
  let entry : WALEntry := ⟨7, .replicate 52 255⟩
  let net : NetOrder := ⟨0, .replicate 8 255, 0, 0, 0, 0, 0⟩
  let buy : Order := { orderId := 1, symbol := [65], price := 10, quantity := 5, remainingQuantity := 5, clientId := 8 }
  let sell (id : OrderID) (q : Quantity) : Order :=
    { orderId := id, symbol := [65], side := .sell, price := 10, quantity := q, remainingQuantity := q, clientId := 9 }
  let handle (w : Bool) : List (PoolAction Bool) :=
    [.dequeue w, .getOrderBook w, .lock w, .log w entry net, .apply w, .unlock w]
  [.submit ⟨.submit buy, [65]⟩, .submit ⟨.submit (sell 2 3), [65]⟩, .submit ⟨.submit (sell 3 2), [65]⟩] ++ handle true ++
    [.publishReport true, .finish true] ++ handle true ++ handle false ++ [.logFill true entry, .logFill false entry] ++
    order.flatMap fun w => [.publishReport w, .publishReport w]

/-- The worker that was applied first publishes first. -/
theorem report_order_iff_in_turn :
    (Machine.run step (start Bool ⟨1, fun _ => 0, 0⟩) (reportRace [true, false])).isSome ∧
      ∀ pre, pre <+: reportRace [true, false] → ∀ s,
        Machine.run tracedStep (start Bool ⟨1, fun _ => 0, 0⟩, {}) pre = some s → s.2.ReportOrder :=
  ⟨by decide, (report_order_iff ⟨1, fun _ => 0, 0⟩ (reportRace [true, false])).1.2 (by decide)⟩

/-- The other worker publishes first: the order is reported filled before it is reported partially filled. -/
theorem filled_before_partially_filled : ∃ s,
    Machine.run tracedStep (start Bool ⟨1, fun _ => 0, 0⟩, {}) (reportRace [false, true]) = some s ∧
      (s.1.reports.filter fun r => r.orderId = 1).map (fun r => (r.status, r.remainingQuantity)) =
        [(.new, 5), (.filled, 0), (.partiallyFilled, 2)] ∧ ¬ s.2.ReportOrder := by
  have hrun : (Machine.run tracedStep (start Bool ⟨1, fun _ => 0, 0⟩, {}) (reportRace [false, true])).any fun s =>
      (s.1.reports.filter fun r => r.orderId = 1).map (fun r => (r.status, r.remainingQuantity)) =
          [(.new, 5), (.filled, 0), (.partiallyFilled, 2)] ∧
        s.2.reports.out = [0, 3, 4, 1, 2] ∧ s.2.orderOf 1 = s.2.orderOf 3 := by decide
  obtain ⟨s, hs, hany⟩ := (Option.any_eq_true _ _).1 hrun
  obtain ⟨hreports, hout, hsame⟩ := of_decide_eq_true hany
  refine ⟨s, hs, hreports, fun ho => ?_⟩
  have hsub := ho 1 3 (by decide) hsame (by rw [hout]; decide)
  rw [hout] at hsub
  exact absurd hsub (by decide)

end ThreadPool

end StockExchange
