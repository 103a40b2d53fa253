/-
What happens in a run of a pool, kept in a history variable that no step reads: the tasks in the order in
which `submit` accepted them, the order in which they took the lock of their book, reached the log and were
applied, and the reports in the order in which the operations made them and the workers published them. Tasks
are numbered by acceptance, reports by the operation that makes them.
-/
import StockExchange.Threadpool.ThreadPool
import StockExchange.Lib.Machine
import StockExchange.Lib.Relay

universe u

namespace StockExchange

/-- The reports a worker is still to publish. -/
def Worker.reports : Worker → List ExecutionReport
  | .applied _ result => result.executionReports
  | .finishing _ reports _ => reports
  | _ => []

/-- All reports that the workers hold or have published are of a kind. -/
structure ThreadPool.AllReports {W : Type u} (R : ExecutionReport → Prop) (p : ThreadPool W) : Prop where
  made : ∀ w, ∀ r ∈ (p.workers w).reports, R r
  published : ∀ r ∈ p.reports, R r

theorem ThreadPool.start_allReports {W : Type u} (R : ExecutionReport → Prop) (env : Env) : (start W env).AllReports R where
  made _ _ h := by cases h
  published _ h := by cases h

namespace ThreadPool.AllReports

variable {W : Type u} [DecidableEq W] {R : ExecutionReport → Prop} {p p' : ThreadPool W}

/-- A worker moves on with reports of the kind. -/
theorem move (h : p.AllReports R) {w : W} {s : Worker} (hworkers : p'.workers = (p.move w s).workers)
    (hs : ∀ r ∈ s.reports, R r) (hreports : ∀ r ∈ p'.reports, R r) : p'.AllReports R := by
  refine ⟨fun w' => ?_, hreports⟩
  rw [hworkers]
  by_cases hw : w' = w
  · rw [hw, move_self]
    exact hs
  · rw [move_of_ne hw]
    exact h.made w'

/-- The reports of the operations that are applied are all there are. -/
theorem step {a : PoolAction W} (hs : p.step a = some p')
    (happly : ∀ w book task, a = .apply w → p.applying w = some (book, task) →
      ∀ r ∈ (book.apply task.request.op p.env).result.executionReports, R r)
    (h : p.AllReports R) : p'.AllReports R := by
  have hkeep : ∀ {w s}, p.workers w = s → ∀ r ∈ s.reports, R r := fun {w} s hw => hw ▸ h.made w
  have hnil : ∀ r ∈ ([] : List ExecutionReport), R r := fun _ hr => by cases hr
  cases steps hs with
  | submit task hlen => exact ⟨h.made, h.published⟩
  | dequeue w task tasks hw ht => exact h.move (s := .got task) rfl hnil h.published
  | getOrderBook w task hw => exact h.move (s := .found task) rfl hnil h.published
  | lock w task hw hl => exact h.move (s := .locked task) rfl hnil h.published
  | log w entry net task hw => exact h.move (s := .logged task) rfl hnil h.published
  | apply w task book hw hb =>
    exact h.move (s := .applied task _) rfl (happly w book task rfl (applying_eq_some.2 ⟨hw, hb⟩)) h.published
  | unlock w task result hw =>
    exact h.move (s := .finishing _ result.executionReports _) rfl (hkeep (s := .applied task result) hw) h.published
  | logFill w entry fill fills reports trades hw =>
    have hhand := hkeep hw
    exact h.move (s := .finishing fills reports trades) rfl hhand h.published
  | publishReport w report reports trades hw =>
    have hhand := hkeep hw
    refine h.move (s := .finishing [] reports trades) rfl (fun r hr => hhand r (List.mem_cons_of_mem _ hr)) fun r hr => ?_
    rcases List.mem_append.1 hr with hr | hr
    · exact h.published r hr
    · rw [List.mem_singleton.1 hr]
      exact hhand report (List.mem_cons_self ..)
  | publishTrade w fill trades hw => exact h.move (s := .finishing [] [] trades) rfl hnil h.published
  | finish w hw => exact h.move (s := .idle) rfl hnil h.published
  | flush wal hf => exact ⟨h.made, h.published⟩

end ThreadPool.AllReports

structure History (W : Type u) where
  accepted : List Task := []
  /-- The numbers of the accepted tasks: dequeued, still to be applied, applied. -/
  tasks : Relay W := {}
  /-- The tasks in the order in which they took the lock of their book. -/
  locked : List Task := []
  /-- For each entry of the log, the number of the task that it is the request of. -/
  logged : List (Option ℕ) := []
  /-- The tasks in the order in which they were logged. -/
  requests : List Task := []
  /-- The numbers of the logged tasks: logged, still to be applied, applied. -/
  log : Relay W := {}
  /-- The fills, each with the symbol of the book that made it. -/
  fills : List (Symbol × Fill) := []
  /-- The reports, each with the number of the task that made it. -/
  generated : List (ℕ × ExecutionReport) := []
  /-- The numbers of the reports: made, still to be published, published. -/
  reports : Relay W := {}

namespace History

variable {W : Type u}

/-- The number of the task a worker is still to apply. -/
def number (h : History W) (w : W) : Option ℕ := (h.tasks.hands w).head?

/-- The symbol of the task with a number. -/
def symbolOf (h : History W) (i : ℕ) : Option Symbol := (h.accepted[i]?).map Task.symbol

/-- The report with a number. -/
def reportOf (h : History W) (i : ℕ) : Option ExecutionReport := (h.generated[i]?).map Prod.snd

/-- The order that a report is about: the book it was made by, and the id. -/
def orderOf (h : History W) (i : ℕ) : Option (Option Symbol × OrderID) :=
  (h.generated[i]?).map fun q => (h.symbolOf q.1, q.2.orderId)

variable [DecidableEq W]

/-- What an operation adds to the history. -/
def apply (h : History W) (w : W) (task : Task) (result : MatchResult) : History W :=
  { h with
    tasks := h.tasks.pass w
    log := h.log.pass w
    fills := h.fills ++ result.fills.map fun fill => (task.symbol, fill)
    generated := h.generated ++ result.executionReports.map fun report => ((h.number w).getD 0, report)
    reports := h.reports.enter w result.executionReports.length }

/-- What a step adds to the history. -/
def record (p : ThreadPool W) (a : PoolAction W) (h : History W) : History W :=
  match a with
  | .submit task => { h with accepted := h.accepted ++ [task] }
  | .dequeue w => { h with tasks := h.tasks.enter w 1 }
  | .lock w => { h with locked := h.locked ++ (p.workers w).task.toList }
  | .log w _ _ =>
    { h with
      logged := h.logged ++ [h.number w]
      requests := h.requests ++ (p.workers w).task.toList
      log := h.log.enter w 1 }
  | .apply w =>
    match p.applying w with
    | some (book, task) => h.apply w task (book.apply task.request.op p.env).result
    | none => h
  | .logFill _ _ => { h with logged := h.logged ++ [none] }
  | .publishReport w => { h with reports := h.reports.pass w }
  | _ => h

theorem record_apply {p : ThreadPool W} {w : W} {task : Task} {book : OrderBook} (hw : p.workers w = .logged task)
    (hb : p.registry task.symbol = some book) (h : History W) :
    h.record p (.apply w) = h.apply w task (book.apply task.request.op p.env).result := by
  have hq : p.applying w = some (book, task) := ThreadPool.applying_eq_some.2 ⟨hw, hb⟩
  simp only [record, hq]

/-- Only `submit` accepts tasks. -/
theorem record_accepted (h : History W) (p : ThreadPool W) {a : PoolAction W} (ha : ∀ task, a ≠ .submit task) :
    (h.record p a).accepted = h.accepted := by
  cases a with
  | submit task => exact absurd rfl (ha task)
  | apply w =>
    simp only [record]
    split <;> rfl
  | _ => rfl

end History

namespace ThreadPool

variable {W : Type u} [DecidableEq W]

/-- A pool with its history. -/
def tracedStep : ThreadPool W × History W → PoolAction W → Option (ThreadPool W × History W) :=
  Machine.traced step fun p a h => h.record p a

end ThreadPool

namespace History

variable {W : Type u} {p : ThreadPool W} {h : History W}

/-! ## The tasks -/

section Tasks

/-- The history of the tasks fits the pool: the last accepted ones are queued, and a worker that has a task to
apply holds its number. -/
structure Arrived (p : ThreadPool W) (h : History W) : Prop where
  valid : h.tasks.Valid
  count : h.tasks.count ≤ h.accepted.length
  queued : h.accepted.drop h.tasks.count = p.tasks
  busy : ∀ w task, (p.workers w).task = some task → ∃ i, h.tasks.hands w = [i] ∧ h.accepted[i]? = some task
  free : ∀ w, (p.workers w).task = none → h.tasks.hands w = []

theorem start_arrived (env : Env) : Arrived (.start W env) ({} : History W) where
  valid := Relay.empty_valid
  count := Nat.le_refl 0
  queued := rfl
  busy _ _ h := nomatch h
  free _ _ := rfl

/-- A worker that has a number to pass has the task of that number. -/
theorem Arrived.task_of_mem (ha : Arrived p h) {w : W} {i : ℕ} (hi : i ∈ h.tasks.hands w) :
    ∃ task, (p.workers w).task = some task ∧ h.tasks.hands w = [i] ∧ h.accepted[i]? = some task := by
  cases ht : (p.workers w).task with
  | none =>
    rw [ha.free w ht] at hi
    cases hi
  | some task =>
    obtain ⟨j, hj, hacc⟩ := ha.busy w task ht
    rw [hj, List.mem_singleton] at hi
    subst hi
    exact ⟨task, rfl, hj, hacc⟩

/-- A step that accepts, dequeues and applies nothing. -/
theorem Arrived.of_same_tasks (ha : Arrived p h) {p' : ThreadPool W} {h' : History W}
    (haccepted : h'.accepted = h.accepted) (hnumbers : h'.tasks = h.tasks) (htasks : p'.tasks = p.tasks)
    (hworkers : ∀ w, (p'.workers w).task = (p.workers w).task) : Arrived p' h' where
  valid := hnumbers ▸ ha.valid
  count := by
    rw [hnumbers, haccepted]
    exact ha.count
  queued := by
    rw [hnumbers, haccepted, htasks]
    exact ha.queued
  busy w task ht := by
    rw [hworkers] at ht
    rw [hnumbers, haccepted]
    exact ha.busy w task ht
  free w ht := by
    rw [hworkers] at ht
    rw [hnumbers]
    exact ha.free w ht

theorem Arrived.submit (ha : Arrived p h) (task : Task) :
    Arrived { p with tasks := p.tasks ++ [task] } { h with accepted := h.accepted ++ [task] } where
  valid := ha.valid
  count := by
    rw [List.length_append]
    exact Nat.le_add_right_of_le ha.count
  queued := by
    show (h.accepted ++ [task]).drop h.tasks.count = p.tasks ++ [task]
    rw [List.drop_append_of_le_length ha.count, ha.queued]
  busy w t ht := by
    obtain ⟨i, hi, hacc⟩ := ha.busy w t ht
    refine ⟨i, hi, ?_⟩
    show (h.accepted ++ [task])[i]? = some t
    rw [List.getElem?_append_left (List.getElem?_eq_some_iff.1 hacc).1, hacc]
  free := ha.free

variable [DecidableEq W]

theorem Arrived.dequeue (ha : Arrived p h) {w : W} {task : Task} {tasks : List Task} (hw : p.workers w = .idle)
    (ht : p.tasks = task :: tasks) :
    Arrived ({ p with tasks := tasks }.move w (.got task)) { h with tasks := h.tasks.enter w 1 } := by
  have hempty : h.tasks.hands w = [] := ha.free w (by rw [hw]; rfl)
  have hqueued := ha.queued
  rw [ht] at hqueued
  have hlt : h.tasks.count < h.accepted.length := by
    by_contra hge
    rw [List.drop_eq_nil_of_le (by omega)] at hqueued
    cases hqueued
  have hget : h.accepted[h.tasks.count]? = some task := by
    rw [← List.head?_drop, hqueued]
    rfl
  refine ⟨ha.valid.enter hempty 1, hlt, ?_, fun w' t ht' => ?_, fun w' ht' => ?_⟩
  · show h.accepted.drop (h.tasks.count + 1) = tasks
    rw [← List.drop_drop, hqueued]
    rfl
  · by_cases hw' : w' = w
    · subst hw'
      rw [ThreadPool.move_self] at ht'
      cases ht'
      exact ⟨h.tasks.count, Relay.enter_self 1, hget⟩
    · rw [ThreadPool.move_of_ne hw'] at ht'
      show ∃ i, (h.tasks.enter w 1).hands w' = [i] ∧ _
      rw [Relay.enter_of_ne hw']
      exact ha.busy w' t ht'
  · by_cases hw' : w' = w
    · subst hw'
      rw [ThreadPool.move_self] at ht'
      cases ht'
    · rw [ThreadPool.move_of_ne hw'] at ht'
      exact (Relay.enter_of_ne hw' 1).trans (ha.free w' ht')

/-- Applying passes on the number of the task. -/
theorem Arrived.apply (ha : Arrived p h) {p' : ThreadPool W} {h' : History W} {w : W} {task : Task} {s : Worker}
    (hw : (p.workers w).task = some task) (hs : s.task = none) (hworkers : p'.workers = (p.move w s).workers)
    (htasks : p'.tasks = p.tasks) (haccepted : h'.accepted = h.accepted) (hnumbers : h'.tasks = h.tasks.pass w) :
    Arrived p' h' := by
  obtain ⟨i, hi, hacc⟩ := ha.busy w task hw
  have hhands : (h.tasks.pass w).hands w = [] := by rw [Relay.pass_self, hi]; rfl
  refine ⟨hnumbers ▸ ha.valid.pass hi, ?_, ?_, fun w' t ht => ?_, fun w' ht => ?_⟩
  · rw [hnumbers, haccepted]
    exact ha.count
  · rw [hnumbers, haccepted, htasks]
    exact ha.queued
  · rw [hworkers] at ht
    rw [hnumbers, haccepted]
    by_cases hw' : w' = w
    · rw [hw', ThreadPool.move_self, hs] at ht
      cases ht
    · rw [ThreadPool.move_of_ne hw'] at ht
      rw [Relay.pass_of_ne hw']
      exact ha.busy w' t ht
  · rw [hworkers] at ht
    rw [hnumbers]
    by_cases hw' : w' = w
    · rw [hw']
      exact hhands
    · rw [ThreadPool.move_of_ne hw'] at ht
      rw [Relay.pass_of_ne hw']
      exact ha.free w' ht

theorem Arrived.step {p' : ThreadPool W} {a : PoolAction W} (hs : p.step a = some p') (ha : Arrived p h) :
    Arrived p' (h.record p a) := by
  cases ThreadPool.steps hs with
  | submit task hlen => exact ha.submit task
  | dequeue w task tasks hw ht => exact ha.dequeue hw ht
  | getOrderBook w task hw => exact ha.of_same_tasks rfl rfl rfl (ThreadPool.move_view Worker.task (by rw [hw]; rfl))
  | lock w task hw hl => exact ha.of_same_tasks rfl rfl rfl (ThreadPool.move_view Worker.task (by rw [hw]; rfl))
  | log w entry net task hw => exact ha.of_same_tasks rfl rfl rfl (ThreadPool.move_view Worker.task (by rw [hw]; rfl))
  | apply w task book hw hb =>
    rw [record_apply hw hb]
    exact ha.apply (by rw [hw]; rfl) (s := .applied task _) rfl rfl rfl rfl rfl
  | unlock w task result hw => exact ha.of_same_tasks rfl rfl rfl (ThreadPool.move_view Worker.task (by rw [hw]; rfl))
  | logFill w entry fill fills reports trades hw =>
    exact ha.of_same_tasks rfl rfl rfl (ThreadPool.move_view Worker.task (by rw [hw]; rfl))
  | publishReport w report reports trades hw =>
    exact ha.of_same_tasks rfl rfl rfl (ThreadPool.move_view Worker.task (by rw [hw]; rfl))
  | publishTrade w fill trades hw =>
    exact ha.of_same_tasks rfl rfl rfl (ThreadPool.move_view Worker.task (by rw [hw]; rfl))
  | finish w hw => exact ha.of_same_tasks rfl rfl rfl (ThreadPool.move_view Worker.task (by rw [hw]; rfl))
  | flush wal hf => exact ha.of_same_tasks rfl rfl rfl fun _ => rfl

end Tasks

/-! ## The reports -/

section Reports

/-- The history of the reports fits the pool: a worker holds the numbers of the reports it is still to publish, and
those published are in the queue of the pipeline. -/
structure Made (p : ThreadPool W) (h : History W) : Prop where
  valid : h.reports.Valid
  count : h.reports.count = h.generated.length
  hands : ∀ w, (h.reports.hands w).map h.reportOf = (p.workers w).reports.map some
  queue : h.reports.out.map h.reportOf = p.reports.map some
  tasks : ∀ q ∈ h.generated, q.1 ∈ h.tasks.out

theorem start_made (env : Env) : Made (.start W env) ({} : History W) where
  valid := Relay.empty_valid
  count := rfl
  hands _ := rfl
  queue := rfl
  tasks _ h := nomatch h

/-- A step that makes and publishes no report. -/
theorem Made.of_same_reports (hm : Made p h) {p' : ThreadPool W} {h' : History W} (hgenerated : h'.generated = h.generated)
    (hnumbers : h'.reports = h.reports) (htasks : h'.tasks.out = h.tasks.out) (hreports : p'.reports = p.reports)
    (hworkers : ∀ w, (p'.workers w).reports = (p.workers w).reports) : Made p' h' := by
  have hof : h'.reportOf = h.reportOf := by
    funext i
    rw [reportOf, reportOf, hgenerated]
  refine ⟨hnumbers ▸ hm.valid, ?_, fun w => ?_, ?_, fun q hq => ?_⟩
  · rw [hnumbers, hgenerated]
    exact hm.count
  · rw [hnumbers, hof, hworkers]
    exact hm.hands w
  · rw [hnumbers, hof, hreports]
    exact hm.queue
  · rw [htasks]
    exact hm.tasks q (hgenerated ▸ hq)

/-- Reports made later do not change the ones with smaller numbers. -/
theorem reportOf_append {h' : History W} {made : List (ℕ × ExecutionReport)} (hgenerated : h'.generated = h.generated ++ made)
    {l : List ℕ} (hl : ∀ i ∈ l, i < h.generated.length) : l.map h'.reportOf = l.map h.reportOf := by
  refine List.map_congr_left fun i hi => ?_
  rw [reportOf, hgenerated, List.getElem?_append_left (hl i hi), reportOf]

/-- A worker with a report to publish holds its number. -/
theorem Made.hands_cons (hm : Made p h) {w : W} {report : ExecutionReport} {reports : List ExecutionReport}
    (hw : (p.workers w).reports = report :: reports) :
    ∃ j rest, h.reports.hands w = j :: rest ∧ h.reportOf j = some report ∧ rest.map h.reportOf = reports.map some := by
  have hhands := hm.hands w
  rw [hw] at hhands
  obtain ⟨j, rest, hj, hreport, hrest⟩ := List.map_eq_cons_iff.1 hhands
  exact ⟨j, rest, hj, hreport, hrest⟩

variable [DecidableEq W]

theorem Made.apply (hm : Made p h) (ha : Arrived p h) {p' : ThreadPool W} {w : W} {task : Task} (result : MatchResult)
    (hw : p.workers w = .logged task) (hworkers : p'.workers = (p.move w (.applied task result)).workers)
    (hreports : p'.reports = p.reports) : Made p' (h.apply w task result) := by
  obtain ⟨i, hi, -⟩ := ha.busy w task (by rw [hw]; rfl)
  have hempty : h.reports.hands w = [] := by
    have hhands := hm.hands w
    rw [hw] at hhands
    exact List.map_eq_nil_iff.1 hhands
  have hnumber : h.number w = some i := by
    rw [number, hi]
    rfl
  refine ⟨hm.valid.enter hempty _, ?_, fun w' => ?_, ?_, fun q hq => ?_⟩
  · show h.reports.count + _ = (h.generated ++ _).length
    rw [hm.count, List.length_append, List.length_map]
  · rw [hworkers]
    by_cases hw' : w' = w
    · -- the new numbers are those of the new reports
      subst hw'
      rw [ThreadPool.move_self]
      show (((h.reports.enter w' _).hands w').map fun k => ((h.generated ++ _)[k]?).map Prod.snd) =
        result.executionReports.map some
      rw [Relay.enter_self, hm.count]
      refine List.ext_getElem? fun k => ?_
      rw [List.getElem?_map, List.getElem?_map]
      by_cases hk : k < result.executionReports.length
      · rw [List.getElem?_range' hk, List.getElem?_eq_getElem hk]
        simp [hk]
      · rw [List.getElem?_eq_none (by rw [List.length_range']; omega), List.getElem?_eq_none (by omega)]
        rfl
    · rw [ThreadPool.move_of_ne hw', ← hm.hands w']
      show ((h.reports.enter w _).hands w').map _ = _
      rw [Relay.enter_of_ne hw']
      exact reportOf_append rfl fun k hk => hm.count ▸ hm.valid.lt hk
  · rw [hreports, ← hm.queue]
    exact reportOf_append rfl fun k hk => hm.count ▸ hm.valid.lt_of_out hk
  · show q.1 ∈ (h.tasks.pass w).out
    rw [Relay.pass_out hi]
    rcases List.mem_append.1 hq with hq | hq
    · exact List.mem_append_left _ (hm.tasks q hq)
    · obtain ⟨report, -, rfl⟩ := List.mem_map.1 hq
      rw [hnumber]
      exact List.mem_append_right _ (List.mem_singleton_self i)

theorem Made.publish (hm : Made p h) {p' : ThreadPool W} {w : W} {s : Worker} {report : ExecutionReport}
    (hw : (p.workers w).reports = report :: s.reports) (hworkers : p'.workers = (p.move w s).workers)
    (hreports : p'.reports = p.reports ++ [report]) : Made p' { h with reports := h.reports.pass w } := by
  obtain ⟨j, rest, hj, hreport, hrest⟩ := hm.hands_cons hw
  refine ⟨hm.valid.pass hj, hm.count, fun w' => ?_, ?_, hm.tasks⟩
  · rw [hworkers]
    by_cases hw' : w' = w
    · subst hw'
      rw [ThreadPool.move_self, ← hrest]
      show ((h.reports.pass w').hands w').map _ = _
      rw [Relay.pass_self, hj]
      rfl
    · rw [ThreadPool.move_of_ne hw', ← hm.hands w']
      show ((h.reports.pass w).hands w').map _ = _
      rw [Relay.pass_of_ne hw']
      rfl
  · rw [hreports, List.map_append, ← hm.queue]
    show (h.reports.pass w).out.map h.reportOf = _
    rw [Relay.pass_out hj, List.map_append, List.map_singleton, hreport]
    rfl

theorem Made.step {p' : ThreadPool W} {a : PoolAction W} (hs : p.step a = some p') (ha : Arrived p h) (hm : Made p h) :
    Made p' (h.record p a) := by
  cases ThreadPool.steps hs with
  | submit task hlen => exact hm.of_same_reports rfl rfl rfl rfl fun _ => rfl
  | dequeue w task tasks hw ht =>
    exact hm.of_same_reports rfl rfl rfl rfl (ThreadPool.move_view Worker.reports (by rw [hw]; rfl))
  | getOrderBook w task hw =>
    exact hm.of_same_reports rfl rfl rfl rfl (ThreadPool.move_view Worker.reports (by rw [hw]; rfl))
  | lock w task hw hl =>
    exact hm.of_same_reports rfl rfl rfl rfl (ThreadPool.move_view Worker.reports (by rw [hw]; rfl))
  | log w entry net task hw =>
    exact hm.of_same_reports rfl rfl rfl rfl (ThreadPool.move_view Worker.reports (by rw [hw]; rfl))
  | apply w task book hw hb =>
    rw [record_apply hw hb]
    exact hm.apply ha _ hw rfl rfl
  | unlock w task result hw =>
    exact hm.of_same_reports rfl rfl rfl rfl (ThreadPool.move_view Worker.reports (by rw [hw]; rfl))
  | logFill w entry fill fills reports trades hw =>
    exact hm.of_same_reports rfl rfl rfl rfl (ThreadPool.move_view Worker.reports (by rw [hw]; rfl))
  | publishReport w report reports trades hw =>
    exact hm.publish (s := .finishing [] reports trades) (by rw [hw]; rfl) rfl rfl
  | publishTrade w fill trades hw =>
    exact hm.of_same_reports rfl rfl rfl rfl (ThreadPool.move_view Worker.reports (by rw [hw]; rfl))
  | finish w hw => exact hm.of_same_reports rfl rfl rfl rfl (ThreadPool.move_view Worker.reports (by rw [hw]; rfl))
  | flush wal hf => exact hm.of_same_reports rfl rfl rfl rfl fun _ => rfl

end Reports

end History

end StockExchange
