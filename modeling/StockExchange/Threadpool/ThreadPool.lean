/-
`ThreadPool` (`threadpool/thread_pool.cpp`) with what its workers share: the task queue, the registry
with the lock of each book, the log and the queues of the execution pipeline. Any number of workers
goes through `worker_loop` in any interleaving; the flush thread of the log runs beside them.
-/
import StockExchange.Engine.ReplayEngine

universe u

namespace StockExchange

/-- `MAX_QUEUE_CAPACITY`. -/
def maxQueueCapacity : ℕ := 65536

/-- Where a worker stands in `worker_loop`, with its local variables. -/
inductive Worker
  | idle
  /-- A task has been dequeued. -/
  | got (task : Task)
  /-- `get_order_book` has returned. -/
  | found (task : Task)
  /-- The worker holds `book_mutex_`. -/
  | locked (task : Task)
  /-- `log_func` has run. -/
  | logged (task : Task)
  /-- The operation has run, the lock is still held. -/
  | applied (task : Task) (result : MatchResult)
  /-- What is still to be logged and published. -/
  | finishing (fills : List Fill) (reports : List ExecutionReport) (trades : List Fill)

/-- The task the worker is still to apply. -/
def Worker.task : Worker → Option Task
  | .got task => some task
  | .found task => some task
  | .locked task => some task
  | .logged task => some task
  | _ => none

structure ThreadPool (W : Type u) where
  tasks : List Task := []
  registry : BookRegistry := .empty
  /-- The worker that holds a book's mutex. -/
  locks : Symbol → Option W := fun _ => none
  workers : W → Worker := fun _ => .idle
  wal : WAL := {}
  reports : List ExecutionReport := []
  trades : List Trade := []
  env : Env

/-- A step of a gateway thread, a worker or the flush thread. Logging fills uninitialised structs: the
old contents are part of the step. -/
inductive PoolAction (W : Type u)
  | submit (task : Task)
  | dequeue (w : W)
  | getOrderBook (w : W)
  | lock (w : W)
  | log (w : W) (entry : WALEntry) (net : NetOrder)
  | apply (w : W)
  | unlock (w : W)
  | logFill (w : W) (entry : WALEntry)
  | publishReport (w : W)
  | publishTrade (w : W)
  | finish (w : W)
  | flush

def Fill.trade (fill : Fill) : Trade := ⟨fill.tradeId, fill.symbol, fill.price, fill.quantity, fill.timestamp⟩

namespace ThreadPool

variable {W : Type u}

/-- A pool just started, with no books and an empty log. -/
def start (W : Type u) (env : Env) : ThreadPool W := { env := env }

/-- All tasks that are queued or in the hands of a worker are of a kind. -/
structure AllTasks (Q : Task → Prop) (p : ThreadPool W) : Prop where
  queued : ∀ task ∈ p.tasks, Q task
  taken : ∀ w task, (p.workers w).task = some task → Q task

theorem AllTasks.mono {Q Q' : Task → Prop} {p : ThreadPool W} (h : p.AllTasks Q) (hQ : ∀ task, Q task → Q' task) :
    p.AllTasks Q' :=
  ⟨fun task ht => hQ task (h.queued task ht), fun w task ht => hQ task (h.taken w task ht)⟩

theorem start_allTasks (Q : Task → Prop) (env : Env) : (start W env).AllTasks Q :=
  ⟨fun _ h => (nomatch h), fun _ _ h => (nomatch h)⟩

/-- The book and the task with which a worker is about to call the operation. -/
def applying (p : ThreadPool W) (w : W) : Option (OrderBook × Task) :=
  match p.workers w with
  | .logged task => (p.registry task.symbol).map fun book => (book, task)
  | _ => none

theorem applying_eq_some {p : ThreadPool W} {w : W} {book : OrderBook} {task : Task} :
    p.applying w = some (book, task) ↔ p.workers w = .logged task ∧ p.registry task.symbol = some book := by
  unfold applying
  constructor
  · intro h
    split at h
    next t hw =>
      obtain ⟨b, hb, heq⟩ := Option.map_eq_some_iff.1 h
      cases heq
      exact ⟨hw, hb⟩
    next => cases h
  · rintro ⟨hw, hb⟩
    rw [hw]
    simp only [hb]
    rfl

variable [DecidableEq W]

def move (p : ThreadPool W) (w : W) (s : Worker) : ThreadPool W :=
  { p with workers := Function.update p.workers w s }

/-- One step; `none` where the thread would wait or stands elsewhere in its loop. -/
def step (p : ThreadPool W) : PoolAction W → Option (ThreadPool W)
  | .submit task =>
    if p.tasks.length < maxQueueCapacity then some { p with tasks := p.tasks ++ [task] } else none
  | .dequeue w =>
    match p.workers w, p.tasks with
    | .idle, task :: tasks => some ({ p with tasks := tasks }.move w (.got task))
    | _, _ => none
  | .getOrderBook w =>
    match p.workers w with
    | .got task => some ({ p with registry := (p.registry.getOrderBook task.symbol).2 }.move w (.found task))
    | _ => none
  | .lock w =>
    match p.workers w with
    | .found task =>
      match p.locks task.symbol with
      | none => some ({ p with locks := Function.update p.locks task.symbol (some w) }.move w (.locked task))
      | some _ => none
    | _ => none
  | .log w entry net =>
    match p.workers w with
    | .locked task => some ({ p with wal := p.wal.enqueue (entry.ofRequest net task.request) }.move w (.logged task))
    | _ => none
  | .apply w =>
    match p.workers w with
    | .logged task =>
      match p.registry task.symbol with
      | some book =>
        let e := book.apply task.request.op p.env
        some ({ p with registry := p.registry.set task.symbol e.book, env := e.env }.move w (.applied task e.result))
      | none => none
    | _ => none
  | .unlock w =>
    match p.workers w with
    | .applied task result =>
      some ({ p with locks := Function.update p.locks task.symbol none }.move w
        (.finishing result.fills result.executionReports result.fills))
    | _ => none
  | .logFill w entry =>
    match p.workers w with
    | .finishing (fill :: fills) reports trades =>
      some ({ p with wal := p.wal.enqueue (entry.ofFill fill) }.move w (.finishing fills reports trades))
    | _ => none
  | .publishReport w =>
    match p.workers w with
    | .finishing [] (report :: reports) trades =>
      some ({ p with reports := p.reports ++ [report] }.move w (.finishing [] reports trades))
    | _ => none
  | .publishTrade w =>
    match p.workers w with
    | .finishing [] [] (fill :: trades) =>
      some ({ p with trades := p.trades ++ [fill.trade] }.move w (.finishing [] [] trades))
    | _ => none
  | .finish w =>
    match p.workers w with
    | .finishing [] [] [] => some (p.move w .idle)
    | _ => none
  | .flush =>
    match p.wal.flush with
    | some wal => some { p with wal := wal }
    | none => none

/-- Everything a step can do. -/
inductive Steps (p : ThreadPool W) : PoolAction W → ThreadPool W → Prop
  | submit (task : Task) (hlen : p.tasks.length < maxQueueCapacity) :
    Steps p (.submit task) { p with tasks := p.tasks ++ [task] }
  | dequeue (w : W) (task : Task) (tasks : List Task) (hw : p.workers w = .idle) (ht : p.tasks = task :: tasks) :
    Steps p (.dequeue w) ({ p with tasks := tasks }.move w (.got task))
  | getOrderBook (w : W) (task : Task) (hw : p.workers w = .got task) :
    Steps p (.getOrderBook w) ({ p with registry := (p.registry.getOrderBook task.symbol).2 }.move w (.found task))
  | lock (w : W) (task : Task) (hw : p.workers w = .found task) (hl : p.locks task.symbol = none) :
    Steps p (.lock w) ({ p with locks := Function.update p.locks task.symbol (some w) }.move w (.locked task))
  | log (w : W) (entry : WALEntry) (net : NetOrder) (task : Task) (hw : p.workers w = .locked task) :
    Steps p (.log w entry net)
      ({ p with wal := p.wal.enqueue (entry.ofRequest net task.request) }.move w (.logged task))
  | apply (w : W) (task : Task) (book : OrderBook) (hw : p.workers w = .logged task)
    (hb : p.registry task.symbol = some book) :
    Steps p (.apply w)
      ({ p with
        registry := p.registry.set task.symbol (book.apply task.request.op p.env).book
        env := (book.apply task.request.op p.env).env }.move w
          (.applied task (book.apply task.request.op p.env).result))
  | unlock (w : W) (task : Task) (result : MatchResult) (hw : p.workers w = .applied task result) :
    Steps p (.unlock w) ({ p with locks := Function.update p.locks task.symbol none }.move w
      (.finishing result.fills result.executionReports result.fills))
  | logFill (w : W) (entry : WALEntry) (fill : Fill) (fills : List Fill) (reports : List ExecutionReport)
    (trades : List Fill) (hw : p.workers w = .finishing (fill :: fills) reports trades) :
    Steps p (.logFill w entry)
      ({ p with wal := p.wal.enqueue (entry.ofFill fill) }.move w (.finishing fills reports trades))
  | publishReport (w : W) (report : ExecutionReport) (reports : List ExecutionReport) (trades : List Fill)
    (hw : p.workers w = .finishing [] (report :: reports) trades) :
    Steps p (.publishReport w) ({ p with reports := p.reports ++ [report] }.move w (.finishing [] reports trades))
  | publishTrade (w : W) (fill : Fill) (trades : List Fill) (hw : p.workers w = .finishing [] [] (fill :: trades)) :
    Steps p (.publishTrade w) ({ p with trades := p.trades ++ [fill.trade] }.move w (.finishing [] [] trades))
  | finish (w : W) (hw : p.workers w = .finishing [] [] []) : Steps p (.finish w) (p.move w .idle)
  | flush (wal : WAL) (hf : p.wal.flush = some wal) : Steps p .flush { p with wal := wal }

theorem steps {p p' : ThreadPool W} {a : PoolAction W} (h : p.step a = some p') : Steps p a p' := by
  cases a with
  | submit task =>
    simp only [step] at h
    split at h
    next hlen => cases h; exact .submit task hlen
    next => cases h
  | dequeue w =>
    simp only [step] at h
    split at h
    next task tasks hw ht => cases h; exact .dequeue w task tasks hw ht
    next => cases h
  | getOrderBook w =>
    simp only [step] at h
    split at h
    next task hw => cases h; exact .getOrderBook w task hw
    next => cases h
  | lock w =>
    simp only [step] at h
    split at h
    next task hw =>
      split at h
      next hl => cases h; exact .lock w task hw hl
      next => cases h
    next => cases h
  | log w entry net =>
    simp only [step] at h
    split at h
    next task hw => cases h; exact .log w entry net task hw
    next => cases h
  | apply w =>
    simp only [step] at h
    split at h
    next task hw =>
      split at h
      next book hb => cases h; exact .apply w task book hw hb
      next => cases h
    next => cases h
  | unlock w =>
    simp only [step] at h
    split at h
    next task result hw => cases h; exact .unlock w task result hw
    next => cases h
  | logFill w entry =>
    simp only [step] at h
    split at h
    next fill fills reports trades hw => cases h; exact .logFill w entry fill fills reports trades hw
    next => cases h
  | publishReport w =>
    simp only [step] at h
    split at h
    next report reports trades hw => cases h; exact .publishReport w report reports trades hw
    next => cases h
  | publishTrade w =>
    simp only [step] at h
    split at h
    next fill trades hw => cases h; exact .publishTrade w fill trades hw
    next => cases h
  | finish w =>
    simp only [step] at h
    split at h
    next hw => cases h; exact .finish w hw
    next => cases h
  | flush =>
    simp only [step] at h
    split at h
    next wal hf => cases h; exact .flush wal hf
    next => cases h

/-! ## Moves -/

variable {p : ThreadPool W}

theorem move_self (w : W) (s : Worker) : (p.move w s).workers w = s := Function.update_self ..

theorem move_of_ne {w w' : W} (h : w' ≠ w) (s : Worker) : (p.move w s).workers w' = p.workers w' :=
  Function.update_of_ne h ..

/-- What a move does not change of the worker that moves, it does not change of any. -/
theorem move_view {β : Type*} (f : Worker → β) {w : W} {s : Worker} (h : f s = f (p.workers w)) (w' : W) :
    f ((p.move w s).workers w') = f (p.workers w') := by
  by_cases hw : w' = w
  · rw [hw, move_self, h]
  · rw [move_of_ne hw]

/-! ## Applying -/

/-- Applying is the only step that changes a book; others may make a new one. -/
theorem registry_step {p' : ThreadPool W} {a : PoolAction W} (hs : p.step a = some p') :
    p'.registry = p.registry ∨ (∃ symbol, p'.registry = (p.registry.getOrderBook symbol).2) ∨
      ∃ w book task, a = .apply w ∧ p.applying w = some (book, task) ∧
        p'.registry = p.registry.set task.symbol (book.apply task.request.op p.env).book := by
  cases steps hs with
  | getOrderBook w task hw => exact .inr (.inl ⟨task.symbol, rfl⟩)
  | apply w task book hw hb => exact .inr (.inr ⟨w, book, task, rfl, applying_eq_some.2 ⟨hw, hb⟩, rfl⟩)
  | _ => exact .inl rfl

/-- A worker that has an operation to apply can apply it. -/
theorem step_apply {w : W} {book : OrderBook} {task : Task} (h : p.applying w = some (book, task)) :
    ∃ p', p.step (.apply w) = some p' ∧
      p'.registry = p.registry.set task.symbol (book.apply task.request.op p.env).book := by
  obtain ⟨hw, hb⟩ := applying_eq_some.1 h
  let e := book.apply task.request.op p.env
  refine ⟨{ p with registry := p.registry.set task.symbol e.book, env := e.env }.move w (.applied task e.result), ?_, rfl⟩
  simp only [step, hw, hb, e]

/-- What holds of a new book and is kept by every operation that is applied, holds of all books. -/
theorem books_step {P : OrderBook → Prop} {p' : ThreadPool W} {a : PoolAction W} (hs : p.step a = some p')
    (hinit : ∀ w task, p.workers w = .got task → P (.init task.symbol))
    (happly : ∀ w book task, p.applying w = some (book, task) → P book → P (book.apply task.request.op p.env).book)
    (h : p.registry.All P) : p'.registry.All P := by
  cases steps hs with
  | getOrderBook w task hw => exact h.getOrderBook (hinit w task hw)
  | apply w task book hw hb =>
    exact h.set_iff.2 (happly w book task (applying_eq_some.2 ⟨hw, hb⟩) (h _ _ hb))
  | _ => exact h

/-! ## Publishing -/

/-- A worker that has come to a report can publish it. -/
theorem step_publishReport {w : W} {report : ExecutionReport} {reports : List ExecutionReport} {trades : List Fill}
    (hw : p.workers w = .finishing [] (report :: reports) trades) : p.step (.publishReport w) =
      some ({ p with reports := p.reports ++ [report] }.move w (.finishing [] reports trades)) := by
  simp only [step, hw]

/-- No step reads the queue of reports: it may as well hold those that the dispatch thread has taken. -/
theorem step_withReports {p' : ThreadPool W} {a : PoolAction W} (hs : p.step a = some p') (taken : List ExecutionReport) :
    { p with reports := taken ++ p.reports }.step a = some { p' with reports := taken ++ p'.reports } := by
  cases steps hs with
  | submit task hlen => exact if_pos hlen
  | dequeue w task tasks hw ht => simp only [step, hw, ht, move]
  | getOrderBook w task hw => simp only [step, hw, move]
  | lock w task hw hl => simp only [step, hw, hl, move]
  | log w entry net task hw => simp only [step, hw, move]
  | apply w task book hw hb => simp only [step, hw, hb, move]
  | unlock w task result hw => simp only [step, hw, move]
  | logFill w entry fill fills reports trades hw => simp only [step, hw, move]
  | publishReport w report reports trades hw => simp only [step, hw, move, List.append_assoc]
  | publishTrade w fill trades hw => simp only [step, hw, move]
  | finish w hw => simp only [step, hw, move]
  | flush wal hf => simp only [step, hf]

/-! ## The tasks of a pool -/

/-- A worker moves on with such a task or with none. -/
theorem AllTasks.move {Q : Task → Prop} (h : p.AllTasks Q) {p' : ThreadPool W} {w : W} {s : Worker}
    (hqueued : ∀ task ∈ p'.tasks, Q task) (hworkers : p'.workers = (p.move w s).workers)
    (hs : ∀ task, s.task = some task → Q task) : p'.AllTasks Q := by
  refine ⟨hqueued, fun w' task ht => ?_⟩
  rw [hworkers] at ht
  by_cases hw : w' = w
  · rw [hw, move_self] at ht
    exact hs task ht
  · rw [move_of_ne hw] at ht
    exact h.taken w' task ht

/-- Workers take up queued tasks only: what holds of the tasks handed in holds of all. -/
theorem AllTasks.step {Q : Task → Prop} {p' : ThreadPool W} {a : PoolAction W} (hs : p.step a = some p')
    (ha : ∀ task, a = .submit task → Q task) (h : p.AllTasks Q) : p'.AllTasks Q := by
  have htaken : ∀ {w s}, p.workers w = s → ∀ {s' : Worker}, s'.task = s.task → ∀ task, s'.task = some task → Q task :=
    fun {w} s hw s' hs task ht => h.taken w task (by rw [hw, ← hs, ht])
  cases steps hs with
  | submit task hlen =>
    refine ⟨fun t ht => ?_, h.taken⟩
    rcases List.mem_append.1 ht with ht | ht
    · exact h.queued t ht
    · rw [List.mem_singleton.1 ht]
      exact ha task rfl
  | dequeue w task tasks hw ht =>
    have hqueued : ∀ t ∈ task :: tasks, Q t := fun t hmem => h.queued t (by rw [ht]; exact hmem)
    refine h.move (w := w) (fun t hmem => hqueued t (List.mem_cons_of_mem _ hmem)) rfl ?_
    rintro t ⟨⟩
    exact hqueued task (List.mem_cons_self ..)
  | getOrderBook w task hw => exact h.move h.queued rfl (htaken hw rfl)
  | lock w task hw hl => exact h.move h.queued rfl (htaken hw rfl)
  | log w entry net task hw => exact h.move h.queued rfl (htaken hw rfl)
  | apply w task book hw hb => exact h.move h.queued rfl (by rintro t ⟨⟩)
  | unlock w task result hw => exact h.move h.queued rfl (htaken hw rfl)
  | logFill w entry fill fills reports trades hw => exact h.move h.queued rfl (htaken hw rfl)
  | publishReport w report reports trades hw => exact h.move h.queued rfl (htaken hw rfl)
  | publishTrade w fill trades hw => exact h.move h.queued rfl (htaken hw rfl)
  | finish w hw => exact h.move h.queued rfl (htaken hw rfl)
  | flush wal hf => exact ⟨h.queued, h.taken⟩

end ThreadPool

end StockExchange
