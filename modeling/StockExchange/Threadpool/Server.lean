/-
The threads around a `ThreadPool` and its `WAL`, step by step: those that call `submit`, the workers in `worker_loop`
and in the `log_*` calls, the flush thread in `flush_loop`, and the thread that calls `ThreadPool::shutdown` and then
`WAL::stop`. The two queues are `SafeQueue` and `MpscQueue` as the code has them; between the queues a worker
takes the steps of the pool.
-/
import StockExchange.Pipeline.MpscQueue
import StockExchange.Threadpool.SafeQueue
import StockExchange.Threadpool.ThreadPool

universe u

namespace StockExchange

namespace Server

/-- The threads that use `task_queue_`. -/
inductive Thread (S : Type u) (n : ℕ)
  | submitter (t : S)
  | worker (w : Fin n)
  /-- The thread that shuts the pool and the log down. -/
  | main
  deriving DecidableEq

/-- What a `log_*` call is about. -/
inductive Record
  | request (task : Task)
  | fill (f : Fill)

/-- The entry of a record; `entry` and `net` are the old contents of memory. -/
def Record.entry (entry : WALEntry) (net : NetOrder) : Record → WALEntry
  | .request task => entry.ofRequest net task.request
  | .fill f => entry.ofFill f

def Record.task : Record → Option Task
  | .request task => some task
  | .fill _ => none

def Record.filled : Record → Option Fill
  | .request _ => none
  | .fill f => some f

/-- What a worker is to log next, and where it stands when the call has returned. -/
def toLog : Worker → Option (Record × Worker)
  | .locked task => some (.request task, .logged task)
  | .finishing (fill :: fills) reports trades => some (.fill fill, .finishing fills reports trades)
  | _ => none

/-- Where a worker stands in a `log_*` call. -/
inductive Logging
  | idle
  /-- At the condition of the loop. -/
  | loop (entry : WALEntry)
  /-- In `queue_.enqueue`, which the queue knows more about. -/
  | enqueue (entry : WALEntry)
  /-- The entry is in, the link to it is still to be stored. -/
  | store
  deriving DecidableEq

/-- Where the flush thread stands in `flush_loop`. -/
inductive Flusher
  | test
  /-- `running_` was not set. -/
  | testEmpty
  | dequeue
  | write (entry : WALEntry)
  | finished
  deriving DecidableEq

/-- Where the thread stands that calls `shutdown` and then `stop`. -/
inductive Main
  | serving
  /-- `stop_` has been set; in `task_queue_.close`. -/
  | closing
  /-- The workers before this one have been joined. -/
  | joining (next : ℕ)
  /-- `shutdown` has returned. -/
  | shutDown
  /-- `running_` has been cleared. -/
  | closingLog
  | joiningFlusher
  /-- `stop` has returned. -/
  | stopped
  deriving DecidableEq

/-- `shutdown` has returned. -/
def Main.pastShutdown : Main → Bool
  | .shutDown => true
  | .closingLog => true
  | .joiningFlusher => true
  | .stopped => true
  | _ => false

inductive Action (S : Type u) (n : ℕ)
  /-- `submit` is called and loads `stop_`. -/
  | submit (t : S) (task : Task)
  | enqueue (t : S) (pick : Option (Thread S n))
  | wakeSubmitter (t : S)
  | callDequeue (w : Fin n)
  | dequeue (w : Fin n) (pick : Option (Thread S n))
  | wakeWorker (w : Fin n)
  /-- A step of a worker between the calls that log. -/
  | work (a : PoolAction (Fin n))
  /-- A `log_*` call is made and loads `running_`. -/
  | log (w : Fin n) (entry : WALEntry) (net : NetOrder)
  | loop (w : Fin n)
  | loadClosed (w : Fin n)
  | alloc (w : Fin n) (node : MpscQueue.Addr)
  | exchange (w : Fin n)
  | store (w : Fin n)
  | flushTest
  | flushEmpty
  | loadNext
  | advance
  | delete
  | write
  | shutdown
  | close
  | notifyPop
  | notifyPush
  | join
  | stopLog
  | closeLog
  | joinFlusher

/-- The worker of a step between the calls that log. -/
def inner {W : Type u} : PoolAction W → Option W
  | .getOrderBook w => some w
  | .lock w => some w
  | .apply w => some w
  | .unlock w => some w
  | .publishReport w => some w
  | .publishTrade w => some w
  | .finish w => some w
  | _ => none

/-- A call of `submit` with what it returns. -/
structure Answer (S : Type u) where
  thread : S
  task : Task
  ok : Bool

end Server

open Server

structure Server (S : Type u) (n : ℕ) where
  /-- `stop_` and `task_queue_` of the pool. -/
  stop : Bool := false
  taskQueue : SafeQueue (Thread S n) Task := .start _ _ maxQueueCapacity
  registry : BookRegistry := .empty
  locks : Symbol → Option (Fin n) := fun _ => none
  workers : Fin n → Worker := fun _ => .idle
  logging : Fin n → Logging := fun _ => .idle
  reports : List ExecutionReport := []
  trades : List Trade := []
  env : Env
  /-- `running_`, `queue_` and the file of the log. -/
  running : Bool := true
  walQueue : MpscQueue (Fin n) WALEntry
  flusher : Flusher := .test
  file : List UInt8 := []
  main : Main := .serving
  /-- The calls of `submit` that have nothing left to do but return. Nothing reads it. -/
  answers : List (Answer S) := []
  /-- The operations that the workers have run, with their results. Nothing reads it. -/
  applied : List (Task × MatchResult) := []
  /-- What the entries of the log are about, in the order in which they went into its queue. Nothing reads it. -/
  records : List Record := []

namespace Server

variable {S : Type u} {n : ℕ}

/-- A pool with `n` workers on some books, and a log that has been started on a file. -/
def start (S : Type u) (n : ℕ) (registry : BookRegistry) (env : Env) (file : List UInt8) (stub : MpscQueue.Addr) :
    Server S n where
  registry := registry
  env := env
  file := file
  walQueue := .start _ _ stub

/-- The entry that the flush thread has taken out and not written yet. -/
def Flusher.hand : Flusher → List WALEntry
  | .write entry => [entry]
  | _ => []

/-- The entries that have gone into the queue of the log. -/
def entries (s : Server S n) : List WALEntry := s.walQueue.exchanged.map Prod.snd

/-- The pool, with the entries that are not in the file yet. -/
def pool (s : Server S n) : ThreadPool (Fin n) where
  tasks := s.taskQueue.queue
  registry := s.registry
  locks := s.locks
  workers := s.workers
  wal := ⟨s.flusher.hand ++ s.entries.drop s.walQueue.dequeued.length, s.file⟩
  reports := s.reports
  trades := s.trades
  env := s.env

/-- What a step of a worker leaves. -/
def put (s : Server S n) (p : ThreadPool (Fin n)) : Server S n :=
  { s with
    registry := p.registry
    locks := p.locks
    workers := p.workers
    reports := p.reports
    trades := p.trades
    env := p.env }

/-- The operation that a step runs, with its result. -/
def operation (p : ThreadPool (Fin n)) : PoolAction (Fin n) → List (Task × MatchResult)
  | .apply w => (p.applying w).toList.map fun q => (q.2, (q.1.apply q.2.request.op p.env).result)
  | _ => []

/-- The worker has been told that there is nothing more to do, and has left its loop. -/
def Exited (s : Server S n) (w : Fin n) : Prop := s.taskQueue.points (.worker w) = .dequeued none

instance (s : Server S n) (w : Fin n) : Decidable (s.Exited w) :=
  inferInstanceAs (Decidable (s.taskQueue.points (.worker w) = .dequeued none))

def moveTo (s : Server S n) (w : Fin n) (worker : Worker) (logging : Logging) : Server S n :=
  { s with
    workers := Function.update s.workers w worker
    logging := Function.update s.logging w logging }

variable [DecidableEq S]

/-- `submit` returns what `enqueue` has returned, if it has. -/
def answer (t : S) (task : Task) : SafeQueue.Point Task → List (Answer S)
  | .enqueued ok => [⟨t, task, ok⟩]
  | _ => []

/-- A worker goes on with the task that `dequeue` has returned, if it has. -/
def receive (s : Server S n) (w : Fin n) : SafeQueue.Point Task → Server S n
  | .dequeued (some task) => s.moveTo w (.got task) (s.logging w)
  | _ => s

/-- One step; `none` where the thread stands elsewhere, or waits. -/
def step (s : Server S n) : Action S n → Option (Server S n)
  | .submit t task =>
    if s.stop then
      if (s.taskQueue.points (.submitter t)).free then some { s with answers := s.answers ++ [⟨t, task, false⟩] } else none
    else (s.taskQueue.step (.callEnqueue (.submitter t) task)).map fun q => { s with taskQueue := q }
  | .enqueue t pick =>
    match s.taskQueue.points (.submitter t) with
    | .enqueue task =>
      (s.taskQueue.step (.enqueue (.submitter t) pick)).map fun q =>
        { s with taskQueue := q, answers := s.answers ++ answer t task (q.points (.submitter t)) }
    | _ => none
  | .wakeSubmitter t => (s.taskQueue.step (.wakePush (.submitter t))).map fun q => { s with taskQueue := q }
  | .callDequeue w =>
    match s.workers w with
    | .idle =>
      if s.logging w = .idle ∧ ¬ s.Exited w then
        (s.taskQueue.step (.callDequeue (.worker w))).map fun q => { s with taskQueue := q }
      else none
    | _ => none
  | .dequeue w pick =>
    (s.taskQueue.step (.dequeue (.worker w) pick)).map fun q =>
      { s with taskQueue := q }.receive w (q.points (.worker w))
  | .wakeWorker w => (s.taskQueue.step (.wakePop (.worker w))).map fun q => { s with taskQueue := q }
  | .work a =>
    match inner a with
    | some w =>
      if s.logging w = .idle then
        (s.pool.step a).map fun p => { s.put p with applied := s.applied ++ operation s.pool a }
      else none
    | none => none
  | .log w entry net =>
    match toLog (s.workers w), s.logging w with
    | some (record, next), .idle =>
      if s.running then some (s.moveTo w (s.workers w) (.loop (record.entry entry net))) else some (s.moveTo w next .idle)
    | _, _ => none
  | .loop w =>
    match toLog (s.workers w), s.logging w with
    | some (_, next), .loop entry =>
      if s.running then some (s.moveTo w (s.workers w) (.enqueue entry)) else some (s.moveTo w next .idle)
    | _, _ => none
  | .loadClosed w =>
    match s.logging w with
    | .enqueue entry =>
      (s.walQueue.step (.loadClosed w entry)).map fun q =>
        { s with walQueue := q }.moveTo w (s.workers w) (if s.walQueue.closed then .loop entry else .enqueue entry)
    | _ => none
  | .alloc w node =>
    match s.logging w with
    | .enqueue _ => (s.walQueue.step (.alloc w node)).map fun q => { s with walQueue := q }
    | _ => none
  | .exchange w =>
    match toLog (s.workers w), s.logging w with
    | some (record, next), .enqueue _ =>
      (s.walQueue.step (.exchange w)).map fun q =>
        { s with walQueue := q, records := s.records ++ [record] }.moveTo w next .store
    | _, _ => none
  | .store w =>
    match s.logging w with
    | .store => (s.walQueue.step (.store w)).map fun q => { s with walQueue := q }.moveTo w (s.workers w) .idle
    | _ => none
  | .flushTest =>
    match s.flusher with
    | .test => some { s with flusher := if s.running then .dequeue else .testEmpty }
    | _ => none
  | .flushEmpty =>
    match s.flusher, s.walQueue.empty with
    | .testEmpty, some empty => some { s with flusher := if empty then .finished else .dequeue }
    | _, _ => none
  | .loadNext =>
    match s.flusher with
    | .dequeue =>
      (s.walQueue.step .loadNext).map fun q =>
        { s with walQueue := q, flusher := match q.consumer with | .idle => .test | _ => .dequeue }
    | _ => none
  | .advance =>
    match s.flusher with
    | .dequeue => (s.walQueue.step .advance).map fun q => { s with walQueue := q }
    | _ => none
  | .delete =>
    match s.flusher, s.walQueue.consumer with
    | .dequeue, .advanced _ entry =>
      (s.walQueue.step .delete).map fun q => { s with walQueue := q, flusher := .write entry }
    | _, _ => none
  | .write =>
    match s.flusher with
    | .write entry => some { s with file := s.file ++ WALEntry.packed.put entry, flusher := .test }
    | _ => none
  | .shutdown =>
    match s.main with
    | .serving =>
      if s.stop then some { s with main := .shutDown }
      else (s.taskQueue.step (.callClose .main)).map fun q => { s with stop := true, taskQueue := q, main := .closing }
    | _ => none
  | .close => closeStep s (.close .main)
  | .notifyPop => closeStep s (.notifyPop .main)
  | .notifyPush => closeStep s (.notifyPush .main)
  | .join =>
    match s.main with
    | .joining i =>
      if h : i < n then if s.Exited ⟨i, h⟩ then some { s with main := .joining (i + 1) } else none
      else some { s with main := .shutDown }
    | _ => none
  | .stopLog =>
    match s.main with
    | .shutDown => some { s with running := false, main := if s.running then .closingLog else .stopped }
    | _ => none
  | .closeLog =>
    match s.main with
    | .closingLog => (s.walQueue.step .close).map fun q => { s with walQueue := q, main := .joiningFlusher }
    | _ => none
  | .joinFlusher =>
    match s.main, s.flusher with
    | .joiningFlusher, .finished => some { s with main := .stopped }
    | _, _ => none
where
  /-- A step of `task_queue_.close`; when it has returned, the workers are joined. -/
  closeStep (s : Server S n) (a : SafeQueue.Action (Thread S n) Task) : Option (Server S n) :=
    match s.main with
    | .closing =>
      (s.taskQueue.step a).map fun q =>
        { s with taskQueue := q, main := match q.points .main with | .closed => .joining 0 | _ => .closing }
    | _ => none

/-- Everything a step can do. -/
inductive Steps (s : Server S n) : Action S n → Server S n → Prop
  | rejected (t : S) (task : Task) (hstop : s.stop = true) (ht : (s.taskQueue.points (.submitter t)).free = true) :
    Steps s (.submit t task) { s with answers := s.answers ++ [⟨t, task, false⟩] }
  | submit (t : S) (task : Task) (q : SafeQueue (Thread S n) Task) (hstop : s.stop = false)
    (hq : s.taskQueue.step (.callEnqueue (.submitter t) task) = some q) :
    Steps s (.submit t task) { s with taskQueue := q }
  | enqueue (t : S) (pick : Option (Thread S n)) (task : Task) (q : SafeQueue (Thread S n) Task)
    (ht : s.taskQueue.points (.submitter t) = .enqueue task)
    (hq : s.taskQueue.step (.enqueue (.submitter t) pick) = some q) :
    Steps s (.enqueue t pick)
      { s with taskQueue := q, answers := s.answers ++ answer t task (q.points (.submitter t)) }
  | wakeSubmitter (t : S) (q : SafeQueue (Thread S n) Task)
    (hq : s.taskQueue.step (.wakePush (.submitter t)) = some q) : Steps s (.wakeSubmitter t) { s with taskQueue := q }
  | callDequeue (w : Fin n) (q : SafeQueue (Thread S n) Task) (hw : s.workers w = .idle) (hl : s.logging w = .idle)
    (hrun : ¬ s.Exited w) (hq : s.taskQueue.step (.callDequeue (.worker w)) = some q) :
    Steps s (.callDequeue w) { s with taskQueue := q }
  | dequeueNothing (w : Fin n) (pick : Option (Thread S n)) (q : SafeQueue (Thread S n) Task)
    (hq : s.taskQueue.step (.dequeue (.worker w) pick) = some q)
    (hpc : ∀ task, q.points (.worker w) ≠ .dequeued (some task)) : Steps s (.dequeue w pick) { s with taskQueue := q }
  | dequeue (w : Fin n) (pick : Option (Thread S n)) (task : Task) (q : SafeQueue (Thread S n) Task)
    (hq : s.taskQueue.step (.dequeue (.worker w) pick) = some q) (hpc : q.points (.worker w) = .dequeued (some task)) :
    Steps s (.dequeue w pick) ({ s with taskQueue := q }.moveTo w (.got task) (s.logging w))
  | wakeWorker (w : Fin n) (q : SafeQueue (Thread S n) Task) (hq : s.taskQueue.step (.wakePop (.worker w)) = some q) :
    Steps s (.wakeWorker w) { s with taskQueue := q }
  | work (a : PoolAction (Fin n)) (w : Fin n) (p : ThreadPool (Fin n)) (ha : inner a = some w) (hl : s.logging w = .idle)
    (hp : s.pool.step a = some p) :
    Steps s (.work a) { s.put p with applied := s.applied ++ operation s.pool a }
  | notLogged (w : Fin n) (entry : WALEntry) (net : NetOrder) (record : Record) (next : Worker)
    (hw : toLog (s.workers w) = some (record, next)) (hl : s.logging w = .idle) (hrun : s.running = false) :
    Steps s (.log w entry net) (s.moveTo w next .idle)
  | log (w : Fin n) (entry : WALEntry) (net : NetOrder) (record : Record) (next : Worker)
    (hw : toLog (s.workers w) = some (record, next)) (hl : s.logging w = .idle) (hrun : s.running = true) :
    Steps s (.log w entry net) (s.moveTo w (s.workers w) (.loop (record.entry entry net)))
  | givenUp (w : Fin n) (entry : WALEntry) (record : Record) (next : Worker)
    (hw : toLog (s.workers w) = some (record, next)) (hl : s.logging w = .loop entry) (hrun : s.running = false) :
    Steps s (.loop w) (s.moveTo w next .idle)
  | loop (w : Fin n) (entry : WALEntry) (record : Record) (next : Worker)
    (hw : toLog (s.workers w) = some (record, next)) (hl : s.logging w = .loop entry) (hrun : s.running = true) :
    Steps s (.loop w) (s.moveTo w (s.workers w) (.enqueue entry))
  | loadClosed (w : Fin n) (entry : WALEntry) (q : MpscQueue (Fin n) WALEntry) (hl : s.logging w = .enqueue entry)
    (hq : s.walQueue.step (.loadClosed w entry) = some q) :
    Steps s (.loadClosed w) ({ s with walQueue := q }.moveTo w (s.workers w)
      (if s.walQueue.closed then .loop entry else .enqueue entry))
  | alloc (w : Fin n) (node : MpscQueue.Addr) (entry : WALEntry) (q : MpscQueue (Fin n) WALEntry)
    (hl : s.logging w = .enqueue entry) (hq : s.walQueue.step (.alloc w node) = some q) :
    Steps s (.alloc w node) { s with walQueue := q }
  | exchange (w : Fin n) (entry : WALEntry) (record : Record) (next : Worker) (q : MpscQueue (Fin n) WALEntry)
    (hw : toLog (s.workers w) = some (record, next)) (hl : s.logging w = .enqueue entry)
    (hq : s.walQueue.step (.exchange w) = some q) :
    Steps s (.exchange w) ({ s with walQueue := q, records := s.records ++ [record] }.moveTo w next .store)
  | store (w : Fin n) (q : MpscQueue (Fin n) WALEntry) (hl : s.logging w = .store)
    (hq : s.walQueue.step (.store w) = some q) :
    Steps s (.store w) ({ s with walQueue := q }.moveTo w (s.workers w) .idle)
  | flushTest (hf : s.flusher = .test) :
    Steps s .flushTest { s with flusher := if s.running then .dequeue else .testEmpty }
  | flushEmpty (empty : Bool) (hf : s.flusher = .testEmpty) (he : s.walQueue.empty = some empty) :
    Steps s .flushEmpty { s with flusher := if empty then .finished else .dequeue }
  | loadNext (q : MpscQueue (Fin n) WALEntry) (hf : s.flusher = .dequeue) (hq : s.walQueue.step .loadNext = some q) :
    Steps s .loadNext { s with walQueue := q, flusher := match q.consumer with | .idle => .test | _ => .dequeue }
  | advance (q : MpscQueue (Fin n) WALEntry) (hf : s.flusher = .dequeue) (hq : s.walQueue.step .advance = some q) :
    Steps s .advance { s with walQueue := q }
  | delete (old : MpscQueue.Addr) (entry : WALEntry) (q : MpscQueue (Fin n) WALEntry) (hf : s.flusher = .dequeue)
    (hc : s.walQueue.consumer = .advanced old entry) (hq : s.walQueue.step .delete = some q) :
    Steps s .delete { s with walQueue := q, flusher := .write entry }
  | write (entry : WALEntry) (hf : s.flusher = .write entry) :
    Steps s .write { s with file := s.file ++ WALEntry.packed.put entry, flusher := .test }
  | shutdownAgain (hm : s.main = .serving) (hstop : s.stop = true) : Steps s .shutdown { s with main := .shutDown }
  | shutdown (q : SafeQueue (Thread S n) Task) (hm : s.main = .serving) (hstop : s.stop = false)
    (hq : s.taskQueue.step (.callClose .main) = some q) :
    Steps s .shutdown { s with stop := true, taskQueue := q, main := .closing }
  | close (a : Action S n) (b : SafeQueue.Action (Thread S n) Task) (q : SafeQueue (Thread S n) Task)
    (hb : b = .close .main ∨ b = .notifyPop .main ∨ b = .notifyPush .main) (hm : s.main = .closing)
    (hq : s.taskQueue.step b = some q) :
    Steps s a { s with taskQueue := q, main := match q.points .main with | .closed => .joining 0 | _ => .closing }
  | join (i : ℕ) (hi : i < n) (hm : s.main = .joining i) (hw : s.Exited ⟨i, hi⟩) :
    Steps s .join { s with main := .joining (i + 1) }
  | joined (i : ℕ) (hi : ¬ i < n) (hm : s.main = .joining i) : Steps s .join { s with main := .shutDown }
  | stopLog (hm : s.main = .shutDown) :
    Steps s .stopLog { s with running := false, main := if s.running then .closingLog else .stopped }
  | closeLog (q : MpscQueue (Fin n) WALEntry) (hm : s.main = .closingLog) (hq : s.walQueue.step .close = some q) :
    Steps s .closeLog { s with walQueue := q, main := .joiningFlusher }
  | joinFlusher (hm : s.main = .joiningFlusher) (hf : s.flusher = .finished) :
    Steps s .joinFlusher { s with main := .stopped }

theorem closeStep_eq_some {s s' : Server S n} {b : SafeQueue.Action (Thread S n) Task} (h : step.closeStep s b = some s') :
    ∃ q, s.main = .closing ∧ s.taskQueue.step b = some q ∧
      s' = { s with taskQueue := q, main := match q.points .main with | .closed => .joining 0 | _ => .closing } := by
  rw [step.closeStep] at h
  split at h
  next hm =>
    obtain ⟨q, hq, rfl⟩ := Option.map_eq_some_iff.1 h
    exact ⟨q, hm, hq, rfl⟩
  next => cases h

theorem steps {s s' : Server S n} {a : Action S n} (h : s.step a = some s') : Steps s a s' := by
  cases a with
  | submit t task =>
    simp only [step] at h
    split at h
    next hstop =>
      split at h
      next ht => cases h; exact .rejected t task hstop ht
      next => cases h
    next hstop =>
      obtain ⟨q, hq, rfl⟩ := Option.map_eq_some_iff.1 h
      exact .submit t task q (Bool.not_eq_true _ ▸ hstop) hq
  | enqueue t pick =>
    simp only [step] at h
    split at h
    next task ht =>
      obtain ⟨q, hq, rfl⟩ := Option.map_eq_some_iff.1 h
      exact .enqueue t pick task q ht hq
    next => cases h
  | wakeSubmitter t =>
    obtain ⟨q, hq, rfl⟩ := Option.map_eq_some_iff.1 h
    exact .wakeSubmitter t q hq
  | callDequeue w =>
    simp only [step] at h
    split at h
    next hw =>
      split at h
      next hl =>
        obtain ⟨q, hq, rfl⟩ := Option.map_eq_some_iff.1 h
        exact .callDequeue w q hw hl.1 hl.2 hq
      next => cases h
    next => cases h
  | dequeue w pick =>
    obtain ⟨q, hq, rfl⟩ := Option.map_eq_some_iff.1 h
    unfold receive
    split
    next task hpc => exact .dequeue w pick task q hq hpc
    next hpc => exact .dequeueNothing w pick q hq hpc
  | wakeWorker w =>
    obtain ⟨q, hq, rfl⟩ := Option.map_eq_some_iff.1 h
    exact .wakeWorker w q hq
  | work a =>
    simp only [step] at h
    split at h
    next w ha =>
      split at h
      next hl =>
        obtain ⟨p, hp, rfl⟩ := Option.map_eq_some_iff.1 h
        exact .work a w p ha hl hp
      next => cases h
    next => cases h
  | log w entry net =>
    simp only [step] at h
    split at h
    next record next hw hl =>
      split at h
      next hrun => cases h; exact .log w entry net record next hw hl hrun
      next hrun => cases h; exact .notLogged w entry net record next hw hl (Bool.not_eq_true _ ▸ hrun)
    next => cases h
  | loop w =>
    simp only [step] at h
    split at h
    next record next entry hw hl =>
      split at h
      next hrun => cases h; exact .loop w entry record next hw hl hrun
      next hrun => cases h; exact .givenUp w entry record next hw hl (Bool.not_eq_true _ ▸ hrun)
    next => cases h
  | loadClosed w =>
    simp only [step] at h
    split at h
    next entry hl =>
      obtain ⟨q, hq, rfl⟩ := Option.map_eq_some_iff.1 h
      exact .loadClosed w entry q hl hq
    next => cases h
  | alloc w node =>
    simp only [step] at h
    split at h
    next entry hl =>
      obtain ⟨q, hq, rfl⟩ := Option.map_eq_some_iff.1 h
      exact .alloc w node entry q hl hq
    next => cases h
  | exchange w =>
    simp only [step] at h
    split at h
    next record next entry hw hl =>
      obtain ⟨q, hq, rfl⟩ := Option.map_eq_some_iff.1 h
      exact .exchange w entry record next q hw hl hq
    next => cases h
  | store w =>
    simp only [step] at h
    split at h
    next hl =>
      obtain ⟨q, hq, rfl⟩ := Option.map_eq_some_iff.1 h
      exact .store w q hl hq
    next => cases h
  | flushTest =>
    simp only [step] at h
    split at h
    next hf => cases h; exact .flushTest hf
    next => cases h
  | flushEmpty =>
    simp only [step] at h
    split at h
    next empty hf he => cases h; exact .flushEmpty empty hf he
    next => cases h
  | loadNext =>
    simp only [step] at h
    split at h
    next hf =>
      obtain ⟨q, hq, rfl⟩ := Option.map_eq_some_iff.1 h
      exact .loadNext q hf hq
    next => cases h
  | advance =>
    simp only [step] at h
    split at h
    next hf =>
      obtain ⟨q, hq, rfl⟩ := Option.map_eq_some_iff.1 h
      exact .advance q hf hq
    next => cases h
  | delete =>
    simp only [step] at h
    split at h
    next old entry hf hc =>
      obtain ⟨q, hq, rfl⟩ := Option.map_eq_some_iff.1 h
      exact .delete old entry q hf hc hq
    next => cases h
  | write =>
    simp only [step] at h
    split at h
    next entry hf => cases h; exact .write entry hf
    next => cases h
  | shutdown =>
    simp only [step] at h
    split at h
    next hm =>
      split at h
      next hstop => cases h; exact .shutdownAgain hm hstop
      next hstop =>
        obtain ⟨q, hq, rfl⟩ := Option.map_eq_some_iff.1 h
        exact .shutdown q hm (Bool.not_eq_true _ ▸ hstop) hq
    next => cases h
  | close =>
    obtain ⟨q, hm, hq, rfl⟩ := closeStep_eq_some h
    exact .close _ _ q (.inl rfl) hm hq
  | notifyPop =>
    obtain ⟨q, hm, hq, rfl⟩ := closeStep_eq_some h
    exact .close _ _ q (.inr (.inl rfl)) hm hq
  | notifyPush =>
    obtain ⟨q, hm, hq, rfl⟩ := closeStep_eq_some h
    exact .close _ _ q (.inr (.inr rfl)) hm hq
  | join =>
    simp only [step] at h
    split at h
    next i hm =>
      split at h
      next hi =>
        split at h
        next hw => cases h; exact .join i hi hm hw
        next => cases h
      next hi => cases h; exact .joined i hi hm
    next => cases h
  | stopLog =>
    simp only [step] at h
    split at h
    next hm => cases h; exact .stopLog hm
    next => cases h
  | closeLog =>
    simp only [step] at h
    split at h
    next hm =>
      obtain ⟨q, hq, rfl⟩ := Option.map_eq_some_iff.1 h
      exact .closeLog q hm hq
    next => cases h
  | joinFlusher =>
    simp only [step] at h
    split at h
    next hm hf => cases h; exact .joinFlusher hm hf
    next => cases h

end Server

end StockExchange
