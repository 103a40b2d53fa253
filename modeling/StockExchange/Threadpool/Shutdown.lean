/-
Shutting down. A worker leaves its loop only when the queue has been closed and is empty, and nothing is put in after
that; `shutdown` returns when all workers have left. Only then does `stop` clear `running_`, so no entry is
dropped while a worker is at work, and the emptiness that the flush thread sees after it is final. What has been accepted,
applied and logged is tracked as three flows through the hands of the workers.
-/
import StockExchange.Lib.Flow
import StockExchange.Threadpool.Server
import Mathlib.Data.Fintype.Basic

universe u

namespace StockExchange

namespace Server

variable {S : Type u} {n : ℕ}

/-! ## Through the hands of the workers -/

/-- The task of a worker that is not in the log yet. -/
def unlogged : Worker → List Task
  | .got task => [task]
  | .found task => [task]
  | .locked task => [task]
  | _ => []

/-- The fills of a worker that are not in the log yet. -/
def unloggedFills : Worker → List Fill
  | .applied _ result => result.fills
  | .finishing fills _ _ => fills
  | _ => []

/-- The task of a worker that has not been applied yet. -/
def unapplied (worker : Worker) : List Task := worker.task.toList

/-- Every task that the workers have taken has been applied or is in their hands, it is in the log or is still to be
logged, and so with the fills that have been made. -/
structure Flows (taken : List Task) (applied : List (Task × MatchResult)) (records : List Record)
    (workers : Fin n → Worker) : Prop where
  handled : Flow.Conserved taken (applied.map Prod.fst) (unapplied ∘ workers)
  logged : Flow.Conserved taken (records.filterMap Record.task) (unlogged ∘ workers)
  filled : Flow.Conserved (applied.flatMap fun q => q.2.fills) (records.filterMap Record.filled) (unloggedFills ∘ workers)

section Flows

variable {taken : List Task} {applied : List (Task × MatchResult)} {records : List Record} {workers : Fin n → Worker}

/-- One worker moves. -/
theorem Flows.move (h : Flows taken applied records workers) {w : Fin n} {worker : Worker} {tasks : List Task}
    {done : List (Task × MatchResult)} {logged : List Record}
    (happlied : (tasks ++ unapplied (workers w)).Perm (done.map Prod.fst ++ unapplied worker))
    (hlogged : (tasks ++ unlogged (workers w)).Perm (logged.filterMap Record.task ++ unlogged worker))
    (hfills : ((done.flatMap fun q => q.2.fills) ++ unloggedFills (workers w)).Perm
      (logged.filterMap Record.filled ++ unloggedFills worker)) :
    Flows (taken ++ tasks) (applied ++ done) (records ++ logged) (Function.update workers w worker) := by
  refine ⟨?_, ?_, ?_⟩
  · rw [List.map_append, Function.comp_update]
    exact h.handled.move happlied
  · rw [List.filterMap_append, Function.comp_update]
    exact h.logged.move hlogged
  · rw [List.flatMap_append, List.filterMap_append, Function.comp_update]
    exact h.filled.move hfills

theorem Flows.self (h : Flows taken applied records workers) (w : Fin n) :
    Flows taken applied records (Function.update workers w (workers w)) := by
  rw [Function.update_eq_self]
  exact h

/-- A worker takes a task. -/
theorem Flows.take (h : Flows taken applied records workers) {w : Fin n} (hw : workers w = .idle) (task : Task) :
    Flows (taken ++ [task]) applied records (Function.update workers w (.got task)) := by
  have hmove : Flows (taken ++ [task]) (applied ++ []) (records ++ []) (Function.update workers w (.got task)) := by
    refine h.move ?_ ?_ ?_ <;> rw [hw] <;> rfl
  rwa [List.append_nil, List.append_nil] at hmove

/-- A worker moves on with all that it holds. -/
theorem Flows.keep (h : Flows taken applied records workers) {w : Fin n} {old worker : Worker} (hw : workers w = old)
    (happlied : unapplied worker = unapplied old) (hlogged : unlogged worker = unlogged old)
    (hfills : unloggedFills worker = unloggedFills old) :
    Flows taken (applied ++ []) records (Function.update workers w worker) := by
  have hmove : Flows (taken ++ []) (applied ++ []) (records ++ []) (Function.update workers w worker) := by
    refine h.move ?_ ?_ ?_ <;> rw [hw]
    · exact .of_eq happlied.symm
    · exact .of_eq hlogged.symm
    · exact .of_eq hfills.symm
  rwa [List.append_nil taken, List.append_nil records] at hmove

/-- A worker applies its task. -/
theorem Flows.apply (h : Flows taken applied records workers) {w : Fin n} {task : Task} (hw : workers w = .logged task)
    (result : MatchResult) :
    Flows taken (applied ++ [(task, result)]) records (Function.update workers w (.applied task result)) := by
  have hmove : Flows (taken ++ []) (applied ++ [(task, result)]) (records ++ [])
      (Function.update workers w (.applied task result)) := by
    refine h.move ?_ ?_ ?_ <;> rw [hw]
    · rfl
    · rfl
    · simp [unloggedFills]
  rwa [List.append_nil, List.append_nil] at hmove

/-- A worker logs what it is to log next. -/
theorem Flows.log (h : Flows taken applied records workers) {w : Fin n} {record : Record} {worker : Worker}
    (hw : toLog (workers w) = some (record, worker)) :
    Flows taken applied (records ++ [record]) (Function.update workers w worker) := by
  have hmove : Flows (taken ++ []) (applied ++ []) (records ++ [record]) (Function.update workers w worker) := by
    cases hworker : workers w with
    | locked task =>
      rw [hworker] at hw
      cases hw
      refine h.move ?_ ?_ ?_ <;> rw [hworker] <;> rfl
    | finishing fills reports trades =>
      cases fills with
      | nil =>
        rw [hworker] at hw
        cases hw
      | cons fill fills =>
        rw [hworker] at hw
        cases hw
        refine h.move ?_ ?_ ?_ <;> rw [hworker] <;> rfl
    | _ =>
      rw [hworker] at hw
      cases hw
  rwa [List.append_nil, List.append_nil] at hmove

end Flows

/-! ## Who has left -/

variable [DecidableEq S] {s s' : Server S n} {a : Action S n}

/-- The task queue moves by its own steps. -/
theorem step_taskQueue (hs : s.step a = some s') :
    s'.taskQueue = s.taskQueue ∨ ∃ b, s.taskQueue.step b = some s'.taskQueue := by
  cases steps hs with
  | submit t task q hstop hq => exact .inr ⟨_, hq⟩
  | enqueue t pick task q ht hq => exact .inr ⟨_, hq⟩
  | wakeSubmitter t q hq => exact .inr ⟨_, hq⟩
  | callDequeue w q hw hl hrun hq => exact .inr ⟨_, hq⟩
  | dequeueNothing w pick q hq hpc => exact .inr ⟨_, hq⟩
  | dequeue w pick task q hq hpc => exact .inr ⟨_, hq⟩
  | wakeWorker w q hq => exact .inr ⟨_, hq⟩
  | shutdown q hm hstop hq => exact .inr ⟨_, hq⟩
  | close a b q hb hm hq => exact .inr ⟨_, hq⟩
  | _ => exact .inl rfl

/-- Where a worker stands in the queue changes by its own steps alone. -/
theorem step_point (hs : s.step a = some s') (w : Fin n) :
    s'.taskQueue.points (.worker w) = s.taskQueue.points (.worker w) ∨ s.taskQueue.points (.worker w) = .dequeue ∨
      (s.workers w = .idle ∧ s.logging w = .idle ∧ ¬ s.Exited w) := by
  cases steps hs with
  | submit t task q hstop hq => exact .inl (SafeQueue.step_points hq (by nofun))
  | enqueue t pick task q ht hq => exact .inl (SafeQueue.step_points hq (by nofun))
  | wakeSubmitter t q hq => exact .inl (SafeQueue.step_points hq (by nofun))
  | callDequeue w' q hw hl hrun hq =>
    by_cases h : w = w'
    · subst h
      exact .inr (.inr ⟨hw, hl, hrun⟩)
    · exact .inl (SafeQueue.step_points hq fun e => h (Thread.worker.inj e))
  | dequeueNothing w' pick q hq hpc =>
    by_cases h : w = w'
    · subst h
      exact .inr (.inl (SafeQueue.dequeue_point hq))
    · exact .inl (SafeQueue.step_points hq fun e => h (Thread.worker.inj e))
  | dequeue w' pick task q hq hpc =>
    by_cases h : w = w'
    · subst h
      exact .inr (.inl (SafeQueue.dequeue_point hq))
    · exact .inl (SafeQueue.step_points hq fun e => h (Thread.worker.inj e))
  | wakeWorker w' q hq =>
    cases SafeQueue.steps hq with
    | wakePop t hw => exact .inl rfl
    | call a t pc ha ht => cases ha
  | shutdown q hm hstop hq => exact .inl (SafeQueue.step_points hq (by nofun))
  | close a b q hb hm hq =>
    refine .inl (SafeQueue.step_points hq ?_)
    rcases hb with rfl | rfl | rfl <;> nofun
  | _ => exact .inl rfl

theorem Exited.step (hs : s.step a = some s') {w : Fin n} (h : s.Exited w) : s'.Exited w := by
  rcases step_point hs w with heq | hdequeue | ⟨-, -, hrun⟩
  · exact heq.trans h
  · cases h.symm.trans hdequeue
  · exact absurd h hrun

/-- Workers are waited for before the log is stopped. -/
structure Leaving (s : Server S n) : Prop where
  serving : s.main = .serving → s.stop = false
  joined : ∀ i, s.main = .joining i → ∀ w : Fin n, w.1 < i → s.Exited w
  past : s.main.pastShutdown = true → ∀ w, s.Exited w
  quiet : s.running = false ∨ s.walQueue.closed = true → ∀ w, s.Exited w

theorem Leaving.of_same (hs : s.step a = some s') (h : s.Leaving) (hstop : s'.stop = s.stop) (hmain : s'.main = s.main)
    (hrunning : s'.running = s.running) (hclosed : s'.walQueue.closed = s.walQueue.closed) : s'.Leaving := by
  refine ⟨fun hm => ?_, fun i hm w hw => ?_, fun hp w => ?_, fun hq w => ?_⟩
  · rw [hstop]
    exact h.serving (hmain ▸ hm)
  · exact (h.joined i (hmain ▸ hm) w hw).step hs
  · exact (h.past (hmain ▸ hp) w).step hs
  · rw [hrunning, hclosed] at hq
    exact (h.quiet hq w).step hs

theorem Leaving.step (hs : s.step a = some s') (h : s.Leaving) : s'.Leaving := by
  have hexit : ∀ w, s.Exited w → s'.Exited w := fun w hw => hw.step hs
  have hsame := h.of_same hs
  cases steps hs with
  | loadClosed w entry q hl hq => exact hsame rfl rfl rfl (MpscQueue.step_closed hq nofun)
  | alloc w node entry q hl hq => exact hsame rfl rfl rfl (MpscQueue.step_closed hq nofun)
  | exchange w entry record next q hw hl hq => exact hsame rfl rfl rfl (MpscQueue.step_closed hq nofun)
  | store w q hl hq => exact hsame rfl rfl rfl (MpscQueue.step_closed hq nofun)
  | loadNext q hf hq => exact hsame rfl rfl rfl (MpscQueue.step_closed hq nofun)
  | advance q hf hq => exact hsame rfl rfl rfl (MpscQueue.step_closed hq nofun)
  | delete old entry q hf hc hq => exact hsame rfl rfl rfl (MpscQueue.step_closed hq nofun)
  | shutdownAgain hm hstop =>
    rw [h.serving hm] at hstop
    cases hstop
  | shutdown q hm hstop hq => exact ⟨nofun, nofun, nofun, fun hq w => hexit w (h.quiet hq w)⟩
  | close a b q hb hm hq =>
    refine ⟨fun hmain => ?_, fun i hmain w hw => ?_, fun hp => ?_, fun hq w => hexit w (h.quiet hq w)⟩
    · dsimp only at hmain
      split at hmain <;> cases hmain
    · dsimp only at hmain
      split at hmain
      · cases hmain
        exact absurd hw (Nat.not_lt_zero _)
      · cases hmain
    · dsimp only at hp
      split at hp <;> cases hp
  | join i hi hm hw =>
    refine ⟨nofun, fun j hmain w hlt => ?_, nofun, h.quiet⟩
    cases hmain
    rcases Nat.lt_succ_iff_lt_or_eq.1 hlt with hlt | heq
    · exact h.joined i hm w hlt
    · obtain rfl : w = ⟨i, hi⟩ := Fin.ext heq
      exact hw
  | joined i hi hm =>
    refine ⟨nofun, nofun, fun _ w => h.joined i hm w ?_, h.quiet⟩
    exact w.2.trans_le (Nat.le_of_not_lt hi)
  | stopLog hm =>
    have hall : ∀ w, s.Exited w := h.past (by rw [hm]; rfl)
    refine ⟨fun hmain => ?_, fun i hmain => ?_, fun _ => hall, fun _ => hall⟩
    · dsimp only at hmain
      split at hmain <;> cases hmain
    · dsimp only at hmain
      split at hmain <;> cases hmain
  | closeLog q hm hq =>
    have hall : ∀ w, s.Exited w := h.past (by rw [hm]; rfl)
    exact ⟨nofun, nofun, fun _ => hall, fun _ => hall⟩
  | joinFlusher hm hf =>
    have hall : ∀ w, s.Exited w := h.past (by rw [hm]; rfl)
    exact ⟨nofun, nofun, fun _ => hall, h.quiet⟩
  | _ => exact hsame rfl rfl rfl rfl

/-! ## Who holds a task -/

/-- The worker is between two tasks. -/
def Idle (s : Server S n) (w : Fin n) : Prop := s.workers w = .idle ∧ s.logging w = .idle

/-- A worker is between two tasks, or has just got one from the queue. -/
def Holding (s : Server S n) : Prop :=
  ∀ w, s.Idle w ∨ ∃ task, s.taskQueue.points (.worker w) = .dequeued (some task)

omit [DecidableEq S] in
theorem Holding.not_exited (h : s.Holding) {w : Fin n} (hw : ¬ s.Idle w) : ¬ s.Exited w := by
  obtain ⟨task, ht⟩ := (h w).resolve_left hw
  intro hexit
  cases hexit.symm.trans ht

omit [DecidableEq S] in
theorem Holding.idle (h : s.Holding) {w : Fin n} (hw : ∀ task, s.taskQueue.points (.worker w) ≠ .dequeued (some task)) :
    s.Idle w := (h w).resolve_right fun ⟨task, ht⟩ => hw task ht

/-- A worker that takes the mutex in `dequeue` is between two tasks. -/
theorem Holding.idle_of_dequeue (h : s.Holding) {w : Fin n} {pick : Option (Thread S n)} {q : SafeQueue (Thread S n) Task}
    (hq : s.taskQueue.step (.dequeue (.worker w) pick) = some q) : s.Idle w := by
  refine h.idle fun task ht => ?_
  cases (SafeQueue.dequeue_point hq).symm.trans ht

omit [DecidableEq S] in
theorem not_idle_of_toLog {w : Fin n} {q : Record × Worker} (h : toLog (s.workers w) = some q) : ¬ s.Idle w := by
  rintro ⟨hw, -⟩
  rw [hw] at h
  cases h

omit [DecidableEq S] in
theorem not_idle_of_logging {w : Fin n} {l : Logging} (h : s.logging w = l) (hl : l ≠ .idle) : ¬ s.Idle w :=
  fun hidle => hl (h.symm.trans hidle.2)

theorem Holding.of_idle (hs : s.step a = some s') (h : s.Holding) (hidle : ∀ w, s.Idle w → s'.Idle w) : s'.Holding := by
  intro w
  rcases h w with hw | ⟨task, ht⟩
  · exact .inl (hidle w hw)
  · rcases step_point hs w with heq | hdequeue | ⟨hw, hl, -⟩
    · exact .inr ⟨task, heq.trans ht⟩
    · cases ht.symm.trans hdequeue
    · exact .inl (hidle w ⟨hw, hl⟩)

/-- One worker moves that is busy. -/
theorem Holding.of_move (hs : s.step a = some s') (h : s.Holding) ⦃w : Fin n⦄ ⦃worker : Worker⦄ ⦃l : Logging⦄
    (hw : ¬ s.Idle w) (hworkers : s'.workers = Function.update s.workers w worker)
    (hlogging : s'.logging = Function.update s.logging w l) : s'.Holding := by
  refine h.of_idle hs fun w' hw' => ?_
  have hne : w' ≠ w := by
    rintro rfl
    exact hw hw'
  unfold Idle
  rw [hworkers, hlogging, Function.update_of_ne hne, Function.update_of_ne hne]
  exact hw'

/-- A step between the calls that log is of a worker that is busy, and moves it alone. -/
theorem inner_workers {p p' : ThreadPool (Fin n)} {b : PoolAction (Fin n)} {w : Fin n} (hb : inner b = some w)
    (hp : p.step b = some p') : p.workers w ≠ .idle ∧ ∃ worker, p'.workers = Function.update p.workers w worker := by
  cases ThreadPool.steps hp with
  | getOrderBook w' task hw => cases hb; exact ⟨hw.trans_ne nofun, _, rfl⟩
  | lock w' task hw hl => cases hb; exact ⟨hw.trans_ne nofun, _, rfl⟩
  | apply w' task book hw hbook => cases hb; exact ⟨hw.trans_ne nofun, _, rfl⟩
  | unlock w' task result hw => cases hb; exact ⟨hw.trans_ne nofun, _, rfl⟩
  | publishReport w' report reports trades hw => cases hb; exact ⟨hw.trans_ne nofun, _, rfl⟩
  | publishTrade w' fill trades hw => cases hb; exact ⟨hw.trans_ne nofun, _, rfl⟩
  | finish w' hw => cases hb; exact ⟨hw.trans_ne nofun, _, rfl⟩
  | _ => cases hb

theorem Holding.step (hs : s.step a = some s') (h : s.Holding) : s'.Holding := by
  have hkeep := h.of_idle hs
  have hmove := h.of_move hs
  cases steps hs with
  | dequeue w pick task q hq hpc =>
    intro w'
    by_cases heq : w' = w
    · subst heq
      exact .inr ⟨task, hpc⟩
    · rcases h w' with hw | ⟨task', ht⟩
      · exact .inl ⟨(Function.update_of_ne heq ..).trans hw.1, (Function.update_of_ne heq ..).trans hw.2⟩
      · exact .inr ⟨task', (SafeQueue.step_points hq fun e => heq (Thread.worker.inj e)).trans ht⟩
  | work b w p hb hl hp =>
    refine hkeep fun w' hw' => ⟨?_, hw'.2⟩
    obtain ⟨hne, worker, hworkers⟩ := inner_workers hb hp
    show p.workers w' = .idle
    rw [hworkers, Function.update_of_ne]
    · exact hw'.1
    · rintro rfl
      exact hne hw'.1
  | notLogged w entry net record next hw hl hrun => exact hmove (not_idle_of_toLog hw) rfl rfl
  | log w entry net record next hw hl hrun => exact hmove (not_idle_of_toLog hw) rfl rfl
  | givenUp w entry record next hw hl hrun => exact hmove (not_idle_of_toLog hw) rfl rfl
  | loop w entry record next hw hl hrun => exact hmove (not_idle_of_toLog hw) rfl rfl
  | loadClosed w entry q hl hq => exact hmove (not_idle_of_logging hl nofun) rfl rfl
  | exchange w entry record next q hw hl hq => exact hmove (not_idle_of_toLog hw) rfl rfl
  | store w q hl hq => exact hmove (not_idle_of_logging hl nofun) rfl rfl
  | _ => exact hkeep fun w' hw' => hw'

omit [DecidableEq S] in
/-- While a worker is busy the log is running. -/
theorem running_of_busy (hl : s.Leaving) (hh : s.Holding) {w : Fin n} (hw : ¬ s.Idle w) : s.running = true := by
  cases hrun : s.running with
  | true => rfl
  | false => exact absurd (hl.quiet (.inl hrun) w) (hh.not_exited hw)

theorem Flows.step (hs : s.step a = some s') (hl : s.Leaving) (hh : s.Holding)
    (h : Flows s.taskQueue.popped s.applied s.records s.workers) :
    Flows s'.taskQueue.popped s'.applied s'.records s'.workers := by
  cases steps hs with
  | submit t task q hstop hq => exact (SafeQueue.step_popped hq nofun).symm ▸ h
  | enqueue t pick task q ht hq => exact (SafeQueue.step_popped hq nofun).symm ▸ h
  | wakeSubmitter t q hq => exact (SafeQueue.step_popped hq nofun).symm ▸ h
  | callDequeue w q hw hl hrun hq => exact (SafeQueue.step_popped hq nofun).symm ▸ h
  | wakeWorker w q hq => exact (SafeQueue.step_popped hq nofun).symm ▸ h
  | shutdown q hm hstop hq => exact (SafeQueue.step_popped hq nofun).symm ▸ h
  | close a b q hb hm hq =>
    refine (SafeQueue.step_popped hq ?_).symm ▸ h
    rcases hb with rfl | rfl | rfl <;> nofun
  | dequeueNothing w pick q hq hpc => exact (SafeQueue.dequeue_nothing hq hpc).2.symm ▸ h
  | dequeue w pick task q hq hpc =>
    obtain ⟨-, hpopped⟩ := SafeQueue.dequeue_some hq hpc
    exact hpopped.symm ▸ h.take (hh.idle_of_dequeue hq).1 task
  | work b w p hb hlog hp =>
    cases ThreadPool.steps hp with
    | apply w' task book hw hbook =>
      have hop : operation s.pool (.apply w') = [(task, (book.apply task.request.op s.env).result)] := by
        rw [operation, ThreadPool.applying_eq_some.2 ⟨hw, hbook⟩]
        rfl
      rw [hop]
      exact h.apply hw _
    | getOrderBook w' task hw => exact h.keep hw rfl rfl rfl
    | lock w' task hw hl => exact h.keep hw rfl rfl rfl
    | unlock w' task result hw => exact h.keep hw rfl rfl rfl
    | publishReport w' report reports trades hw => exact h.keep hw rfl rfl rfl
    | publishTrade w' fill trades hw => exact h.keep hw rfl rfl rfl
    | finish w' hw => exact h.keep hw rfl rfl rfl
    | _ => cases hb
  | notLogged w entry net record next hw hlog hrun =>
    cases hrun.symm.trans (running_of_busy hl hh (not_idle_of_toLog hw))
  | givenUp w entry record next hw hlog hrun =>
    cases hrun.symm.trans (running_of_busy hl hh (not_idle_of_toLog hw))
  | log w entry net record next hw hlog hrun => exact h.self w
  | loop w entry record next hw hlog hrun => exact h.self w
  | loadClosed w entry q hlog hq => exact h.self w
  | exchange w entry record next q hw hlog hq => exact h.log hw
  | store w q hlog hq => exact h.self w
  | _ => exact h

/-! ## The answers of `submit` -/

/-- The tasks for which `submit` returns true. -/
def accepted (s : Server S n) : List Task := (s.answers.filter Answer.ok).map Answer.task

omit [DecidableEq S] in
theorem accepted_append (answers answers' : List (Answer S)) :
    ((answers ++ answers').filter Answer.ok).map Answer.task =
      (answers.filter Answer.ok).map Answer.task ++ (answers'.filter Answer.ok).map Answer.task := by
  rw [List.filter_append, List.map_append]

/-- `submit` returns true for the tasks that it has put into the queue. -/
theorem answered_step (hs : s.step a = some s') (h : s.accepted = s.taskQueue.pushed) :
    s'.accepted = s'.taskQueue.pushed := by
  cases steps hs with
  | rejected t task hstop ht =>
    refine (accepted_append ..).trans ?_
    exact (List.append_nil _).trans h
  | submit t task q hstop hq => exact h.trans (SafeQueue.step_pushed hq nofun).symm
  | enqueue t pick task q ht hq =>
    refine (accepted_append ..).trans ?_
    show s.accepted ++ _ = _
    rw [h]
    cases SafeQueue.steps hq with
    | waitPush t' pick item ht' hw hfull hopen =>
      rw [ht]
      exact List.append_nil _
    | refused t' pick item ht' hw hclosed =>
      rw [SafeQueue.moveTo_self]
      exact List.append_nil _
    | push t' pick item condPop ht' hw hroom hopen hpick =>
      cases ht.symm.trans ht'
      rw [SafeQueue.moveTo_self]
      rfl
    | call a t pc ha ht => cases ha
  | wakeSubmitter t q hq => exact h.trans (SafeQueue.step_pushed hq nofun).symm
  | callDequeue w q hw hl hrun hq => exact h.trans (SafeQueue.step_pushed hq nofun).symm
  | dequeueNothing w pick q hq hpc => exact h.trans (SafeQueue.step_pushed hq nofun).symm
  | dequeue w pick task q hq hpc => exact h.trans (SafeQueue.step_pushed hq nofun).symm
  | wakeWorker w q hq => exact h.trans (SafeQueue.step_pushed hq nofun).symm
  | shutdown q hm hstop hq => exact h.trans (SafeQueue.step_pushed hq nofun).symm
  | close a b q hb hm hq =>
    refine h.trans (SafeQueue.step_pushed hq ?_).symm
    rcases hb with rfl | rfl | rfl <;> nofun
  | _ => exact h

/-! ## Into the log -/

/-- Where a worker stands in a `log_*` call, and where the queue of the log has it. -/
def InStep : Logging → MpscQueue.Producer WALEntry → Prop
  | .idle, p => p = .idle
  | .loop _, p => p = .idle
  | .enqueue entry, p => p = .idle ∨ p = .checked entry ∨ ∃ node, p = .allocated entry node
  | .store, p => ∃ prev node, p = .exchanged prev node

/-- The entry that a worker is about to put into the queue. -/
def Logging.entry : Logging → Option WALEntry
  | .loop entry => some entry
  | .enqueue entry => some entry
  | _ => none

/-- The entry was made of the record, whatever was in memory. -/
def RecordOf (record : Record) (e : WALEntry) : Prop := ∃ entry net, e = record.entry entry net

/-- The tag that a reader of the log expects. -/
def Record.tag : Record → UInt8
  | .request ⟨.submit _, _⟩ => WALEventType.submit
  | .request ⟨.cancel _, _⟩ => WALEventType.cancel
  | .request ⟨.modify _, _⟩ => WALEventType.modify
  | .fill _ => WALEventType.fill

/-- The entry holds what the record is about: `replay` makes the request of it, without its client, and the struct of a
fill has the fields of the fill. Symbols are those that their arrays can hold. -/
def Holds (e : WALEntry) : Record → Prop
  | .request task => task.request.Built → ∀ after, e.request after = some task.request.anonymous
  | .fill f => ∃ symbol, e.data.read NetFill.packed =
      ⟨f.tradeId, f.buyOrderId, f.sellOrderId, symbol, f.price, f.quantity, f.timestamp⟩ ∧
    (BinarySerializer.Fits f.symbol → ∀ after, cString (symbol.1 ++ after) = f.symbol)

def Reads (record : Record) (e : WALEntry) : Prop := e.type = record.tag ∧ Holds e record

theorem RecordOf.reads {record : Record} {e : WALEntry} (h : RecordOf record e) : Reads record e := by
  obtain ⟨entry, net, rfl⟩ := h
  cases record with
  | request task =>
    obtain ⟨request, symbol⟩ := task
    refine ⟨?_, fun hbuilt after => WALEntry.request_ofRequest entry net hbuilt after⟩
    cases request <;> rfl
  | fill f =>
    refine ⟨rfl, _, WALData.read_write NetFill.packed (le_refl _) _ _, fun hfits after => ?_⟩
    exact cString_safeStrncpy _ hfits.1 hfits.2 after

/-- The entry is of what the worker is to log next. -/
def LogsNext (worker : Worker) (e : WALEntry) : Prop := ∃ record next, toLog worker = some (record, next) ∧ RecordOf record e

/-- The workers log what they are to log, and the records tell what is in the log. -/
structure Recorded (s : Server S n) : Prop where
  producers : ∀ w, InStep (s.logging w) (s.walQueue.producers w)
  next : ∀ w e, (s.logging w).entry = some e → LogsNext (s.workers w) e
  records : List.Forall₂ RecordOf s.records s.entries

omit [DecidableEq S] in
/-- One worker moves. -/
theorem Recorded.move (h : s.Recorded) {w : Fin n} {worker : Worker} {l : Logging} {p : MpscQueue.Producer WALEntry}
    (hworkers : s'.workers = Function.update s.workers w worker)
    (hlogging : s'.logging = Function.update s.logging w l)
    (hproducers : s'.walQueue.producers = Function.update s.walQueue.producers w p) (hin : InStep l p)
    (hnext : ∀ e, l.entry = some e → LogsNext worker e)
    (hrecords : List.Forall₂ RecordOf s'.records s'.entries) : s'.Recorded := by
  refine ⟨fun w' => ?_, fun w' e he => ?_, hrecords⟩
  · rw [hlogging, hproducers]
    by_cases heq : w' = w
    · subst heq
      rw [Function.update_self, Function.update_self]
      exact hin
    · rw [Function.update_of_ne heq, Function.update_of_ne heq]
      exact h.producers w'
  · rw [hlogging] at he
    rw [hworkers]
    by_cases heq : w' = w
    · subst heq
      rw [Function.update_self] at he ⊢
      exact hnext e he
    · rw [Function.update_of_ne heq] at he ⊢
      exact h.next w' e he

omit [DecidableEq S] in
/-- The workers and the producers stay where they are. -/
theorem Recorded.of_same (h : s.Recorded) (hworkers : s'.workers = s.workers) (hlogging : s'.logging = s.logging)
    (hproducers : s'.walQueue.producers = s.walQueue.producers) (hrecords : s'.records = s.records)
    (hentries : s'.entries = s.entries) : s'.Recorded := by
  refine ⟨fun w => ?_, fun w e he => ?_, ?_⟩
  · rw [hlogging, hproducers]
    exact h.producers w
  · rw [hlogging] at he
    rw [hworkers]
    exact h.next w e he
  · rw [hrecords, hentries]
    exact h.records

omit [DecidableEq S] in
/-- What a worker holds in `queue_.enqueue` is the entry of its call. -/
theorem Recorded.hand_eq (h : s.Recorded) {w : Fin n} {entry val : WALEntry} (hl : s.logging w = .enqueue entry)
    (hval : (s.walQueue.producers w).hand = [val]) : val = entry := by
  have hin := h.producers w
  rw [hl] at hin
  rcases hin with hidle | hchecked | ⟨node, hallocated⟩
  · rw [hidle] at hval
    cases hval
  · rw [hchecked] at hval
    cases hval
    rfl
  · rw [hallocated] at hval
    cases hval
    rfl

omit [DecidableEq S] in
/-- The entry that goes in is of what the worker is to log next. -/
theorem Recorded.exchanging (h : s.Recorded) {w : Fin n} {record : Record} {next : Worker} {entry val : WALEntry}
    {node : MpscQueue.Addr} (hw : toLog (s.workers w) = some (record, next)) (hl : s.logging w = .enqueue entry)
    (hp : s.walQueue.producers w = .allocated val node) : val = entry ∧ RecordOf record val := by
  obtain rfl : val = entry := h.hand_eq hl (by rw [hp]; rfl)
  obtain ⟨record', next', hw', hof⟩ := h.next w val (by rw [hl]; rfl)
  cases hw.symm.trans hw'
  exact ⟨rfl, hof⟩

theorem Recorded.step (hs : s.step a = some s') (hh : s.Holding) (h : s.Recorded) : s'.Recorded := by
  have hself : ∀ w, s.walQueue.producers = Function.update s.walQueue.producers w (s.walQueue.producers w) :=
    fun w => (Function.update_eq_self w _).symm
  have hin : ∀ {w l}, s.logging w = l → InStep l (s.walQueue.producers w) := by
    rintro w _ rfl
    exact h.producers w
  have hnext : ∀ {w l e}, s.logging w = l → l.entry = some e → LogsNext (s.workers w) e := by
    rintro w _ e rfl he
    exact h.next w e he
  -- the queue of the log moves, but no worker does
  have hqueue : ∀ {b : MpscQueue.Action (Fin n) WALEntry}, s.walQueue.step b = some s'.walQueue →
      b.consumes = true ∨ b = .close → s'.workers = s.workers → s'.logging = s.logging → s'.records = s.records →
        s'.Recorded := by
    intro b hq hb hworkers hlogging hrecords
    refine h.of_same hworkers hlogging (MpscQueue.step_producers hq hb) hrecords ?_
    refine congrArg (List.map Prod.snd) (MpscQueue.step_exchanged hq ?_)
    rintro p rfl
    rcases hb with hb | hb <;> cases hb
  cases steps hs with
  | dequeue w pick task q hq hpc =>
    refine h.move rfl rfl (hself w) (h.producers w) (fun e he => ?_) h.records
    rw [(hh.idle_of_dequeue hq).2] at he
    cases he
  | work b w p hb hl hp =>
    obtain ⟨-, worker, hworkers⟩ := inner_workers hb hp
    have hnone : (s.logging w).entry = none := by
      rw [hl]
      rfl
    refine h.move hworkers (Function.update_eq_self w _).symm (hself w) (h.producers w) (fun e he => ?_) h.records
    cases hnone.symm.trans he
  | notLogged w entry net record next hw hl hrun => exact h.move rfl rfl (hself w) (hin hl) nofun h.records
  | log w entry net record next hw hl hrun =>
    have hidle := hin hl
    refine h.move rfl rfl (hself w) hidle (fun e he => ?_) h.records
    cases he
    exact ⟨record, next, hw, entry, net, rfl⟩
  | givenUp w entry record next hw hl hrun =>
    have hidle := hin hl
    exact h.move rfl rfl (hself w) hidle nofun h.records
  | loop w entry record next hw hl hrun =>
    exact h.move rfl rfl (hself w) (.inl (hin hl)) (fun e he => hnext hl he) h.records
  | loadClosed w entry q hl hq =>
    cases MpscQueue.steps hq with
    | closed p val hp hc =>
      rw [if_pos hc]
      exact h.move rfl rfl (hself w) hp (fun e he => hnext hl he) h.records
    | loadClosed p val hp hc =>
      rw [if_neg (Bool.not_eq_true _ ▸ hc)]
      exact h.move rfl rfl rfl (.inr (.inl rfl)) (fun e he => hnext hl he) h.records
  | alloc w node entry q hl hq =>
    cases MpscQueue.steps hq with
    | alloc p node val hp hn =>
      obtain rfl : val = entry := h.hand_eq hl (by rw [hp]; rfl)
      refine h.move (Function.update_eq_self w _).symm (Function.update_eq_self w _).symm rfl ?_ (h.next w) h.records
      rw [hl]
      exact .inr (.inr ⟨node, rfl⟩)
  | exchange w entry record next q hw hl hq =>
    cases MpscQueue.steps hq with
    | exchange p val node hp =>
      obtain ⟨rfl, hof⟩ := h.exchanging hw hl hp
      refine h.move rfl rfl rfl ⟨_, node, rfl⟩ nofun ?_
      show List.Forall₂ RecordOf (s.records ++ [record]) ((s.walQueue.exchanged ++ [(w, val)]).map Prod.snd)
      rw [List.map_append]
      exact List.rel_append h.records (.cons hof .nil)
  | store w q hl hq =>
    cases MpscQueue.steps hq with
    | store p prev node cell hp hn => exact h.move rfl rfl rfl rfl nofun h.records
  | loadNext q hf hq => exact hqueue hq (.inl rfl) rfl rfl rfl
  | advance q hf hq => exact hqueue hq (.inl rfl) rfl rfl rfl
  | delete old entry q hf hc hq => exact hqueue hq (.inl rfl) rfl rfl rfl
  | closeLog q hm hq => exact hqueue hq (.inr rfl) rfl rfl rfl
  | _ => exact h.of_same rfl rfl rfl rfl rfl

/-! ## Into the file -/

/-- The flush thread has written what it has taken out, up to the entry in its hand, and finishes only when all is out. -/
structure Flushed (old : List UInt8) (s : Server S n) : Prop where
  chain : ∃ chain, s.walQueue.Ok chain
  consumer : s.flusher ≠ .dequeue → s.walQueue.consumer = .idle
  file : s.file ++ s.flusher.hand.flatMap WALEntry.packed.put = old ++ s.walQueue.dequeued.flatMap WALEntry.packed.put
  stopping : s.flusher = .testEmpty ∨ s.flusher = .finished → s.running = false
  finished : s.flusher = .finished → s.entries = s.walQueue.dequeued

omit [DecidableEq S] in
/-- The queue of the log moves, but the flush thread does not. -/
theorem Flushed.of_queue {old : List UInt8} (h : s.Flushed old) {b : MpscQueue.Action (Fin n) WALEntry}
    (hq : s.walQueue.step b = some s'.walQueue) (hb : b.consumes = false) (hflusher : s'.flusher = s.flusher)
    (hfile : s'.file = s.file) (hrunning : s'.running = s.running) (hentries : s.running = false → s'.entries = s.entries) :
    s'.Flushed old := by
  obtain ⟨chain, hok⟩ := h.chain
  obtain ⟨hconsumer, hdequeued⟩ := MpscQueue.step_consumer hq hb
  refine ⟨hok.step hq, fun hf => ?_, ?_, fun hf => ?_, fun hf => ?_⟩
  · rw [hconsumer]
    exact h.consumer (hflusher ▸ hf)
  · rw [hfile, hflusher, hdequeued]
    exact h.file
  · rw [hflusher] at hf
    exact hrunning.trans (h.stopping hf)
  · rw [hflusher] at hf
    rw [hdequeued, hentries (h.stopping (.inr hf))]
    exact h.finished hf

omit [DecidableEq S] in
/-- When the log is not running, no worker is in its queue. -/
theorem producers_idle (hl : s.Leaving) (hh : s.Holding) (hr : s.Recorded) (hrun : s.running = false) (w : Fin n) :
    s.walQueue.producers w = .idle := by
  have hidle : s.Idle w := by
    by_contra hbusy
    cases hrun.symm.trans (running_of_busy hl hh hbusy)
  have hin := hr.producers w
  rw [hidle.2] at hin
  exact hin

theorem Flushed.step {old : List UInt8} (hs : s.step a = some s') (hl : s.Leaving) (hh : s.Holding) (hr : s.Recorded)
    (h : s.Flushed old) : s'.Flushed old := by
  obtain ⟨chain, hok⟩ := h.chain
  have hsame : ∀ {b : MpscQueue.Action (Fin n) WALEntry} {q}, s.walQueue.step b = some q → (∀ w, b ≠ .exchange w) →
      q.exchanged.map Prod.snd = s.entries :=
    fun hq hb => congrArg (List.map Prod.snd) (MpscQueue.step_exchanged hq hb)
  cases steps hs with
  | loadClosed w entry q hlog hq => exact h.of_queue hq rfl rfl rfl rfl fun _ => hsame hq nofun
  | alloc w node entry q hlog hq => exact h.of_queue hq rfl rfl rfl rfl fun _ => hsame hq nofun
  | store w q hlog hq => exact h.of_queue hq rfl rfl rfl rfl fun _ => hsame hq nofun
  | closeLog q hm hq => exact h.of_queue hq rfl rfl rfl rfl fun _ => hsame hq nofun
  | exchange w entry record next q hw hlog hq =>
    refine h.of_queue hq rfl rfl rfl rfl fun hstopped => ?_
    cases hstopped.symm.trans (running_of_busy hl hh (not_idle_of_toLog hw))
  | stopLog hm => exact ⟨h.chain, h.consumer, h.file, fun _ => rfl, h.finished⟩
  | flushTest hf =>
    have hconsumer := h.consumer (hf.trans_ne nofun)
    have hfile := h.file
    rw [hf] at hfile
    cases hrun : s.running with
    | true => exact ⟨h.chain, fun _ => hconsumer, hfile, nofun, nofun⟩
    | false => exact ⟨h.chain, fun _ => hconsumer, hfile, fun _ => rfl, nofun⟩
  | flushEmpty empty hf he =>
    have hconsumer := h.consumer (hf.trans_ne nofun)
    have hrun := h.stopping (.inl hf)
    have hfile := h.file
    rw [hf] at hfile
    cases empty with
    | false => exact ⟨h.chain, fun _ => hconsumer, hfile, nofun, nofun⟩
    | true =>
      refine ⟨h.chain, fun _ => hconsumer, hfile, fun _ => hrun, fun _ => ?_⟩
      have hquiet : ∀ w prev node, s.walQueue.producers w ≠ .exchanged prev node :=
        fun w prev node => (producers_idle hl hh hr hrun w).trans_ne nofun
      refine (hok.drained hquiet (MpscQueue.next_of_empty he)).trans ?_
      rw [hconsumer]
      exact List.append_nil _
  | loadNext q hf hq =>
    have hchain := hok.step hq
    have hfile := h.file
    rw [hf] at hfile
    cases MpscQueue.steps hq with
    | noNext cell hc hn hnext =>
      rw [hc]
      exact ⟨hchain, fun _ => hc, hfile, nofun, nofun⟩
    | loadNext cell next hc hn hnext => exact ⟨hchain, fun hne => absurd rfl hne, hfile, nofun, nofun⟩
  | advance q hf hq =>
    have hchain := hok.step hq
    cases MpscQueue.steps hq with
    | advance next val link hc hn =>
      refine ⟨hchain, fun hne => absurd hf hne, h.file, h.stopping, fun hfin => ?_⟩
      cases hf.symm.trans hfin
  | delete old entry q hf hc hq =>
    have hchain := hok.step hq
    have hfile := h.file
    rw [hf] at hfile
    cases MpscQueue.steps hq with
    | delete old val hc' =>
      cases hc.symm.trans hc'
      refine ⟨hchain, fun _ => rfl, ?_, nofun, nofun⟩
      show s.file ++ [entry].flatMap _ = _ ++ (s.walQueue.dequeued ++ [entry]).flatMap _
      rw [List.flatMap_append, ← List.append_assoc, ← hfile]
      exact congrArg (· ++ _) (List.append_nil _).symm
  | write entry hf =>
    have hfile := h.file
    rw [hf] at hfile
    refine ⟨h.chain, fun _ => h.consumer (hf.trans_ne nofun), ?_, nofun, nofun⟩
    refine (List.append_nil _).trans ?_
    rw [← hfile]
    simp [Flusher.hand]
  | _ => exact ⟨h.chain, h.consumer, h.file, h.stopping, h.finished⟩

/-! ## Every reachable state -/

/-- `stop` has cleared `running_`. -/
def Main.stopping : Main → Bool
  | .closingLog => true
  | .joiningFlusher => true
  | .stopped => true
  | _ => false

/-- `stop` is called once, and waits for the flush thread. -/
structure Stopping (s : Server S n) : Prop where
  running : s.running = !s.main.stopping
  stopped : s.main = .stopped → s.flusher = .finished

omit [DecidableEq S] in
/-- The flush thread moves that has not finished. -/
theorem Stopping.of_flusher (h : s.Stopping) (hmain : s'.main = s.main) (hrunning : s'.running = s.running)
    (hf : s.flusher ≠ .finished) : s'.Stopping := by
  refine ⟨?_, fun hm => ?_⟩
  · rw [hrunning, hmain]
    exact h.running
  · rw [hmain] at hm
    exact absurd (h.stopped hm) hf

theorem Stopping.step (hs : s.step a = some s') (h : s.Stopping) : s'.Stopping := by
  obtain ⟨hrunning, hstopped⟩ := h
  have hflush : ∀ {f : Flusher}, s.flusher = f → f ≠ .finished → s'.main = s.main → s'.running = s.running → s'.Stopping :=
    fun hf hne hmain hrun => Stopping.of_flusher ⟨hrunning, hstopped⟩ hmain hrun (hf.trans_ne hne)
  cases steps hs with
  | flushTest hf => exact hflush hf nofun rfl rfl
  | flushEmpty empty hf he => exact hflush hf nofun rfl rfl
  | loadNext q hf hq => exact hflush hf nofun rfl rfl
  | delete old entry q hf hc hq => exact hflush hf nofun rfl rfl
  | write entry hf => exact hflush hf nofun rfl rfl
  | shutdownAgain hm hstop =>
    rw [hm] at hrunning
    exact ⟨hrunning, nofun⟩
  | shutdown q hm hstop hq =>
    rw [hm] at hrunning
    exact ⟨hrunning, nofun⟩
  | close a b q hb hm hq =>
    rw [hm] at hrunning
    split
    · exact ⟨hrunning, nofun⟩
    · exact ⟨hrunning, nofun⟩
  | join i hi hm hw =>
    rw [hm] at hrunning
    exact ⟨hrunning, nofun⟩
  | joined i hi hm =>
    rw [hm] at hrunning
    exact ⟨hrunning, nofun⟩
  | stopLog hm =>
    have hrun : s.running = true := by
      rw [hrunning, hm]
      rfl
    rw [if_pos hrun]
    exact ⟨rfl, nofun⟩
  | closeLog q hm hq =>
    rw [hm] at hrunning
    exact ⟨hrunning, nofun⟩
  | joinFlusher hm hf =>
    rw [hm] at hrunning
    exact ⟨hrunning, fun _ => hf⟩
  | _ => exact ⟨hrunning, hstopped⟩

structure Ok (old : List UInt8) (s : Server S n) : Prop where
  bounded : s.taskQueue.Bounded maxQueueCapacity
  drained : s.taskQueue.Drained
  answered : s.accepted = s.taskQueue.pushed
  leaving : s.Leaving
  holding : s.Holding
  flows : Flows s.taskQueue.popped s.applied s.records s.workers
  recorded : s.Recorded
  flushed : s.Flushed old
  stopping : s.Stopping

theorem Ok.step {old : List UInt8} (hs : s.step a = some s') (h : s.Ok old) : s'.Ok old where
  bounded := by
    rcases step_taskQueue hs with heq | ⟨b, hb⟩
    · rw [heq]
      exact h.bounded
    · exact h.bounded.step hb
  drained := by
    rcases step_taskQueue hs with heq | ⟨b, hb⟩
    · rw [heq]
      exact h.drained
    · exact h.drained.step hb
  answered := answered_step hs h.answered
  leaving := h.leaving.step hs
  holding := h.holding.step hs
  flows := h.flows.step hs h.leaving h.holding
  recorded := h.recorded.step hs h.holding
  flushed := h.flushed.step hs h.leaving h.holding h.recorded
  stopping := h.stopping.step hs

omit [DecidableEq S] in
theorem start_ok (registry : BookRegistry) (env : Env) (file : List UInt8) (stub : MpscQueue.Addr) :
    (start S n registry env file stub).Ok file where
  bounded := ⟨rfl, Nat.zero_le _, rfl⟩
  drained := nofun
  answered := rfl
  leaving := ⟨fun _ => rfl, nofun, nofun, nofun⟩
  holding _ := .inl ⟨rfl, rfl⟩
  flows := ⟨Flow.conserved_nil fun _ => rfl, Flow.conserved_nil fun _ => rfl, Flow.conserved_nil fun _ => rfl⟩
  recorded := ⟨fun _ => rfl, nofun, .nil⟩
  flushed := ⟨⟨[stub], MpscQueue.start_ok stub⟩, fun _ => rfl, rfl, nofun, nofun⟩
  stopping := ⟨rfl, nofun⟩

theorem run_ok {registry : BookRegistry} {env : Env} {file : List UInt8} {stub : MpscQueue.Addr}
    (actions : List (Action S n)) (hrun : Machine.run step (start S n registry env file stub) actions = some s) :
    s.Ok file := by
  have hstep : ∀ (s : Server S n) (a : Action S n) (s' : Server S n), True → s.step a = some s' → s.Ok file → s'.Ok file :=
    fun s a s' _ hs h => h.step hs
  exact Machine.run_invariant hstep actions _ s (fun _ _ => trivial) hrun (start_ok registry env file stub)

omit [DecidableEq S] in
/-- When `shutdown` has returned, no worker holds anything and nothing is left in the queue. -/
theorem Ok.shutDown {old : List UInt8} (h : s.Ok old) (hn : 0 < n) (hmain : s.main.pastShutdown = true) :
    (∀ w, s.Idle w) ∧ s.accepted = s.taskQueue.popped := by
  have hexited : ∀ w, s.Exited w := h.leaving.past hmain
  refine ⟨fun w => ?_, ?_⟩
  · by_contra hbusy
    exact h.holding.not_exited hbusy (hexited w)
  · obtain ⟨-, hempty⟩ := h.drained _ (hexited ⟨0, hn⟩)
    rw [h.answered, h.bounded.order, hempty, List.append_nil]

/-- For every interleaving of the threads that call `submit`, of at least one worker, of the flush thread and of the
thread that calls `shutdown` and then `stop`: when `shutdown` has returned, the workers have left, and the tasks
that they have processed are those for which `submit` returns true, each once; when `stop` has returned, what has been
appended to the file are the entries in the order in which they went into the queue of the log, one for each of
those tasks and one for each of the fills that they gave, with the tag and the contents that a reader expects. -/
theorem shutdown_exactly_once (hn : 0 < n) (registry : BookRegistry) (env : Env) (file : List UInt8) (stub : MpscQueue.Addr)
    (actions : List (Action S n)) (s : Server S n)
    (hrun : Machine.run step (start S n registry env file stub) actions = some s) :
    (s.main.pastShutdown = true → (∀ w, s.Exited w ∧ s.Idle w) ∧ (s.applied.map Prod.fst).Perm s.accepted) ∧
      (s.main = .stopped →
        s.file = file ++ s.entries.flatMap WALEntry.packed.put ∧ List.Forall₂ RecordOf s.records s.entries ∧
          List.Forall₂ Reads s.records s.entries ∧ (s.records.filterMap Record.task).Perm s.accepted ∧
          (s.records.filterMap Record.filled).Perm (s.applied.flatMap fun q => q.2.fills)) := by
  have h : s.Ok file := run_ok actions hrun
  refine ⟨fun hmain => ?_, fun hmain => ?_⟩
  · obtain ⟨hidle, haccepted⟩ := h.shutDown hn hmain
    refine ⟨fun w => ⟨h.leaving.past hmain w, hidle w⟩, ?_⟩
    rw [haccepted]
    refine (h.flows.handled.perm fun w => ?_).symm
    rw [Function.comp_apply, (hidle w).1]
    rfl
  · have hpast : s.main.pastShutdown = true := by
      rw [hmain]
      rfl
    obtain ⟨hidle, haccepted⟩ := h.shutDown hn hpast
    have hflusher : s.flusher = .finished := h.stopping.stopped hmain
    refine ⟨?_, h.recorded.records, h.recorded.records.imp fun _ _ => RecordOf.reads, ?_, ?_⟩
    · have hfile := h.flushed.file
      rw [hflusher, ← h.flushed.finished hflusher] at hfile
      exact (List.append_nil _).symm.trans hfile
    · rw [haccepted]
      refine (h.flows.logged.perm fun w => ?_).symm
      rw [Function.comp_apply, (hidle w).1]
      rfl
    · refine (h.flows.filled.perm fun w => ?_).symm
      rw [Function.comp_apply, (hidle w).1]
      rfl

/-- A sell and a buy are accepted, a cancel comes too late. The first worker has the sell when the pool is shut down, the
second one then takes the buy, and the flush thread still has two of three entries to write when the log is stopped. -/
def lateCancel : List (Action Bool 2) :=
  let entry : WALEntry := ⟨7, .replicate 52 255⟩
  let net : NetOrder := ⟨0, .replicate 8 255, 0, 0, 0, 0, 0⟩
  let sell : Order := { orderId := 1, symbol := [65], side := .sell, price := 10, quantity := 5, remainingQuantity := 5 }
  let buy : Order := { orderId := 2, symbol := [65], price := 10, quantity := 3, remainingQuantity := 3, clientId := 8 }
  let cancel : CancelRequest := { orderId := 1, symbol := [65], clientId := 8 }
  let log (w : Fin 2) (node : ℕ) : List (Action Bool 2) :=
    [.log w entry net, .loop w, .loadClosed w, .alloc w node, .exchange w, .store w]
  let flush : List (Action Bool 2) := [.loadNext, .advance, .delete, .write]
  [[.submit true ⟨.submit sell, [65]⟩, .enqueue true none, .callDequeue 0, .dequeue 0 none,
      .submit true ⟨.submit buy, [65]⟩, .enqueue true none, .submit false ⟨.cancel cancel, [65]⟩, .shutdown, .close,
      .enqueue false none, .notifyPop, .notifyPush, .callDequeue 1, .dequeue 1 none, .work (.getOrderBook 0),
      .work (.lock 0)], log 0 1,
    [.work (.apply 0), .work (.unlock 0), .work (.publishReport 0), .work (.finish 0), .callDequeue 0, .dequeue 0 none,
      .join, .work (.getOrderBook 1), .work (.lock 1)], log 1 2,
    [.work (.apply 1), .work (.unlock 1)], log 1 3,
    [.work (.publishReport 1), .work (.publishReport 1), .work (.publishTrade 1), .work (.finish 1), .callDequeue 1,
      .dequeue 1 none, .join, .join, .flushTest], flush,
    [.stopLog, .flushTest, .flushEmpty], flush, [.closeLog, .flushTest, .flushEmpty], flush,
    [.flushTest, .flushEmpty, .joinFlusher]].flatten

theorem shutdown_exactly_once_late : ∃ s,
    Machine.run step (start Bool 2 .empty ⟨1, fun _ => 0, 0⟩ [] 0) lateCancel = some s ∧
      s.answers.map Answer.ok = [true, true, false] ∧ s.entries.map WALEntry.type = [1, 1, 4] ∧
      (s.applied.map Prod.fst).Perm s.accepted ∧ s.file = s.entries.flatMap WALEntry.packed.put ∧
      List.Forall₂ RecordOf s.records s.entries ∧ List.Forall₂ Reads s.records s.entries ∧
      (s.records.filterMap Record.task).Perm s.accepted ∧
      (s.records.filterMap Record.filled).Perm (s.applied.flatMap fun q => q.2.fills) := by
  have hrun : (Machine.run step (start Bool 2 .empty ⟨1, fun _ => 0, 0⟩ [] 0) lateCancel).any fun s =>
      s.main = .stopped ∧ s.answers.map Answer.ok = [true, true, false] ∧ s.entries.map WALEntry.type = [1, 1, 4] := by
    decide +kernel
  obtain ⟨s, hs, hprop⟩ := (Option.any_eq_true _ _).1 hrun
  obtain ⟨hmain, hanswers, htypes⟩ := of_decide_eq_true hprop
  obtain ⟨hshut, hstopped⟩ := shutdown_exactly_once (Nat.succ_pos 1) .empty ⟨1, fun _ => 0, 0⟩ [] 0 lateCancel s hs
  exact ⟨s, hs, hanswers, htypes, (hshut (by rw [hmain]; rfl)).2, hstopped hmain⟩

end Server

end StockExchange
