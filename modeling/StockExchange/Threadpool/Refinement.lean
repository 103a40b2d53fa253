/-
The server is a pool. When one looks at what is in the queues and not at where the threads stand in their calls, every
step of it is a step of the pool or none: a task goes in when it is pushed, an entry when `tail_` is exchanged. So what
holds of all runs of a pool holds of the server; and when `stop` has returned, the file gives the books back.
-/
import StockExchange.Threadpool.Recovery
import StockExchange.Threadpool.Shutdown

universe u

namespace StockExchange

namespace Server

variable {S : Type u} {n : ℕ} [DecidableEq S] {s s' : Server S n} {a : Action S n}

/-! ## The log -/

omit [DecidableEq S] in
/-- The entries that are not out of the queue yet. -/
theorem Flushed.pending {old : List UInt8} (h : s.Flushed old) :
    ∃ inside, s.entries = s.walQueue.dequeued ++ (s.walQueue.consumer.hand ++ inside) := by
  obtain ⟨chain, hok⟩ := h.chain
  obtain ⟨left, inside, heq, hleft, -⟩ := hok.exchanged_eq
  refine ⟨inside.map Prod.snd, ?_⟩
  rw [entries, heq, List.map_append, hleft, List.append_assoc]

omit [DecidableEq S] in
/-- An entry goes in behind those that are not in the file yet. -/
theorem pool_exchange {old : List UInt8} (h : s.Flushed old) (hflusher : s'.flusher = s.flusher) (hfile : s'.file = s.file)
    (hdequeued : s'.walQueue.dequeued = s.walQueue.dequeued) {entry : WALEntry} (hentries : s'.entries = s.entries ++ [entry]) :
    s'.pool.wal = s.pool.wal.enqueue entry := by
  obtain ⟨inside, hinside⟩ := h.pending
  have hlen : s.walQueue.dequeued.length ≤ s.entries.length := by
    rw [hinside, List.length_append]
    exact Nat.le_add_right ..
  simp only [pool, WAL.enqueue, hflusher, hfile, hdequeued, hentries, List.drop_append_of_le_length hlen, List.append_assoc]

omit [DecidableEq S] in
/-- The flush thread takes an entry into its hand. -/
theorem pool_delete {old : List UInt8} (h : s.Flushed old) (hf : s.flusher = .dequeue) {node : MpscQueue.Addr}
    {entry : WALEntry} (hc : s.walQueue.consumer = .advanced node entry) (hflusher : s'.flusher = .write entry)
    (hfile : s'.file = s.file) (hdequeued : s'.walQueue.dequeued = s.walQueue.dequeued ++ [entry])
    (hentries : s'.entries = s.entries) : s'.pool.wal = s.pool.wal := by
  obtain ⟨inside, hinside⟩ := h.pending
  rw [hc] at hinside
  have hbefore : s.entries.drop s.walQueue.dequeued.length = [entry] ++ inside := by
    rw [hinside, List.drop_left]
    rfl
  have hafter : s.entries.drop (s.walQueue.dequeued ++ [entry]).length = inside := by
    rw [hinside, ← List.append_assoc]
    exact List.drop_left
  simp only [pool, hflusher, hfile, hdequeued, hentries, hf, Flusher.hand, hbefore, hafter, List.nil_append]

/-! ## Steps -/

/-- The steps between the calls that log touch neither queue. -/
theorem inner_queues {p p' : ThreadPool (Fin n)} {b : PoolAction (Fin n)} {w : Fin n} (hb : inner b = some w)
    (hp : p.step b = some p') : p'.tasks = p.tasks ∧ p'.wal = p.wal := by
  cases ThreadPool.steps hp with
  | submit task hlen => cases hb
  | dequeue w' task tasks hw ht => cases hb
  | log w' entry net task hw => cases hb
  | logFill w' entry fill fills reports trades hw => cases hb
  | flush wal hf => cases hb
  | _ => exact ⟨rfl, rfl⟩

/-- A worker whose entry goes in has logged, as the pool sees it. -/
theorem step_of_toLog {p : ThreadPool (Fin n)} {w : Fin n} {record : Record} {next : Worker} {entry : WALEntry}
    (hw : toLog (p.workers w) = some (record, next)) (he : RecordOf record entry) :
    ∃ b, (∀ task, b ≠ .submit task) ∧ p.step b = some ({ p with wal := p.wal.enqueue entry }.move w next) := by
  obtain ⟨memory, net, rfl⟩ := he
  cases hworker : p.workers w with
  | locked task =>
    rw [hworker] at hw
    cases hw
    refine ⟨.log w memory net, ?_, ?_⟩
    · rintro task ⟨⟩
    · simp only [ThreadPool.step, hworker]
      rfl
  | finishing fills reports trades =>
    cases fills with
    | nil =>
      rw [hworker] at hw
      cases hw
    | cons fill fills =>
      rw [hworker] at hw
      cases hw
      refine ⟨.logFill w memory, ?_, ?_⟩
      · rintro task ⟨⟩
      · simp only [ThreadPool.step, hworker]
        rfl
  | _ =>
    rw [hworker] at hw
    cases hw

omit [DecidableEq S] in
theorem pool_eq {p : ThreadPool (Fin n)} (htasks : s.taskQueue.queue = p.tasks) (hregistry : s.registry = p.registry)
    (hlocks : s.locks = p.locks) (hworkers : s.workers = p.workers) (hwal : s.pool.wal = p.wal)
    (hreports : s.reports = p.reports) (htrades : s.trades = p.trades) (henv : s.env = p.env) : s.pool = p := by
  have hfields : s.pool = ⟨s.taskQueue.queue, s.registry, s.locks, s.workers, s.pool.wal, s.reports, s.trades, s.env⟩ := rfl
  rw [hfields, htasks, hregistry, hlocks, hworkers, hwal, hreports, htrades, henv]

/-- The tasks that are on their way into the queue are of a kind. -/
def Offered (Q : Task → Prop) (s : Server S n) : Prop := ∀ t task, s.taskQueue.points t = .enqueue task → Q task

theorem Offered.step {Q : Task → Prop} (hs : s.step a = some s') (ha : ∀ t task, a = .submit t task → Q task)
    (h : s.Offered Q) : s'.Offered Q := by
  intro t task ht
  cases steps hs with
  | submit t' task' q hstop hq =>
    by_cases hcall : t = .submitter t' ∧ task = task'
    · obtain ⟨rfl, rfl⟩ := hcall
      exact ha t' task rfl
    · refine h t task (SafeQueue.step_enqueuing hq ?_ ht)
      rintro ⟨⟩
      exact hcall ⟨rfl, rfl⟩
  | enqueue t' pick task' q ht' hq => exact h t task (SafeQueue.step_enqueuing hq nofun ht)
  | wakeSubmitter t' q hq => exact h t task (SafeQueue.step_enqueuing hq nofun ht)
  | callDequeue w q hw hl hrun hq => exact h t task (SafeQueue.step_enqueuing hq nofun ht)
  | dequeueNothing w pick q hq hpc => exact h t task (SafeQueue.step_enqueuing hq nofun ht)
  | dequeue w pick task' q hq hpc => exact h t task (SafeQueue.step_enqueuing hq nofun ht)
  | wakeWorker w q hq => exact h t task (SafeQueue.step_enqueuing hq nofun ht)
  | shutdown q hm hstop hq => exact h t task (SafeQueue.step_enqueuing hq nofun ht)
  | close a b q hb hm hq =>
    refine h t task (SafeQueue.step_enqueuing hq ?_ ht)
    rcases hb with rfl | rfl | rfl <;> nofun
  | _ => exact h t task ht

/-- Every step is a step of the pool, or none. -/
theorem step_pool {Q : Task → Prop} {old : List UInt8} (hs : s.step a = some s') (h : s.Ok old) (ho : s.Offered Q) :
    s'.pool = s.pool ∨ ∃ b, (∀ task, b = .submit task → Q task) ∧ s.pool.step b = some s'.pool := by
  have hself : ∀ w, Function.update s.workers w (s.workers w) = s.workers := fun w => Function.update_eq_self w _
  cases steps hs with
  | submit t task q hstop hq =>
    exact .inl (pool_eq (SafeQueue.step_queue hq rfl) rfl rfl rfl rfl rfl rfl rfl)
  | wakeSubmitter t q hq => exact .inl (pool_eq (SafeQueue.step_queue hq rfl) rfl rfl rfl rfl rfl rfl rfl)
  | callDequeue w q hw hl hrun hq =>
    exact .inl (pool_eq (SafeQueue.step_queue hq rfl) rfl rfl rfl rfl rfl rfl rfl)
  | wakeWorker w q hq => exact .inl (pool_eq (SafeQueue.step_queue hq rfl) rfl rfl rfl rfl rfl rfl rfl)
  | shutdown q hm hstop hq => exact .inl (pool_eq (SafeQueue.step_queue hq rfl) rfl rfl rfl rfl rfl rfl rfl)
  | close a b q hb hm hq =>
    refine .inl (pool_eq (SafeQueue.step_queue hq ?_) rfl rfl rfl rfl rfl rfl rfl)
    rcases hb with rfl | rfl | rfl <;> rfl
  | enqueue t pick task q ht hq =>
    cases SafeQueue.steps hq with
    | waitPush t' pick item ht' hw hfull hopen => exact .inl rfl
    | refused t' pick item ht' hw hclosed => exact .inl rfl
    | push t' pick item condPop ht' hw hroom hopen hpick =>
      rw [h.bounded.cap] at hroom
      refine .inr ⟨.submit item, ?_, if_pos hroom⟩
      rintro _ ⟨⟩
      exact ho _ item ht'
    | call a t pc ha ht => cases ha
  | dequeueNothing w pick q hq hpc =>
    exact .inl (pool_eq (SafeQueue.dequeue_nothing hq hpc).1 rfl rfl rfl rfl rfl rfl rfl)
  | dequeue w pick task q hq hpc =>
    obtain ⟨hqueue, -⟩ := SafeQueue.dequeue_some hq hpc
    refine .inr ⟨.dequeue w, ?_, ?_⟩
    · rintro _ ⟨⟩
    · simp only [ThreadPool.step, pool, (h.holding.idle_of_dequeue hq).1, hqueue]
      rfl
  | work b w p hb hl hp =>
    obtain ⟨htasks, hwal⟩ := inner_queues hb hp
    refine .inr ⟨b, fun task hsubmit => ?_, hp.trans (congrArg some ?_)⟩
    · rw [hsubmit] at hb
      cases hb
    · refine (pool_eq ?_ rfl rfl rfl ?_ rfl rfl rfl).symm
      · exact htasks.symm
      · exact hwal.symm
  | notLogged w entry net record next hw hl hrun =>
    cases hrun.symm.trans (running_of_busy h.leaving h.holding (not_idle_of_toLog hw))
  | givenUp w entry record next hw hl hrun =>
    cases hrun.symm.trans (running_of_busy h.leaving h.holding (not_idle_of_toLog hw))
  | log w entry net record next hw hl hrun => exact .inl (pool_eq rfl rfl rfl (hself w) rfl rfl rfl rfl)
  | loop w entry record next hw hl hrun => exact .inl (pool_eq rfl rfl rfl (hself w) rfl rfl rfl rfl)
  | loadClosed w entry q hl hq =>
    cases MpscQueue.steps hq with
    | closed p val hp hc => exact .inl (pool_eq rfl rfl rfl (hself w) rfl rfl rfl rfl)
    | loadClosed p val hp hc => exact .inl (pool_eq rfl rfl rfl (hself w) rfl rfl rfl rfl)
  | alloc w node entry q hl hq =>
    cases MpscQueue.steps hq with
    | alloc p node val hp hn => exact .inl rfl
  | exchange w entry record next q hw hl hq =>
    cases MpscQueue.steps hq with
    | exchange p val node hp =>
      obtain ⟨-, hof⟩ := h.recorded.exchanging hw hl hp
      obtain ⟨b, hb, hstep⟩ := step_of_toLog (p := s.pool) hw hof
      refine .inr ⟨b, fun task hsubmit => absurd hsubmit (hb task), hstep.trans (congrArg some ?_)⟩
      refine (pool_eq rfl rfl rfl rfl ?_ rfl rfl rfl).symm
      refine pool_exchange h.flushed ?_ ?_ ?_ ?_
      · rfl
      · rfl
      · rfl
      · exact List.map_append
  | store w q hl hq =>
    cases MpscQueue.steps hq with
    | store p prev node cell hp hn => exact .inl (pool_eq rfl rfl rfl (hself w) rfl rfl rfl rfl)
  | flushTest hf =>
    refine .inl (pool_eq rfl rfl rfl rfl ?_ rfl rfl rfl)
    simp only [pool, hf]
    split <;> rfl
  | flushEmpty empty hf he =>
    refine .inl (pool_eq rfl rfl rfl rfl ?_ rfl rfl rfl)
    simp only [pool, hf]
    split <;> rfl
  | loadNext q hf hq =>
    refine .inl (pool_eq rfl rfl rfl rfl ?_ rfl rfl rfl)
    cases MpscQueue.steps hq with
    | noNext cell hc hn hnext =>
      simp only [pool, hf, hc]
      rfl
    | loadNext cell next hc hn hnext =>
      simp only [pool, hf]
      rfl
  | advance q hf hq =>
    cases MpscQueue.steps hq with
    | advance next val link hc hn => exact .inl rfl
  | delete node entry q hf hc hq =>
    cases MpscQueue.steps hq with
    | delete old val hc' =>
      cases hc.symm.trans hc'
      exact .inl (pool_eq rfl rfl rfl rfl (pool_delete h.flushed hf hc rfl rfl rfl rfl) rfl rfl rfl)
  | write entry hf =>
    refine .inr ⟨.flush, ?_, ?_⟩
    · rintro _ ⟨⟩
    · simp only [ThreadPool.step, WAL.flush, pool, hf]
      rfl
  | closeLog q hm hq =>
    cases MpscQueue.steps hq with
    | close => exact .inl rfl
  | _ => exact .inl rfl

/-! ## Runs -/

/-- Every run is a run of the pool, on tasks of the same kind. -/
theorem run_pool {Q : Task → Prop} (registry : BookRegistry) (env : Env) (file : List UInt8) (stub : MpscQueue.Addr)
    (actions : List (Action S n)) (hsubmit : ∀ t task, .submit t task ∈ actions → Q task)
    (hrun : Machine.run step (start S n registry env file stub) actions = some s) :
    ∃ bs, (∀ task, .submit task ∈ bs → Q task) ∧
      Machine.run ThreadPool.step (start S n registry env file stub).pool bs = some s.pool := by
  have hI : ∀ (s : Server S n) (a : Action S n) (s' : Server S n), (∀ t task, a = .submit t task → Q task) →
      s.step a = some s' → s.Ok file ∧ s.Offered Q → s'.Ok file ∧ s'.Offered Q :=
    fun s a s' ha hs h => ⟨h.1.step hs, h.2.step hs ha⟩
  have hpool : ∀ (s : Server S n) (a : Action S n) (s' : Server S n), s.step a = some s' → s.Ok file ∧ s.Offered Q →
      s'.pool = s.pool ∨ ∃ b, (∀ task, b = .submit task → Q task) ∧ s.pool.step b = some s'.pool :=
    fun s a s' hs h => step_pool hs h.1 h.2
  obtain ⟨bs, hbs, hpool⟩ := Machine.run_simulates hI hpool actions _ s
    (fun a ha t task heq => hsubmit t task (heq ▸ ha)) hrun ⟨start_ok registry env file stub, nofun⟩
  exact ⟨bs, fun task hmem => hbs _ hmem task rfl, hpool⟩

omit [DecidableEq S] in
/-- When `stop` has returned, the pool is drained. -/
theorem Ok.poolDrained {old : List UInt8} (h : s.Ok old) (hn : 0 < n) (hmain : s.main = .stopped) : s.pool.Drained := by
  have hflusher : s.flusher = .finished := h.stopping.stopped hmain
  obtain ⟨hidle, -⟩ := h.shutDown hn (by rw [hmain]; rfl)
  refine ⟨fun w => (hidle w).1, ?_⟩
  show s.flusher.hand ++ s.entries.drop s.walQueue.dequeued.length = []
  rw [hflusher, h.flushed.finished hflusher, List.drop_length]
  rfl

/-- When `stop` has returned after a run on the tasks of the gateway, a replay of the file has the books of the run, up to
client ids. -/
theorem replay_after_stop (hn : 0 < n) (env env' : Env) (after : List UInt8) (stub : MpscQueue.Addr)
    (actions : List (Action S n)) (s : Server S n) (hbuilt : ∀ t task, .submit t task ∈ actions → task.Built)
    (hrun : Machine.run step (start S n .empty env [] stub) actions = some s) (hmain : s.main = .stopped) (symbol : Symbol) :
    Option.Rel (fun b b' => SameBook b.toBookState b'.toBookState) (s.registry symbol)
      ((ReplayEngine.replay after s.file .empty env').registry symbol) := by
  obtain ⟨bs, hbs, hpool⟩ := run_pool .empty env [] stub actions hbuilt hrun
  have hok : ∀ b ∈ bs, b.Built := by
    intro b hb
    cases b with
    | submit task => exact hbs task hb
    | _ => exact trivial
  have hdrained : s.pool.Drained := (run_ok actions hrun).poolDrained hn hmain
  exact (ThreadPool.run_recoverable after env hok hpool).recovered hdrained env' symbol

end Server

end StockExchange
