/-
What a client has been told against what is in the log. A worker hands the entry of a task to the log before it
applies the task, and its reports to the pipeline after it: whenever a report leaves the pipeline, the entry
of its task is in the log. The log is a queue and a file, though, and the flush thread may be behind.
-/
import StockExchange.Gateway.Trace
import StockExchange.Threadpool.LogOrder

universe u

namespace StockExchange

/-- The report with a place in the queue of the pipeline, and the number of the task that made it. -/
def History.publishedAt {W : Type u} (h : History W) (k : ℕ) : Option (ℕ × ExecutionReport) :=
  (h.reports.out[k]?).bind fun j => h.generated[j]?

/-- The history of a step does not depend on the queue of reports. -/
theorem History.record_withReports {W : Type u} [DecidableEq W] (h : History W) (p : ThreadPool W)
    (reports : List ExecutionReport) (a : PoolAction W) : h.record { p with reports := reports } a = h.record p a := by
  cases a <;> rfl

/-- The log has the request as its entry number `m`. -/
def WAL.Holds (wal : WAL) (m : ℕ) (r : Request) : Prop :=
  ∃ (entry : WALEntry) (net : NetOrder), wal.entries[m]? = some (entry.ofRequest net r)

/-- A request of the gateway: all of a submitted order is still open. -/
def Request.Unfilled : Request → Prop
  | .submit order => order.remainingQuantity = order.quantity
  | .cancel _ => True
  | .modify _ => True

theorem Request.Unfilled.built {r : Request} (h : r.Unfilled) (hsymbol : BinarySerializer.Fits r.symbol) : r.Built := by
  cases r with
  | submit order => exact ⟨hsymbol, h⟩
  | cancel req => exact hsymbol
  | modify req => exact hsymbol

theorem Session.Accepts.unfilled {c : ClientID} {risk risk' : RiskChecker} {task : Task} (h : Accepts c risk task risk') :
    task.request.Unfilled := by
  obtain ⟨request, symbol⟩ := task
  have hchecked := h.checked
  cases request with
  | submit order => exact hchecked.1
  | cancel req => trivial
  | modify req => trivial

/-- When the queue is empty, a replay of the file comes by every request that the log has. -/
theorem WAL.Holds.replayed {wal : WAL} {m : ℕ} {r : Request} (h : wal.Holds m r) (hqueue : wal.queue = []) (hr : r.Built)
    (after : List UInt8) :
    ((WALEntry.packed.records wal.file)[m]?).bind (fun e => e.request after) = some r.anonymous := by
  obtain ⟨entry, net, he⟩ := h
  rw [WAL.entries, hqueue, List.append_nil] at he
  rw [he, Option.bind_some, WALEntry.request_ofRequest entry net hr]

/-- The history of the pool and the reports the dispatch thread has taken from its queue. -/
structure Trace (W : Type u) where
  pool : History W := {}
  dispatched : List ExecutionReport := []

namespace Exchange

variable {W : Type u}

/-- The history fits the exchange; the reports that were dispatched are the first of those published. -/
structure Tracked (x : Exchange W) (t : Trace W) : Prop where
  arrived : History.Arrived x.pool t.pool
  made : History.Made { x.pool with reports := t.dispatched ++ x.pool.reports } t.pool
  logged : History.Logged x.pool t.pool
  sent : ∀ q ∈ x.sent, q.2.status = .rejected ∨ q.2 ∈ t.dispatched
  unfilled : ∀ task ∈ t.pool.accepted, task.request.Unfilled

theorem start_tracked (env : Env) : Tracked (start W env) ({} : Trace W) where
  arrived := History.start_arrived env
  made := History.start_made env
  logged := History.start_logged env
  sent _ h := nomatch h
  unfilled _ h := nomatch h

variable [DecidableEq W] {x x' : Exchange W} {t : Trace W}

/-- What a step adds to the history. -/
def record (x : Exchange W) (a : ExchangeAction W) (t : Trace W) : Trace W :=
  match a with
  | .dispatchReport => { t with dispatched := t.dispatched ++ x.pool.reports.head?.toList }
  | a => { t with pool := recordPool x a t.pool }

/-- The exchange with its history. -/
def tracedStep : Exchange W × Trace W → ExchangeAction W → Option (Exchange W × Trace W) := Machine.traced step record

/-- The reports that a step makes of those in the hands of workers, with those already dispatched. -/
theorem Tracked.made_step (h : x.Tracked t) {a : ExchangeAction W} (hs : x.step a = some x') :
    History.Made { x'.pool with reports := (record x a t).dispatched ++ x'.pool.reports } (record x a t).pool := by
  cases transition hs with
  | connect => exact h.made
  | close c => exact h.made
  | registerSymbol symbol => exact h.made
  | dropped c packet behind risk env hc hp =>
    simp only [record, recordPool_packet hp]
    exact h.made
  | rejected c packet behind report risk env hc hp =>
    simp only [record, recordPool_packet hp]
    exact h.made.of_same_reports rfl rfl rfl rfl fun _ => rfl
  | accepted c packet behind task risk env hc hp hlen =>
    simp only [record, recordPool_packet hp]
    exact h.made.of_same_reports rfl rfl rfl rfl fun _ => rfl
  | pool a pool hstep ha =>
    have hmade := h.made.step (ThreadPool.step_withReports hstep t.dispatched) (h.arrived.of_same_pool rfl rfl)
    rwa [History.record_withReports] at hmade
  | dispatchReport report reports hr => exact h.made.of_same_reports rfl rfl rfl (by simp [record, hr]) fun _ => rfl
  | dispatchTrade trade trades ht => exact h.made.of_same_reports rfl rfl rfl rfl fun _ => rfl

/-- What the dispatch thread hands to a session it has taken from the queue; all else that a session gets is a
rejection. -/
theorem Tracked.sent_step (h : x.Tracked t) {a : ExchangeAction W} (hs : x.step a = some x') :
    ∀ q ∈ x'.sent, q.2.status = .rejected ∨ q.2 ∈ (record x a t).dispatched := by
  cases transition hs with
  | rejected c packet behind report risk env hc hp =>
    have hresult := Session.processPacket_spec hp
    intro q hq
    rcases List.mem_append.1 hq with hq | hq
    · exact h.sent q hq
    · rw [List.mem_singleton.1 hq]
      exact .inl hresult.2.1
  | dispatchReport report reports hr =>
    have hrecord : (record x .dispatchReport t).dispatched = t.dispatched ++ [report] := by
      simp only [record, hr]
      rfl
    intro q hq
    have hold : q ∈ x.sent → q.2.status = .rejected ∨ q.2 ∈ t.dispatched ++ [report] := fun hq =>
      (h.sent q hq).imp_right (List.mem_append_left _)
    rw [hrecord]
    -- the session may be gone
    by_cases hc : report.clientId ∈ x.sessions
    · replace hq : q ∈ x.sent ++ [(report.clientId, report)] := by
        rwa [if_pos hc] at hq
      rcases List.mem_append.1 hq with hq | hq
      · exact hold hq
      · rw [List.mem_singleton.1 hq]
        exact .inr (List.mem_append_right _ (List.mem_singleton_self _))
    · rw [if_neg hc] at hq
      exact hold hq
  | _ => exact h.sent

theorem Tracked.unfilled_step (h : x.Tracked t) {a : ExchangeAction W} (hs : x.step a = some x') :
    ∀ task ∈ (recordPool x a t.pool).accepted, task.request.Unfilled := by
  cases transition hs with
  | dropped c packet behind risk env hc hp =>
    rw [recordPool_packet hp]
    exact h.unfilled
  | rejected c packet behind report risk env hc hp =>
    rw [recordPool_packet hp]
    exact h.unfilled
  | accepted c packet behind task risk env hc hp hlen =>
    rw [recordPool_packet hp]
    intro task' htask
    rcases List.mem_append.1 htask with htask | htask
    · exact h.unfilled task' htask
    · rw [List.mem_singleton.1 htask]
      exact (Session.processPacket_spec hp).1.unfilled
  | pool a pool hstep ha =>
    have hsame : (recordPool x (.pool a) t.pool).accepted = t.pool.accepted := t.pool.record_accepted x.pool ha
    rw [hsame]
    exact h.unfilled
  | _ => exact h.unfilled

theorem Tracked.step {a : ExchangeAction W} (hs : x.step a = some x') (h : x.Tracked t) : x'.Tracked (record x a t) := by
  have hpool : (record x a t).pool = recordPool x a t.pool := by cases a <;> rfl
  have hkeep : History.Arrived x'.pool (recordPool x a t.pool) ∧ History.Logged x'.pool (recordPool x a t.pool) := by
    refine lift_step (I := fun p h => History.Arrived p h ∧ History.Logged p h) ?_ ?_ hs ⟨h.arrived, h.logged⟩
    · rintro p p' h htasks hworkers hwal - ⟨ha, hl⟩
      exact ⟨ha.of_same_pool htasks hworkers, hl.of_same_pool hworkers hwal⟩
    · rintro p a p' h hs ⟨ha, hl⟩
      exact ⟨ha.step hs, hl.step hs ha⟩
  exact ⟨hpool ▸ hkeep.1, h.made_step hs, hpool ▸ hkeep.2, h.sent_step hs, hpool ▸ h.unfilled_step hs⟩

/-- In every state of every run, every report that a client has been handed was made by an operation whose request is
in the log, each with its own entry; only the gateway's rejections do not come from there. As soon as the flush
thread has caught up, a replay of the file comes by all of these requests that have a symbol which its array can hold,
without their clients. -/
theorem told_after_logged (env : Env) (actions : List (ExchangeAction W)) (x : Exchange W) (t : Trace W)
    (hrun : Machine.run tracedStep (start W env, {}) actions = some (x, t)) :
    (∀ q ∈ x.sent, q.2.status = .rejected ∨ q.2 ∈ t.dispatched) ∧
    ∀ k report, t.dispatched[k]? = some report → ∃ (i : ℕ) (task : Task) (m : ℕ),
      t.pool.publishedAt k = some (i, report) ∧ t.pool.accepted[i]? = some task ∧ t.pool.logged[m]? = some (some i) ∧
        x.pool.wal.Holds m task.request ∧ (x.pool.wal.queue = [] → BinarySerializer.Fits task.request.symbol → ∀ after,
          ((WALEntry.packed.records x.pool.wal.file)[m]?).bind (fun e => e.request after) = some task.request.anonymous) := by
  have hstep : ∀ (s : Exchange W × Trace W) (a : ExchangeAction W) (s' : Exchange W × Trace W), True →
      tracedStep s a = some s' → s.1.Tracked s.2 → s'.1.Tracked s'.2 := by
    rintro ⟨x, t⟩ a ⟨x', t'⟩ - hs h
    obtain ⟨hs, rfl⟩ := Machine.traced_eq_some.1 hs
    exact h.step hs
  have h : x.Tracked t := Machine.run_invariant hstep actions _ (x, t) (fun _ _ => trivial) hrun (start_tracked env)
  refine ⟨h.sent, fun k report hk => ?_⟩
  -- the report has a number, and this one the task that made it
  have hout : (t.pool.reports.out.map t.pool.reportOf)[k]? = some (some report) := by
    rw [h.made.queue, List.getElem?_map, List.getElem?_append_left (List.getElem?_eq_some_iff.1 hk).1, hk]
    rfl
  rw [List.getElem?_map] at hout
  obtain ⟨j, hj, hreport⟩ := Option.map_eq_some_iff.1 hout
  obtain ⟨⟨i, r⟩, hq, rfl⟩ := Option.map_eq_some_iff.1 hreport
  have hi : i ∈ t.pool.tasks.out := h.made.tasks (i, r) (List.mem_of_getElem? hq)
  obtain ⟨m, task, entry, net, hm, hacc, he⟩ := h.logged.entry hi
  have hholds : x.pool.wal.Holds m task.request := ⟨entry, net, he⟩
  have hunfilled : task.request.Unfilled := h.unfilled task (List.mem_of_getElem? hacc)
  refine ⟨i, task, m, ?_, hacc, hm, hholds, fun hqueue hsymbol => hholds.replayed hqueue (hunfilled.built hsymbol)⟩
  rw [History.publishedAt, hj, Option.bind_some, hq]

/-- A client submits an order for a symbol of as many bytes as `length`, a worker handles it, and the dispatch thread
hands the client the report; the flush thread has not run yet. -/
def earlyReport (length : ℕ) (h : length ≤ 8) : List (ExchangeAction Unit) :=
  let name : Symbol := List.replicate length 65
  let symbol : Packed.Chars 8 := ⟨name ++ List.replicate (8 - length) 0, by simp [name]; omega⟩
  let entry : WALEntry := ⟨7, .replicate 52 255⟩
  let net : NetOrder := ⟨0, .replicate 8 255, 0, 0, 0, 0, 0⟩
  [.connect, .registerSymbol name, .packet 1 ⟨MsgType.order, NetOrder.packed.put ⟨7, symbol, 0, 0, 100, 5, 1⟩⟩ [],
    .pool (.dequeue ()), .pool (.getOrderBook ()), .pool (.lock ()), .pool (.log () entry net), .pool (.apply ()),
    .pool (.unlock ()), .pool (.publishReport ()), .dispatchReport]

/-- The client has been told that its order rests, and the file is empty: nothing of it comes back. Where the symbol has
eight bytes, it does not come back under that symbol after the flush either. -/
theorem told_before_durable :
    (∃ s, Machine.run tracedStep (start Unit ⟨1, fun _ => 0, 0⟩, {}) (earlyReport 1 (by decide)) = some s ∧
      s.1.sent.map (fun q => (q.1, q.2.orderId, q.2.status)) = [(1, 7, .new)] ∧ s.2.pool.logged = [some 0] ∧
      s.1.pool.wal.file = []) ∧
    ∃ s, Machine.run tracedStep (start Unit ⟨1, fun _ => 0, 0⟩, {}) (earlyReport 8 (by decide) ++ [.pool .flush]) = some s ∧
      s.1.sent.map (fun q => (q.1, q.2.orderId, q.2.status)) = [(1, 7, .new)] ∧ s.1.pool.wal.queue = [] ∧
      (ReplayEngine.replay [] s.1.pool.wal.file .empty ⟨1, fun _ => 0, 0⟩).registry (List.replicate 8 65) = none := by
  constructor
  · have hrun : (Machine.run tracedStep (start Unit ⟨1, fun _ => 0, 0⟩, {}) (earlyReport 1 (by decide))).any fun s =>
        s.1.sent.map (fun q => (q.1, q.2.orderId, q.2.status)) = [(1, 7, .new)] ∧ s.2.pool.logged = [some 0] ∧
          s.1.pool.wal.file = [] := by decide
    obtain ⟨s, hs, hany⟩ := (Option.any_eq_true _ _).1 hrun
    exact ⟨s, hs, of_decide_eq_true hany⟩
  · have hrun : (Machine.run tracedStep (start Unit ⟨1, fun _ => 0, 0⟩, {})
        (earlyReport 8 (by decide) ++ [.pool .flush])).any fun s =>
        s.1.sent.map (fun q => (q.1, q.2.orderId, q.2.status)) = [(1, 7, .new)] ∧ s.1.pool.wal.queue = [] ∧
          ((ReplayEngine.replay [] s.1.pool.wal.file .empty ⟨1, fun _ => 0, 0⟩).registry
            (List.replicate 8 65)).isNone := by decide
    obtain ⟨s, hs, hany⟩ := (Option.any_eq_true _ _).1 hrun
    obtain ⟨hsent, hqueue, hnone⟩ := of_decide_eq_true hany
    exact ⟨s, hs, hsent, hqueue, Option.isNone_iff_eq_none.1 hnone⟩

/-- Once the flush thread has run, a replay reads the request of the report that the client has got. -/
theorem told_after_logged_flushed : ∃ s,
    Machine.run tracedStep (start Unit ⟨1, fun _ => 0, 0⟩, {}) (earlyReport 1 (by decide) ++ [.pool .flush]) = some s ∧
      ∃ (report : ExecutionReport) (task : Task) (m : ℕ), s.2.dispatched[0]? = some report ∧
        ((WALEntry.packed.records s.1.pool.wal.file)[m]?).bind (fun e => e.request []) = some task.request.anonymous := by
  have hrun : (Machine.run tracedStep (start Unit ⟨1, fun _ => 0, 0⟩, {})
      (earlyReport 1 (by decide) ++ [.pool .flush])).any fun s =>
        s.2.dispatched.length = 1 ∧ s.1.pool.wal.queue = [] ∧
          (∀ task ∈ s.2.pool.accepted, BinarySerializer.Fits task.request.symbol) := by
    decide
  obtain ⟨⟨x, t⟩, hs, hany⟩ := (Option.any_eq_true _ _).1 hrun
  obtain ⟨hlen, hqueue, hsymbols⟩ := of_decide_eq_true hany
  obtain ⟨-, h⟩ := told_after_logged ⟨1, fun _ => 0, 0⟩ (earlyReport 1 (by decide) ++ [.pool .flush]) x t hs
  have hget : t.dispatched[0]? = some (t.dispatched.get ⟨0, by rw [hlen]; decide⟩) := List.getElem?_eq_getElem _
  obtain ⟨i, task, m, -, hacc, -, -, hreplayed⟩ := h 0 _ hget
  exact ⟨(x, t), hs, _, task, m, hget, hreplayed hqueue (hsymbols task (List.mem_of_getElem? hacc)) []⟩

end Exchange

end StockExchange
