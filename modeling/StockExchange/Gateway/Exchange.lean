/-
The whole exchange: sessions that turn packets into tasks (`gateway/session.hpp`,
`gateway/connection_manager.hpp`), the pool with its books and its log, and the dispatch thread that
hands reports to sessions (`pipeline/execution_pipeline.cpp`), in any interleaving.
-/
import StockExchange.Gateway.Session
import StockExchange.Threadpool.ThreadPool
import StockExchange.Lib.Machine
import Mathlib.Data.Finset.Erase

universe u

namespace StockExchange

structure Exchange (W : Type u) where
  pool : ThreadPool W
  risk : RiskChecker := {}
  /-- `next_client_id` of the session constructor. -/
  nextClientId : ClientID := 1
  /-- The clients with a session in the `ConnectionManager`. -/
  sessions : Finset ClientID := ∅
  /-- The reports handed to sessions. -/
  sent : List (ClientID × ExecutionReport) := []
  /-- The tasks handed to the pool, each with the client on whose session it came in. Nothing reads it. -/
  received : List (ClientID × Task) := []

inductive ExchangeAction (W : Type u)
  | connect
  | close (c : ClientID)
  | registerSymbol (symbol : Symbol)
  /-- A packet arrives on the session of a client; `behind` is memory the decoder may run into. -/
  | packet (c : ClientID) (packet : Packet) (behind : List UInt8)
  /-- A step of a worker or of the flush thread. -/
  | pool (a : PoolAction W)
  | dispatchReport
  | dispatchTrade

namespace Exchange

variable {W : Type u}

def start (W : Type u) (env : Env) : Exchange W := { pool := .start W env }

/-- The book and the task that a step applies, if it is a step of applying. -/
def applying (x : Exchange W) : ExchangeAction W → Option (OrderBook × Task)
  | .pool (.apply w) => x.pool.applying w
  | _ => none

theorem applying_eq_some {x : Exchange W} {a : ExchangeAction W} {book : OrderBook} {task : Task}
    (h : x.applying a = some (book, task)) :
    ∃ w, x.pool.workers w = .logged task ∧ x.pool.registry task.symbol = some book := by
  unfold applying at h
  split at h
  next w => exact ⟨w, ThreadPool.applying_eq_some.1 h⟩
  next => cases h

variable [DecidableEq W]

def step (x : Exchange W) : ExchangeAction W → Option (Exchange W)
  | .connect => some { x with nextClientId := x.nextClientId + 1, sessions := insert x.nextClientId x.sessions }
  | .close c => some { x with sessions := x.sessions.erase c }
  | .registerSymbol symbol => some { x with risk := x.risk.registerSymbol symbol }
  | .packet c packet behind =>
    if c ∈ x.sessions then
      match Session.processPacket c packet behind x.risk x.pool.env with
      | (.dropped, _, _) => some x
      | (.rejected report, risk, env) =>
        some { x with pool := { x.pool with env := env }, risk := risk, sent := x.sent ++ [(c, report)] }
      | (.accepted task, risk, env) =>
        -- `pool_.submit` waits while the queue is full
        ({ x.pool with env := env }.step (.submit task)).map fun pool =>
          { x with pool := pool, risk := risk, received := x.received ++ [(c, task)] }
    else none
  | .pool (.submit _) => none
  | .pool a => (x.pool.step a).map fun pool => { x with pool := pool }
  | .dispatchReport =>
    match x.pool.reports with
    | [] => none
    | report :: reports =>
      some { x with
        pool := { x.pool with reports := reports }
        sent := if report.clientId ∈ x.sessions then x.sent ++ [(report.clientId, report)] else x.sent }
  | .dispatchTrade =>
    match x.pool.trades with
    | [] => none
    | _ :: trades => some { x with pool := { x.pool with trades := trades } }

/-- Everything a step can do. -/
inductive Transition (x : Exchange W) : ExchangeAction W → Exchange W → Prop
  | connect : Transition x .connect
      { x with nextClientId := x.nextClientId + 1, sessions := insert x.nextClientId x.sessions }
  | close (c : ClientID) : Transition x (.close c) { x with sessions := x.sessions.erase c }
  | registerSymbol (symbol : Symbol) :
    Transition x (.registerSymbol symbol) { x with risk := x.risk.registerSymbol symbol }
  | dropped (c : ClientID) (packet : Packet) (behind : List UInt8) (risk : RiskChecker) (env : Env)
    (hc : c ∈ x.sessions) (hp : Session.processPacket c packet behind x.risk x.pool.env = (.dropped, risk, env)) :
    Transition x (.packet c packet behind) x
  | rejected (c : ClientID) (packet : Packet) (behind : List UInt8) (report : ExecutionReport) (risk : RiskChecker)
    (env : Env) (hc : c ∈ x.sessions)
    (hp : Session.processPacket c packet behind x.risk x.pool.env = (.rejected report, risk, env)) :
    Transition x (.packet c packet behind)
      { x with pool := { x.pool with env := env }, risk := risk, sent := x.sent ++ [(c, report)] }
  | accepted (c : ClientID) (packet : Packet) (behind : List UInt8) (task : Task) (risk : RiskChecker) (env : Env)
    (hc : c ∈ x.sessions)
    (hp : Session.processPacket c packet behind x.risk x.pool.env = (.accepted task, risk, env))
    (hlen : x.pool.tasks.length < maxQueueCapacity) :
    Transition x (.packet c packet behind)
      { x with
        pool := { x.pool with tasks := x.pool.tasks ++ [task], env := env }
        risk := risk
        received := x.received ++ [(c, task)] }
  | pool (a : PoolAction W) (pool : ThreadPool W) (hstep : x.pool.step a = some pool)
    (ha : ∀ task, a ≠ .submit task) : Transition x (.pool a) { x with pool := pool }
  | dispatchReport (report : ExecutionReport) (reports : List ExecutionReport) (hr : x.pool.reports = report :: reports) :
    Transition x .dispatchReport
      { x with
        pool := { x.pool with reports := reports }
        sent := if report.clientId ∈ x.sessions then x.sent ++ [(report.clientId, report)] else x.sent }
  | dispatchTrade (trade : Trade) (trades : List Trade) (ht : x.pool.trades = trade :: trades) :
    Transition x .dispatchTrade { x with pool := { x.pool with trades := trades } }

theorem transition {x x' : Exchange W} {a : ExchangeAction W} (h : x.step a = some x') : Transition x a x' := by
  cases a with
  | connect => cases h; exact .connect
  | close c => cases h; exact .close c
  | registerSymbol symbol => cases h; exact .registerSymbol symbol
  | packet c packet behind =>
    simp only [step] at h
    split at h
    next hc =>
      split at h
      next risk env hp => cases h; exact .dropped c packet behind risk env hc hp
      next report risk env hp => cases h; exact .rejected c packet behind report risk env hc hp
      next task risk env hp =>
        obtain ⟨pool, hpool, rfl⟩ := Option.map_eq_some_iff.1 h
        cases ThreadPool.steps hpool with
        | submit _ hlen => exact .accepted c packet behind task risk env hc hp hlen
    next => cases h
  | pool a =>
    cases a with
    | submit task => cases h
    | _ =>
      obtain ⟨pool, hpool, rfl⟩ := Option.map_eq_some_iff.1 h
      exact .pool _ pool hpool (by rintro task ⟨⟩)
  | dispatchReport =>
    simp only [step] at h
    split at h
    next => cases h
    next report reports hr => cases h; exact .dispatchReport report reports hr
  | dispatchTrade =>
    simp only [step] at h
    split at h
    next => cases h
    next trade trades ht => cases h; exact .dispatchTrade trade trades ht

/-- What a step can do to the books, to the tasks and to what decides about them. -/
inductive Steps (x : Exchange W) : ExchangeAction W → Exchange W → Prop
  /-- Sessions come and go, reports are handed on. -/
  | idle (a : ExchangeAction W) (x' : Exchange W) (htasks : x'.pool.tasks = x.pool.tasks)
    (hworkers : x'.pool.workers = x.pool.workers) (hregistry : x'.pool.registry = x.pool.registry)
    (hreceived : x'.received = x.received) : Steps x a x'
  | accept (c : ClientID) (packet : Packet) (behind : List UInt8) (task : Task) (risk : RiskChecker) (env : Env)
    (htask : Session.Accepts c x.risk task risk) :
    Steps x (.packet c packet behind)
      { x with
        pool := { x.pool with tasks := x.pool.tasks ++ [task], env := env }
        risk := risk
        received := x.received ++ [(c, task)] }
  | pool (a : PoolAction W) (pool : ThreadPool W) (hstep : x.pool.step a = some pool)
    (ha : ∀ task, a ≠ .submit task) : Steps x (.pool a) { x with pool := pool }

theorem steps {x x' : Exchange W} {a : ExchangeAction W} (h : x.step a = some x') : Steps x a x' := by
  cases transition h with
  | accepted c packet behind task risk env hc hp hlen =>
    have hresult := Session.processPacket_spec hp
    exact .accept c packet behind task risk env hresult.1
  | pool a pool hstep ha => exact .pool a pool hstep ha
  | _ => exact .idle _ _ rfl rfl rfl rfl

/-- What every accepted task is, all tasks of the pool are. -/
theorem allTasks_step {Q : Task → Prop} {x x' : Exchange W} {a : ExchangeAction W} (hs : x.step a = some x')
    (hQ : ∀ c risk task risk', Session.Accepts c risk task risk' → Q task) (h : x.pool.AllTasks Q) :
    x'.pool.AllTasks Q := by
  cases steps hs with
  | idle _ _ htasks hworkers => exact ⟨htasks ▸ h.queued, hworkers ▸ h.taken⟩
  | accept c packet behind task risk env htask =>
    refine ⟨fun t ht => ?_, h.taken⟩
    rcases List.mem_append.1 ht with ht | ht
    · exact h.queued t ht
    · rw [List.mem_singleton.1 ht]
      exact hQ c _ task _ htask
  | pool a pool hstep ha => exact h.step hstep fun task heq => absurd heq (ha task)

/-- A packet that a session accepts becomes a task as soon as the queue has room. -/
theorem step_accepted {x : Exchange W} {c : ClientID} {packet : Packet} {behind : List UInt8} {task : Task}
    {risk : RiskChecker} {env : Env} (hc : c ∈ x.sessions)
    (hp : Session.processPacket c packet behind x.risk x.pool.env = (.accepted task, risk, env))
    (hlen : x.pool.tasks.length < maxQueueCapacity) :
    ∃ x', x.step (.packet c packet behind) = some x' ∧ x'.received = x.received ++ [(c, task)] := by
  refine ⟨{ x with
    pool := { x.pool with tasks := x.pool.tasks ++ [task], env := env }
    risk := risk
    received := x.received ++ [(c, task)] }, ?_, rfl⟩
  simp only [step, if_pos hc, hp, ThreadPool.step, if_pos hlen, Option.map_some]

/-! ## Applying -/

/-- A worker that has an operation to apply can apply it. -/
theorem step_applying {x : Exchange W} {a : ExchangeAction W} {q : OrderBook × Task} (hq : x.applying a = some q) :
    ∃ x', x.step a = some x' ∧
      x'.pool.registry = x.pool.registry.set q.2.symbol (q.1.apply q.2.request.op x.pool.env).book := by
  unfold applying at hq
  split at hq
  next w =>
    obtain ⟨pool, hpool, hregistry⟩ := ThreadPool.step_apply hq
    refine ⟨{ x with pool := pool }, ?_, hregistry⟩
    show (x.pool.step (.apply w)).map _ = _
    rw [hpool]
    rfl
  next => cases hq

/-- What holds of the books after a step: they are those before with the applied one changed; a step that
applies nothing leaves them as they are, or makes an empty one. -/
theorem forall_step_iff {x : Exchange W} {a : ExchangeAction W} {P : BookRegistry → Prop}
    (h : ∀ registry, registry = x.pool.registry ∨ (∃ symbol, registry = (x.pool.registry.getOrderBook symbol).2) →
      P registry) :
    (∀ x' ∈ x.step a, P x'.pool.registry) ↔ ∀ q ∈ x.applying a,
      P (x.pool.registry.set q.2.symbol (q.1.apply q.2.request.op x.pool.env).book) := by
  constructor
  · intro hall q hq
    obtain ⟨x', hs, hregistry⟩ := step_applying hq
    rw [← hregistry]
    exact hall x' hs
  · intro hall x' hs
    cases steps hs with
    | idle _ _ _ _ hregistry => exact h _ (.inl hregistry)
    | accept c packet behind task risk env htask => exact h _ (.inl rfl)
    | pool a pool hstep _ =>
      rcases ThreadPool.registry_step hstep with hr | ⟨symbol, hr⟩ | ⟨w, book, task, rfl, hq, hr⟩
      · exact h _ (.inl hr)
      · exact h _ (.inr ⟨symbol, hr⟩)
      · show P pool.registry
        rw [hr]
        exact hall _ hq

end Exchange

end StockExchange
