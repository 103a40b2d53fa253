/-
The history of the pool in a run of the whole exchange. To the pool a step of the exchange is a step of its own,
among them the acceptance of a task that a session has made of a packet, or one that it does not notice: what
its steps keep of the pool and its history, and what does not look at the clock and at the queues of the
pipeline, every run of the exchange keeps.
-/
import StockExchange.Gateway.Exchange
import StockExchange.Threadpool.History

universe u

namespace StockExchange

namespace Exchange

variable {W : Type u} [DecidableEq W]

/-- What a step adds to the history of the pool. -/
def recordPool (x : Exchange W) (a : ExchangeAction W) (h : History W) : History W :=
  match a with
  | .packet c packet behind =>
    match Session.processPacket c packet behind x.risk x.pool.env with
    | (.accepted task, _, _) => h.record x.pool (.submit task)
    | _ => h
  | .pool a => h.record x.pool a
  | _ => h

variable {x x' : Exchange W} {h : History W}

theorem recordPool_packet {c : ClientID} {packet : Packet} {behind : List UInt8} {result : PacketResult}
    {risk : RiskChecker} {env : Env}
    (hp : Session.processPacket c packet behind x.risk x.pool.env = (result, risk, env)) :
    recordPool x (.packet c packet behind) h = match result with
      | .accepted task => { h with accepted := h.accepted ++ [task] }
      | _ => h := by
  simp only [recordPool, hp]
  cases result <;> rfl

/-- What the steps of the pool keep, the steps of the exchange keep. -/
theorem lift_step {I : ThreadPool W → History W → Prop}
    (hsame : ∀ p p' h, p'.tasks = p.tasks → p'.workers = p.workers → p'.wal = p.wal → p'.registry = p.registry →
      I p h → I p' h)
    (hstep : ∀ p a p' h, p.step a = some p' → I p h → I p' (h.record p a)) {a : ExchangeAction W}
    (hs : x.step a = some x') (hI : I x.pool h) : I x'.pool (recordPool x a h) := by
  cases transition hs with
  | connect => exact hI
  | close c => exact hI
  | registerSymbol symbol => exact hI
  | dropped c packet behind risk env hc hp =>
    rw [recordPool_packet hp]
    exact hI
  | rejected c packet behind report risk env hc hp =>
    rw [recordPool_packet hp]
    exact hsame x.pool _ h rfl rfl rfl rfl hI
  | accepted c packet behind task risk env hc hp hlen =>
    rw [recordPool_packet hp]
    have henv : I { x.pool with env := env } h := hsame x.pool _ h rfl rfl rfl rfl hI
    exact hstep { x.pool with env := env } (.submit task) _ h (if_pos hlen) henv
  | pool a pool hstep' ha => exact hstep _ _ _ _ hstep' hI
  | dispatchReport report reports hr => exact hsame x.pool _ h rfl rfl rfl rfl hI
  | dispatchTrade trade trades ht => exact hsame x.pool _ h rfl rfl rfl rfl hI

end Exchange

namespace History

variable {W : Type u} {p p' : ThreadPool W} {h : History W}

theorem Arrived.of_same_pool (ha : Arrived p h) (htasks : p'.tasks = p.tasks) (hworkers : p'.workers = p.workers) :
    Arrived p' h := ha.of_same_tasks rfl rfl htasks (by simp [hworkers])

end History

end StockExchange
