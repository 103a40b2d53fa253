/-
Trade ids after a recovery. The workers take ids from one counter in the order in which they apply their operations, a
replay takes them in the order in which the operations were logged. The two agree as long as the operations that trade
are applied in the order in which they were logged, whatever the others do.
-/
import StockExchange.Threadpool.Crash
import StockExchange.Engine.TradeIds
import Mathlib.Data.Fintype.Basic

universe u

namespace StockExchange

open TradeIDGenerator

/-- The task that the worker has logged and not applied yet. -/
def Worker.inLog : Worker → Option Task
  | .logged task => some task
  | _ => none

theorem Worker.inLog_eq_some {s : Worker} {task : Task} : s.inLog = some task ↔ s = .logged task := by
  cases s with
  | logged t => simp [inLog]
  | _ => simp [inLog]

namespace History

variable {W : Type u} {p p' : ThreadPool W} {h h' : History W}

/-- The logged requests as a replay reads them. -/
def replayed (h : History W) : List Request := h.requests.map fun task => task.request.anonymous

/-! ## Numbers in the log -/

/-- A worker that is about to apply a task holds its number in the log, and under the lock of the book nobody has
logged a later task for it. -/
structure LogNumbers (p : ThreadPool W) (h : History W) : Prop where
  valid : h.log.Valid
  count : h.log.count = h.requests.length
  busy : ∀ w task, (p.workers w).inLog = some task → ∃ j, h.log.hands w = [j] ∧ h.requests[j]? = some task ∧
    ofSymbol task.symbol (h.requests.drop (j + 1)) = []
  free : ∀ w, (p.workers w).inLog = none → h.log.hands w = []

theorem start_logNumbers (env : Env) : LogNumbers (.start W env) ({} : History W) where
  valid := Relay.empty_valid
  count := rfl
  busy _ _ h := nomatch h
  free _ _ := rfl

/-- A step that logs and applies nothing. -/
theorem LogNumbers.quiet (hn : LogNumbers p h) (hrequests : h'.requests = h.requests) (hlog : h'.log = h.log)
    (hworkers : ∀ w, (p'.workers w).inLog = (p.workers w).inLog) : LogNumbers p' h' where
  valid := hlog ▸ hn.valid
  count := by
    rw [hlog, hrequests]
    exact hn.count
  busy w task hw := by
    rw [hworkers] at hw
    rw [hlog, hrequests]
    exact hn.busy w task hw
  free w hw := by
    rw [hworkers] at hw
    rw [hlog]
    exact hn.free w hw

/-- The number in the hand of a worker is that of its task. -/
theorem LogNumbers.task_of_mem (hn : LogNumbers p h) {w : W} {i : ℕ} (hi : i ∈ h.log.hands w) :
    ∃ task, p.workers w = .logged task ∧ h.log.hands w = [i] := by
  cases ht : (p.workers w).inLog with
  | none =>
    rw [hn.free w ht] at hi
    cases hi
  | some task =>
    obtain ⟨j, hj, -⟩ := hn.busy w task ht
    rw [hj, List.mem_singleton] at hi
    subst hi
    exact ⟨task, Worker.inLog_eq_some.1 ht, hj⟩

variable [DecidableEq W]

theorem LogNumbers.log (hn : LogNumbers p h)
    (hlocks : ∀ w symbol, p.locks symbol = some w ↔ (p.workers w).holds = some symbol) {w : W} {task : Task}
    (hw : p.workers w = .locked task) (entry : WALEntry) (net : NetOrder) (wal : WAL) :
    LogNumbers ({ p with wal := wal }.move w (.logged task)) (h.record p (.log w entry net)) := by
  have hempty : h.log.hands w = [] := hn.free w (by rw [hw]; rfl)
  have hrequests : (h.record p (.log w entry net)).requests = h.requests ++ [task] := by
    simp only [record, hw]
    rfl
  refine ⟨hn.valid.enter hempty 1, ?_, fun w' task' hw' => ?_, fun w' hw' => ?_⟩
  · rw [hrequests, List.length_append]
    exact congrArg (· + 1) hn.count
  · rw [hrequests]
    by_cases hww : w' = w
    · subst hww
      rw [ThreadPool.move_self] at hw'
      cases hw'
      refine ⟨h.log.count, Relay.enter_self 1, ?_, ?_⟩
      · rw [hn.count, List.getElem?_concat_length]
      · rw [hn.count, List.drop_eq_nil_of_le (by rw [List.length_append]; exact Nat.le_refl _)]
        rfl
    · rw [ThreadPool.move_of_ne hww] at hw'
      obtain ⟨j, hj, hget, hlast⟩ := hn.busy w' task' hw'
      have hlt : j < h.requests.length := (List.getElem?_eq_some_iff.1 hget).1
      refine ⟨j, (Relay.enter_of_ne hww 1).trans hj, ?_, ?_⟩
      · rw [List.getElem?_append_left hlt, hget]
      · -- two workers do not hold the lock of one book
        have hne : task'.symbol ≠ task.symbol := by
          intro hsame
          have h₁ := (hlocks w task.symbol).2 (by rw [hw]; rfl)
          have h₂ := (hlocks w' task'.symbol).2 (by rw [Worker.inLog_eq_some.1 hw']; rfl)
          rw [hsame, h₁] at h₂
          exact hww (Option.some.inj h₂).symm
        rw [List.drop_append_of_le_length hlt, ofSymbol_snoc, hlast, if_neg hne, List.append_nil]
  · by_cases hww : w' = w
    · subst hww
      rw [ThreadPool.move_self] at hw'
      cases hw'
    · rw [ThreadPool.move_of_ne hww] at hw'
      exact (Relay.enter_of_ne hww 1).trans (hn.free w' hw')

theorem LogNumbers.apply (hn : LogNumbers p h) {w : W} {task : Task} (result : MatchResult)
    (hw : p.workers w = .logged task) (hworkers : p'.workers = (p.move w (.applied task result)).workers) :
    LogNumbers p' (h.apply w task result) := by
  obtain ⟨j, hj, -⟩ := hn.busy w task (by rw [hw]; rfl)
  refine ⟨hn.valid.pass hj, hn.count, fun w' task' hw' => ?_, fun w' hw' => ?_⟩
  · rw [hworkers] at hw'
    by_cases hww : w' = w
    · rw [hww, ThreadPool.move_self] at hw'
      cases hw'
    · rw [ThreadPool.move_of_ne hww] at hw'
      obtain ⟨i, hi, hrest⟩ := hn.busy w' task' hw'
      exact ⟨i, (Relay.pass_of_ne hww).trans hi, hrest⟩
  · by_cases hww : w' = w
    · subst hww
      refine Relay.pass_self.trans ?_
      rw [hj]
      rfl
    · rw [hworkers, ThreadPool.move_of_ne hww] at hw'
      exact (Relay.pass_of_ne hww).trans (hn.free w' hw')

theorem LogNumbers.step {a : PoolAction W} (hs : p.step a = some p')
    (hlocks : ∀ w symbol, p.locks symbol = some w ↔ (p.workers w).holds = some symbol) (hn : LogNumbers p h) :
    LogNumbers p' (h.record p a) := by
  cases ThreadPool.steps hs with
  | submit task hlen => exact hn.quiet rfl rfl fun _ => rfl
  | dequeue w task tasks hw ht => exact hn.quiet rfl rfl (ThreadPool.move_view Worker.inLog (by rw [hw]; rfl))
  | getOrderBook w task hw => exact hn.quiet rfl rfl (ThreadPool.move_view Worker.inLog (by rw [hw]; rfl))
  | lock w task hw hl => exact hn.quiet rfl rfl (ThreadPool.move_view Worker.inLog (by rw [hw]; rfl))
  | log w entry net task hw => exact hn.log hlocks hw entry net _
  | apply w task book hw hb =>
    rw [record_apply hw hb]
    exact hn.apply _ hw rfl
  | unlock w task result hw => exact hn.quiet rfl rfl (ThreadPool.move_view Worker.inLog (by rw [hw]; rfl))
  | logFill w entry fill fills reports trades hw =>
    exact hn.quiet rfl rfl (ThreadPool.move_view Worker.inLog (by rw [hw]; rfl))
  | publishReport w report reports trades hw =>
    exact hn.quiet rfl rfl (ThreadPool.move_view Worker.inLog (by rw [hw]; rfl))
  | publishTrade w fill trades hw => exact hn.quiet rfl rfl (ThreadPool.move_view Worker.inLog (by rw [hw]; rfl))
  | finish w hw => exact hn.quiet rfl rfl (ThreadPool.move_view Worker.inLog (by rw [hw]; rfl))
  | flush wal hf => exact hn.quiet rfl rfl fun _ => rfl

end History

namespace ThreadPool

open History

variable {W : Type u} {p p' : ThreadPool W} {h h' : History W}

/-! ## The order of trading -/

/-- The worker is about to apply an operation that trades. -/
def Trading (p : ThreadPool W) (w : W) : Prop := ∃ q ∈ p.applying w, q.1.Marketable q.2.request.op

instance (p : ThreadPool W) (w : W) : Decidable (p.Trading w) :=
  inferInstanceAs (Decidable (∃ q ∈ p.applying w, q.1.Marketable q.2.request.op))

/-- A worker applies an operation that trades only if no other worker is still to apply one that trades and that
was logged before it. -/
def InLogOrder (s : ThreadPool W × History W) : PoolAction W → Prop
  | .apply w => s.1.Trading w → ∀ j ∈ s.2.log.hands w, ∀ w', s.1.Trading w' → ∀ i ∈ s.2.log.hands w', j ≤ i
  | _ => True

instance [Fintype W] (s : ThreadPool W × History W) (a : PoolAction W) : Decidable (InLogOrder s a) :=
  match a with
  | .apply w => inferInstanceAs (Decidable (s.1.Trading w → ∀ j ∈ s.2.log.hands w, ∀ w', s.1.Trading w' →
    ∀ i ∈ s.2.log.hands w', j ≤ i))
  | .submit _ | .dequeue _ | .getOrderBook _ | .lock _ | .log _ _ _ | .unlock _ | .logFill _ _ | .publishReport _
  | .publishTrade _ | .finish _ | .flush => .isTrue trivial

/-- A worker that has logged its task finds in the book what the requests logged before it have left there. -/
theorem Consistent.tradesOf_hand {after : List UInt8} {env : Env} (hc : Consistent after env (p, h)) (hn : LogNumbers p h)
    {w : W} {task : Task} {j : ℕ} (hw : p.workers w = .logged task) (hj : h.log.hands w = [j]) :
    ∃ book, p.registry task.symbol = some book ∧ ∀ env', tradesOf env h.replayed j =
      List.replicate (book.apply task.request.op env').result.fills.length task.symbol := by
  obtain ⟨j', hj', hget, hlast⟩ := hn.busy w task (by rw [hw]; rfl)
  rw [hj] at hj'
  cases hj'
  have htask : task.Built := hc.order.built task (List.mem_of_getElem? hget)
  have hsymbol : task.request.anonymous.symbol = task.symbol := by
    rw [Request.anonymous_symbol, htask.2]
  have hreplayed : h.replayed[j]? = some task.request.anonymous := by
    rw [replayed, List.getElem?_map, hget]
    rfl
  have hrest : opsOf task.symbol (h.replayed.drop (j + 1)) = [] := by
    rw [replayed, ← List.map_drop, opsOf_tasks task.symbol fun t ht => hc.order.built t (List.mem_of_mem_drop ht), hlast]
    rfl
  -- the logged operations of the book are those in front of the task and that of the task
  have hops : p.logged after task.symbol = opsOf task.symbol (h.replayed.take j) ++ [task.request.anonymous.op] := by
    obtain ⟨hlt, heq⟩ := List.getElem?_eq_some_iff.1 hreplayed
    have hlogged : p.logged after task.symbol = opsOf task.symbol h.replayed :=
      congrArg (opsOf task.symbol) (hc.order.history after)
    rw [hlogged]
    conv_lhs => rw [← List.take_append_drop j h.replayed, List.drop_eq_getElem_cons hlt, heq]
    rw [opsOf_append, ← List.singleton_append, opsOf_append, hrest, List.append_nil, ← hsymbol, opsOf_singleton_self]
  have hpending : p.pending task.symbol = [task.request.anonymous.op] := by
    rw [pending_of_some ((hc.recoverable.locks w task.symbol).2 (by rw [hw]; rfl)), hw]
    rfl
  obtain ⟨done, hdone, hbook⟩ := hc.recoverable.books task.symbol
  rw [hpending, hops] at hdone
  have hsame : done = opsOf task.symbol (h.replayed.take j) := (List.append_cancel_right hdone).symm
  cases hr : p.registry task.symbol with
  | none =>
    have hnil := hc.recoverable.unused task.symbol hr
    rw [hops] at hnil
    exact absurd hnil (by simp)
  | some book =>
    refine ⟨book, rfl, fun env' => ?_⟩
    have hfills : (book.apply task.request.op env').result.fills.length =
        fillCount env (h.replayed.take j) task.request.anonymous := by
      rw [fillCount, hsymbol, ← hsame, Request.anonymous_op]
      exact (hbook book hr).length_fills task.request.op.anonymous_anonymous.symm env' env
    rw [tradesOf, hreplayed, Option.elim_some, hfills, hsymbol]

/-- The number of a worker is one of a trade if its operation trades. -/
theorem Consistent.trading_iff {after : List UInt8} {env : Env} (hc : Consistent after env (p, h)) (hn : LogNumbers p h)
    {w : W} {i : ℕ} (hi : i ∈ h.log.hands w) : p.Trading w ↔ tradesOf env h.replayed i ≠ [] := by
  obtain ⟨task, hw, hi⟩ := hn.task_of_mem hi
  obtain ⟨book, hb, htrades⟩ := hc.tradesOf_hand hn hw hi
  have hq : p.applying w = some (book, task) := applying_eq_some.2 ⟨hw, hb⟩
  rw [htrades p.env, Ne, List.replicate_eq_nil_iff, List.length_eq_zero_iff, ← Ne, ← OrderBook.marketable_iff]
  unfold Trading
  simp [hq]

/-! ## The fills of a run -/

/-- The fills of a run are numbered from the start of the counter on, and come from the applied operations in the order
in which they were applied. -/
structure Traded (env : Env) (p : ThreadPool W) (h : History W) : Prop where
  ids : h.fills.map (fun q => q.2.tradeId) = ids env.counter h.fills.length
  counter : p.env.counter = after env.counter h.fills.length
  symbols : h.fills.map Prod.fst = h.log.out.flatMap (tradesOf env h.replayed)

theorem start_traded (env : Env) : Traded env (.start W env) ({} : History W) := ⟨rfl, rfl, rfl⟩

/-- A step that applies nothing; it may log a request. -/
theorem Traded.of_same_fills {env : Env} (ht : Traded env p h) (hn : LogNumbers p h) (hfills : h'.fills = h.fills)
    (hout : h'.log.out = h.log.out) (hreplayed : h.replayed <+: h'.replayed) (henv : p'.env = p.env) :
    Traded env p' h' := by
  obtain ⟨later, hlater⟩ := hreplayed
  refine ⟨?_, ?_, ?_⟩
  · rw [hfills]
    exact ht.ids
  · rw [hfills, henv]
    exact ht.counter
  · rw [hfills, hout, ht.symbols, ← hlater]
    refine List.flatMap_congr fun i hi => (tradesOf_append env ?_ later).symm
    rw [replayed, List.length_map, ← hn.count]
    exact hn.valid.lt_of_out hi

variable [DecidableEq W]

theorem Traded.apply {env : Env} (ht : Traded env p h) {w : W} {task : Task} {book : OrderBook} {j : ℕ}
    (hj : h.log.hands w = [j]) (htrades : tradesOf env h.replayed j =
      List.replicate (book.apply task.request.op p.env).result.fills.length task.symbol)
    (henv : p'.env = (book.apply task.request.op p.env).env) :
    Traded env p' (h.apply w task (book.apply task.request.op p.env).result) := by
  obtain ⟨hids, hcounter⟩ := book.apply_ids task.request.op p.env
  refine ⟨?_, ?_, ?_⟩
  · show (h.fills ++ _).map _ = TradeIDGenerator.ids _ (h.fills ++ _).length
    rw [List.map_append, List.length_append, List.length_map, ids_add, ht.ids, ← ht.counter, ← hids, List.map_map]
    rfl
  · show _ = TradeIDGenerator.after _ (h.fills ++ _).length
    rw [henv, hcounter, List.length_append, List.length_map, after_add, ← ht.counter]
  · show (h.fills ++ _).map _ = (h.log.pass w).out.flatMap (tradesOf env h.replayed)
    rw [Relay.pass_out hj, List.flatMap_append, List.flatMap_singleton, List.map_append, ht.symbols, htrades,
      List.map_map]
    exact congrArg _ (List.map_const' ..)

/-- Of the logged operations that trade, the first ones have been applied. -/
structure Numbered (after : List UInt8) (env : Env) (s : ThreadPool W × History W) : Prop where
  consistent : Consistent after env s
  numbers : LogNumbers s.1 s.2
  traded : Traded env s.1 s.2
  first : Relay.FirstOut (fun i => tradesOf env s.2.replayed i ≠ []) s.2.log

omit [DecidableEq W] in
/-- A step that applies nothing. -/
theorem Numbered.of_same_fills {after : List UInt8} {env : Env} (hm : Numbered after env (p, h))
    (hc : Consistent after env (p', h')) (hn : LogNumbers p' h') (hfills : h'.fills = h.fills)
    (hout : h'.log.out = h.log.out) (hreplayed : h.replayed <+: h'.replayed) (henv : p'.env = p.env) :
    Numbered after env (p', h') := by
  refine ⟨hc, hn, hm.traded.of_same_fills hm.numbers hfills hout hreplayed henv, ?_⟩
  obtain ⟨later, hlater⟩ := hreplayed
  have hlength : ∀ g : History W, g.replayed.length = g.requests.length := fun g => List.length_map ..
  refine hm.numbers.valid.firstOut_mono hm.first hout ?_ fun i hi => ?_
  · show h.log.count ≤ h'.log.count
    rw [hm.numbers.count, hn.count, ← hlength, ← hlength, ← hlater, List.length_append]
    exact Nat.le_add_right ..
  · show tradesOf env h'.replayed i ≠ [] ↔ tradesOf env h.replayed i ≠ []
    rw [← hlater, tradesOf_append env (by rw [hlength, ← hm.numbers.count]; exact hi)]

theorem Numbered.step {after : List UInt8} {env : Env} {s s' : ThreadPool W × History W} {a : PoolAction W}
    (ha : a.Built) (horder : InLogOrder s a) (hs : tracedStep s a = some s') (hm : Numbered after env s) :
    Numbered after env s' := by
  have hc := hm.consistent.step ha hs
  obtain ⟨p, h⟩ := s
  obtain ⟨p', h'⟩ := s'
  obtain ⟨hs, rfl⟩ := Machine.traced_eq_some.1 hs
  have hn := hm.numbers.step hs hm.consistent.recoverable.locks
  cases ThreadPool.steps hs with
  | apply w task book hw hb =>
    obtain ⟨j, hj, -⟩ := hm.numbers.busy w task (by rw [hw]; rfl)
    obtain ⟨b, hb', htrades⟩ := hm.consistent.tradesOf_hand hm.numbers hw hj
    rw [hb] at hb'
    cases hb'
    rw [record_apply hw hb] at hc hn ⊢
    refine ⟨hc, hn, hm.traded.apply hj (htrades p.env) rfl, ?_⟩
    have hmem : j ∈ h.log.hands w := by
      rw [hj]
      exact List.mem_singleton_self j
    refine hm.numbers.valid.pass_firstOut hm.first hj fun htrade w' i hi htrade' => ?_
    exact horder ((hm.consistent.trading_iff hm.numbers hmem).2 htrade) j hmem w'
      ((hm.consistent.trading_iff hm.numbers hi).2 htrade') i hi
  | log w entry net task hw =>
    exact hm.of_same_fills hc hn rfl rfl ((List.prefix_append _ _).map _) rfl
  | _ => exact hm.of_same_fills hc hn rfl rfl (List.prefix_refl _) rfl

theorem run_numbered (after : List UInt8) (env : Env) {actions : List (PoolAction W)} {s : ThreadPool W × History W}
    (hbuilt : ∀ a ∈ actions, a.Built) (horder : Machine.Along tracedStep InLogOrder (start W env, {}) actions)
    (hrun : Machine.run tracedStep (start W env, {}) actions = some s) : Numbered after env s :=
  Machine.run_invariant_along (fun _ _ _ ha hi => Numbered.step ha hi) actions _ s hbuilt horder hrun
    ⟨start_consistent after env, start_logNumbers env, start_traded env, Relay.empty_firstOut⟩

/-! ## Recovery -/

omit [DecidableEq W] in
/-- The fills of a run come from the same books as the first ones of a replay of the whole log. -/
theorem Numbered.symbols_isPrefix {after : List UInt8} {env : Env} (hm : Numbered after env (p, h)) (env' : Env) :
    h.fills.map Prod.fst <+: (ReplayEngine.requestFills ⟨.empty, env'⟩ h.replayed).map Prod.fst ∧
      ((∀ w, h.log.hands w = []) →
        h.fills.map Prod.fst = (ReplayEngine.requestFills ⟨.empty, env'⟩ h.replayed).map Prod.fst) := by
  have hfilter : ∀ l : List ℕ, (l.filter fun i => tradesOf env h.replayed i ≠ []).flatMap (tradesOf env h.replayed) =
      l.flatMap (tradesOf env h.replayed) := by
    intro l
    induction l with
    | nil => rfl
    | cons i l ih =>
      rw [List.filter_cons, List.flatMap_cons]
      split
      next => rw [List.flatMap_cons, ih]
      next hi =>
        have hnil : tradesOf env h.replayed i = [] := by simpa using hi
        rw [ih, hnil, List.nil_append]
  have hcount : h.replayed.length = h.log.count := by
    rw [replayed, List.length_map]
    exact hm.numbers.count.symm
  rw [ReplayEngine.requestFills_symbols env' env, hm.traded.symbols, hcount, ← hfilter, ← hfilter (List.range _)]
  constructor
  · obtain ⟨waiting, hwaiting⟩ := hm.first
    rw [← hwaiting, List.flatMap_append]
    exact List.prefix_append _ _
  · intro hempty
    rw [hm.numbers.valid.firstOut_all hm.first hempty]

omit [DecidableEq W] in
/-- A replay of the file makes the first fills of a replay of the whole log, all of them if all is flushed. -/
theorem Numbered.replayFills {after : List UInt8} {env : Env} (hm : Numbered after env (p, h)) (env' : Env) :
    ReplayEngine.replayFills after p.wal.file .empty env' <+:
        ReplayEngine.requestFills ⟨.empty, { env' with counter := 1 }⟩ h.replayed ∧
      (p.wal.queue = [] → ReplayEngine.replayFills after p.wal.file .empty env' =
        ReplayEngine.requestFills ⟨.empty, { env' with counter := 1 }⟩ h.replayed) := by
  have hreplayed : h.replayed = (WALEntry.packed.records p.wal.file).filterMap (fun entry => entry.request after) ++
      p.wal.queue.filterMap fun entry => entry.request after := by
    rw [← List.filterMap_append]
    exact (hm.consistent.order.history after).symm
  rw [ReplayEngine.replayFills, ReplayEngine.turnFills_eq, hreplayed]
  constructor
  · rw [ReplayEngine.requestFills_append]
    exact List.prefix_append _ _
  · intro hqueue
    rw [hqueue, List.filterMap_nil, List.append_nil]

/-- A run from a fresh counter, of tasks whose symbols fit the log, in which the operations that trade are applied in the
order in which they were logged: in every state, the k-th fill of a book in a replay of the file has the trade id of its
k-th fill in the run, and once all is done and flushed, a replay makes them all. -/
theorem trade_ids_recovered (env env' : Env) (after : List UInt8) (actions : List (PoolAction W)) (p : ThreadPool W)
    (h : History W) (hfresh : env.counter = 1) (hbuilt : ∀ a ∈ actions, a.Built)
    (horder : Machine.Along tracedStep InLogOrder (start W env, {}) actions)
    (hrun : Machine.run tracedStep (start W env, {}) actions = some (p, h)) (symbol : Symbol) :
    (∀ (k : ℕ) (fill fill' : Fill), (bookFills symbol h.fills)[k]? = some fill →
      (bookFills symbol (ReplayEngine.replayFills after p.wal.file .empty env'))[k]? = some fill' →
        fill'.tradeId = fill.tradeId) ∧
    (p.Drained → (bookFills symbol (ReplayEngine.replayFills after p.wal.file .empty env')).map Fill.tradeId =
      (bookFills symbol h.fills).map Fill.tradeId) := by
  have hm := run_numbered after env hbuilt horder hrun
  let whole := ReplayEngine.requestFills ⟨.empty, { env' with counter := 1 }⟩ h.replayed
  let read := ReplayEngine.replayFills after p.wal.file .empty env'
  have hwhole : whole.map (fun q => q.2.tradeId) = ids 1 whole.length := ReplayEngine.requestFills_ids ..
  have hlive : h.fills.map (fun q => q.2.tradeId) = ids 1 h.fills.length := hfresh ▸ hm.traded.ids
  obtain ⟨hsymbols, hall⟩ := hm.symbols_isPrefix { env' with counter := 1 }
  obtain ⟨hread, hflushed⟩ := hm.replayFills env'
  have hpre : (bookFills symbol h.fills).map Fill.tradeId <+: (bookFills symbol whole).map Fill.tradeId :=
    bookFills_isPrefix hlive hwhole hsymbols symbol
  have hpre' : (bookFills symbol read).map Fill.tradeId <+: (bookFills symbol whole).map Fill.tradeId :=
    ((hread.filter _).map _).map _
  constructor
  · intro k fill fill' hk hk'
    have hget : ∀ {fills : List Fill} {f : Fill}, fills.map Fill.tradeId <+: (bookFills symbol whole).map Fill.tradeId →
        fills[k]? = some f → ((bookFills symbol whole).map Fill.tradeId)[k]? = some f.tradeId := by
      rintro fills f ⟨rest, hrest⟩ hf
      rw [← hrest, List.getElem?_append_left, List.getElem?_map, hf, Option.map_some]
      rw [List.length_map]
      exact (List.getElem?_eq_some_iff.1 hf).1
    exact Option.some.inj ((hget hpre' hk').symm.trans (hget hpre hk))
  · rintro ⟨hidle, hqueue⟩
    have hempty : ∀ w, h.log.hands w = [] := fun w => hm.numbers.free w (by rw [hidle]; rfl)
    have hback : whole.map Prod.fst <+: h.fills.map Prod.fst := by
      rw [hall hempty]
    rw [hflushed hqueue]
    exact (bookFills_isPrefix hwhole hlive hback symbol).eq_of_length_le hpre.length_le

/-- A sell and a buy that trade for each of two symbols. Both sells go through; then one worker logs the buy of the one
symbol and the other one that of the other, and they apply them in the order `order`. -/
def tradeRace (order : List Bool) : List (PoolAction Bool) :=
  let entry : WALEntry := ⟨7, .replicate 52 255⟩
  let net : NetOrder := ⟨0, .replicate 8 255, 0, 0, 0, 0, 0⟩
  let sell (id : OrderID) (symbol : Symbol) : PoolAction Bool := .submit ⟨.submit
    { orderId := id, symbol := symbol, side := .sell, price := 10, quantity := 5, remainingQuantity := 5 }, symbol⟩
  let buy (id : OrderID) (symbol : Symbol) : PoolAction Bool := .submit ⟨.submit
    { orderId := id, symbol := symbol, price := 10, quantity := 5, remainingQuantity := 5, timestamp := 1 }, symbol⟩
  let handle (w : Bool) : List (PoolAction Bool) := [.dequeue w, .getOrderBook w, .lock w, .log w entry net]
  let done (w : Bool) : List (PoolAction Bool) := [.apply w, .unlock w, .publishReport w, .finish w]
  let traded (w : Bool) : List (PoolAction Bool) :=
    [.unlock w, .logFill w entry, .publishReport w, .publishReport w, .publishTrade w, .finish w]
  [sell 1 [65], sell 2 [66], buy 3 [65], buy 4 [66]] ++ handle true ++ done true ++ handle false ++ done false ++
    handle true ++ handle false ++ order.map .apply ++ traded true ++ traded false ++ List.replicate 6 .flush

/-- In the order of the log the two fills come back with their ids. -/
theorem trade_ids_recovered_in_order : ∃ s,
    Machine.run tracedStep (start Bool ⟨1, fun _ => 0, 0⟩, {}) (tradeRace [true, false]) = some s ∧
      s.2.fills.map (fun q => (q.1, q.2.tradeId)) = [([65], 1), ([66], 2)] ∧ s.1.Drained ∧ ∀ symbol,
        (bookFills symbol (ReplayEngine.replayFills [] s.1.wal.file .empty ⟨9, fun _ => 5, 0⟩)).map Fill.tradeId =
          (bookFills symbol s.2.fills).map Fill.tradeId := by
  have hrun : (Machine.run tracedStep (start Bool ⟨1, fun _ => 0, 0⟩, {}) (tradeRace [true, false])).any fun s =>
      s.2.fills.map (fun q => (q.1, q.2.tradeId)) = [([65], 1), ([66], 2)] ∧ s.1.wal.queue = [] ∧
        ∀ w, (s.1.workers w).ctorIdx = Worker.idle.ctorIdx := by decide +kernel
  obtain ⟨⟨p, h⟩, hs, hany⟩ := (Option.any_eq_true _ _).1 hrun
  obtain ⟨hfills, hqueue, hidle⟩ := of_decide_eq_true hany
  have hdrained : p.Drained := by
    refine ⟨fun w => ?_, hqueue⟩
    have hw := hidle w
    revert hw
    cases p.workers w with
    | idle => exact fun _ => rfl
    | _ =>
      intro hw
      cases hw
  exact ⟨(p, h), hs, hfills, hdrained, fun symbol => (trade_ids_recovered ⟨1, fun _ => 0, 0⟩ ⟨9, fun _ => 5, 0⟩ []
    (tradeRace [true, false]) p h rfl (by decide) (by decide +kernel) hs symbol).2 hdrained⟩

/-- The worker that has logged later applies first and takes the first id, which the replay gives to the other fill. -/
theorem trade_ids_swapped : (∀ a ∈ tradeRace [false, true], a.Built) ∧ ∃ s,
    Machine.run tracedStep (start Bool ⟨1, fun _ => 0, 0⟩, {}) (tradeRace [false, true]) = some s ∧
      s.1.wal.queue = [] ∧ (bookFills [65] s.2.fills).map Fill.tradeId = [2] ∧
      (bookFills [65] (ReplayEngine.replayFills [] s.1.wal.file .empty ⟨1, fun _ => 0, 0⟩)).map Fill.tradeId = [1] := by
  have hrun : (Machine.run tracedStep (start Bool ⟨1, fun _ => 0, 0⟩, {}) (tradeRace [false, true])).any fun s =>
      s.1.wal.queue = [] ∧ (bookFills [65] s.2.fills).map Fill.tradeId = [2] ∧
        (bookFills [65] (ReplayEngine.replayFills [] s.1.wal.file .empty ⟨1, fun _ => 0, 0⟩)).map Fill.tradeId = [1] := by
    decide +kernel
  obtain ⟨s, hs, hany⟩ := (Option.any_eq_true _ _).1 hrun
  exact ⟨by decide, s, hs, of_decide_eq_true hany⟩

end ThreadPool

end StockExchange
