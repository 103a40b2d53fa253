/-
The exchange over any number of lives. A life starts by replaying the log into an empty registry and opening the log
behind what it holds, goes through any run of the pool, and ends at any point with any number of whole records in the
file. The replay leaves the books where the logged requests left them and the counter of trade ids behind
every trade that is in the log, so books are recovered over all lives and no trade id is logged twice.
-/
import StockExchange.Threadpool.Crash
import StockExchange.Pipeline.Restart
import StockExchange.Engine.FillBound
import Mathlib.Data.Fintype.Basic

universe u

namespace StockExchange

open TradeIDGenerator

/-! ## Numbers of trades -/

namespace TradeIDGenerator

/-- The counter does not wrap while there is room. -/
theorem toNat_after (counter : UInt64) {n : ℕ} (h : counter.toNat + n < 2 ^ 64) :
    (after counter n).toNat = counter.toNat + n := by
  induction n with
  | zero => rfl
  | succ n ih =>
    have hn := ih (by omega)
    rw [after_add, after, Function.iterate_one, UInt64.toNat_add, hn]
    have hone : (1 : UInt64).toNat = 1 := rfl
    rw [hone, Nat.mod_eq_of_lt (by omega)]
    omega

theorem toNat_ids (counter : UInt64) : ∀ {n : ℕ}, counter.toNat + n ≤ 2 ^ 64 →
    (ids counter n).map UInt64.toNat = List.range' counter.toNat n
  | 0, _ => rfl
  | n + 1, h => by
    have hlast : (after counter n).toNat = counter.toNat + n := toNat_after counter (by omega)
    have hone : ids (after counter n) 1 = [after counter n] := rfl
    rw [ids_add, List.map_append, toNat_ids counter (by omega), hone, List.map_singleton, hlast, List.range'_concat,
      Nat.one_mul]

end TradeIDGenerator

/-- The trade id of a `Fill` entry. -/
def WALEntry.tradeId (entry : WALEntry) : Option UInt64 :=
  if entry.type = WALEventType.fill then some (entry.data.read NetFill.packed).tradeId else none

theorem WALEntry.tradeId_ofFill (entry : WALEntry) (fill : Fill) : (entry.ofFill fill).tradeId = some fill.tradeId := by
  rw [ofFill, tradeId, if_pos rfl, WALData.read_write]

theorem WALEntry.tradeId_ofRequest (entry : WALEntry) (net : NetOrder) (r : Request) :
    (entry.ofRequest net r).tradeId = none := by
  cases r <;> rfl

namespace WAL

/-- The trade ids that have been logged. -/
def tradeIds (wal : WAL) : List UInt64 := wal.entries.filterMap WALEntry.tradeId

theorem tradeIds_enqueue (wal : WAL) (entry : WALEntry) :
    (wal.enqueue entry).tradeIds = wal.tradeIds ++ entry.tradeId.toList := by
  rw [tradeIds, entries_enqueue, List.filterMap_append]
  cases h : entry.tradeId <;> simp [tradeIds, h]

/-- Every trade id in the log is one that the requests in front of it have come to. -/
def Prior (after : List UInt8) (env : Env) (entries : List WALEntry) : Prop :=
  ∀ before entry later, entries = before ++ entry :: later → ∀ id, entry.tradeId = some id →
    id.toNat ≤ fillTotal env (before.filterMap fun e => e.request after)

variable {after : List UInt8} {env : Env} {entries : List WALEntry}

theorem Prior.of_prefix {cut : List WALEntry} (h : Prior after env entries) (hcut : cut <+: entries) :
    Prior after env cut := by
  rintro before entry later rfl
  obtain ⟨rest, rfl⟩ := hcut
  refine h before entry (later ++ rest) ?_
  rw [List.append_assoc, List.cons_append]

theorem Prior.snoc (h : Prior after env entries) {entry : WALEntry} (hentry : ∀ id, entry.tradeId = some id →
    id.toNat ≤ fillTotal env (entries.filterMap fun e => e.request after)) : Prior after env (entries ++ [entry]) := by
  intro before e later heq
  rcases List.eq_nil_or_concat later with rfl | ⟨later, last, rfl⟩
  · obtain ⟨rfl, hlast⟩ := List.append_inj' heq rfl
    cases hlast
    exact hentry
  · rw [List.concat_eq_append, ← List.cons_append, ← List.append_assoc] at heq
    exact h before e later (List.append_inj' heq rfl).1

/-- All of them are below the number of trades of the whole log. -/
theorem Prior.le (h : Prior after env entries) {id : UInt64} (hid : id ∈ entries.filterMap WALEntry.tradeId) :
    id.toNat ≤ fillTotal env (entries.filterMap fun e => e.request after) := by
  obtain ⟨entry, hmem, hentry⟩ := List.mem_filterMap.1 hid
  obtain ⟨before, later, rfl⟩ := List.append_of_mem hmem
  refine (h before entry later rfl id hentry).trans (fillTotal_mono env fun symbol => ?_)
  rw [List.filterMap_append, opsOf_append]
  exact List.prefix_append ..

end WAL

/-- The fills that the worker has made and not logged yet. -/
def Worker.heldFills : Worker → List Fill
  | .applied _ result => result.fills
  | .finishing fills _ _ => fills
  | _ => []

namespace ThreadPool

variable {W : Type u}

/-! ## A life -/

/-- The pool of a new life: `ReplayEngine::replay` has filled an empty registry from the file and left the trade id
counter behind, and `WAL::start` has opened the file in append mode. -/
def restart (W : Type u) (after file : List UInt8) (env : Env) : ThreadPool W :=
  let s := ReplayEngine.replay after file .empty env
  { registry := s.registry, wal := .start file, env := s.env }

theorem restart_allTasks (Q : Task → Prop) (after file : List UInt8) (env : Env) : (restart W after file env).AllTasks Q := by
  constructor
  · rintro task ⟨⟩
  · rintro w task ⟨⟩

theorem replay_eq_foldl (after file : List UInt8) (env : Env) : ReplayEngine.replay after file .empty env =
    ((WAL.start file).history after).foldl ReplayEngine.apply ⟨.empty, { env with counter := 1 }⟩ := by
  unfold ReplayEngine.replay
  rw [ReplayEngine.foldl_turn, WAL.history, WAL.entries]
  exact congrArg (fun l => (List.filterMap _ l).foldl _ _) (List.append_nil _).symm

/-- The books and the log of a new life belong together. -/
theorem restart_recoverable (after : List UInt8) {file : List UInt8} (env env' : Env)
    (hfile : ∃ written : List WALEntry, file = written.flatMap WALEntry.packed.put) :
    (restart W after file env).Recoverable after env' := by
  have hbuilt : ∀ symbol, BuiltBy symbol env' ((restart W after file env).logged after symbol)
      ((restart W after file env).registry symbol) := by
    intro symbol
    show BuiltBy symbol env' _ ((ReplayEngine.replay after file .empty env).registry symbol)
    rw [replay_eq_foldl]
    exact builtBy_foldl _ env' _ symbol
  refine ⟨hfile, fun w symbol => ?_, fun w symbol h => ?_, fun symbol => ?_, fun symbol hnone => ?_,
    fun symbol hsome hnil => ?_⟩
  · constructor
    · rintro ⟨⟩
    · rintro ⟨⟩
  · cases h
  · refine ⟨(restart W after file env).logged after symbol, (List.append_nil _).symm, fun book hbook => ?_⟩
    have hsame := (hbuilt symbol).sameBook
    rwa [hbook] at hsame
  · by_contra hne
    have h := hbuilt symbol
    rw [BuiltBy, hnone, if_neg hne] at h
    cases h
  · have h := hbuilt symbol
    rw [BuiltBy, if_pos hnil] at h
    revert hsome h
    cases (restart W after file env).registry symbol with
    | none => exact fun hne => absurd rfl hne
    | some book =>
      intro _ h
      cases h

/-! ## The tape -/

/-- The requests applied so far, in an order in which each book has seen them, and the trade ids: those in the log are
distinct and none is ahead of its trade, and the fills that workers still have to log have ids of their own. -/
structure Taped (after : List UInt8) (env : Env) (p : ThreadPool W) : Prop where
  applied : ∃ rs, p.env.counter.toNat = fillTotal env rs + 1 ∧
    ∀ symbol, p.logged after symbol = opsOf symbol rs ++ p.pending symbol
  prior : WAL.Prior after env p.wal.entries
  nodup : p.wal.tradeIds.Nodup
  below : ∀ id ∈ p.wal.tradeIds, id.toNat < p.env.counter.toNat
  held : ∀ w, ∀ fill ∈ (p.workers w).heldFills, fill.tradeId.toNat < p.env.counter.toNat ∧
    fill.tradeId ∉ p.wal.tradeIds
  once : ∀ w, ((p.workers w).heldFills.map Fill.tradeId).Nodup
  apart : ∀ w w', w ≠ w' → ∀ fill ∈ (p.workers w).heldFills, ∀ fill' ∈ (p.workers w').heldFills,
    fill.tradeId ≠ fill'.tradeId

/-- The requests applied have made no more trades than those logged. -/
theorem Taped.counter_le {after : List UInt8} {env : Env} {p : ThreadPool W} (h : p.Taped after env) :
    p.env.counter.toNat ≤ fillTotal env (p.wal.history after) + 1 := by
  obtain ⟨rs, hcounter, hops⟩ := h.applied
  rw [hcounter]
  refine Nat.succ_le_succ (fillTotal_mono env fun symbol => ?_)
  have hlogged : opsOf symbol (p.wal.history after) = _ := hops symbol
  rw [hlogged]
  exact List.prefix_append ..

/-- There are at least as many entries in a log as trades that its requests make. -/
theorem fillTotal_history_le (after : List UInt8) (env : Env) (wal : WAL) :
    fillTotal env (wal.history after) ≤ wal.entries.length := by
  refine (fillTotal_le env _).trans ?_
  have hsubmitted : (submittedIds ((wal.history after).map Request.op)).length ≤ _ := List.length_filterMap_le ..
  have hhistory : (wal.history after).length ≤ wal.entries.length := List.length_filterMap_le ..
  rw [List.length_map] at hsubmitted
  exact hsubmitted.trans hhistory

variable {after : List UInt8} {env : Env} {p p' : ThreadPool W}

/-- A step that applies nothing and logs no fill; it may log a request. -/
theorem Taped.quiet (h : p.Taped after env) (henv : p'.env = p.env) (hentries : WAL.Prior after env p'.wal.entries)
    (hids : p'.wal.tradeIds = p.wal.tradeIds) (hheld : ∀ w, (p'.workers w).heldFills = (p.workers w).heldFills)
    (hops : ∀ symbol, ∀ done, p.logged after symbol = done ++ p.pending symbol →
      p'.logged after symbol = done ++ p'.pending symbol) : p'.Taped after env := by
  obtain ⟨rs, hcounter, happlied⟩ := h.applied
  refine ⟨⟨rs, by rw [henv, hcounter], fun symbol => hops symbol _ (happlied symbol)⟩, hentries, ?_, ?_, ?_, ?_, ?_⟩
  · rw [hids]
    exact h.nodup
  · rw [hids, henv]
    exact h.below
  · simp only [hheld, hids, henv]
    exact h.held
  · simp only [hheld]
    exact h.once
  · simp only [hheld]
    exact h.apart

variable [DecidableEq W]

/-- A worker takes or gives back the lock of a book in which nothing is pending. -/
theorem pending_relock {w : W} {s : Worker} {symbol : Symbol} {holder : Option W} (hs : s.pending = [])
    (hw : (p.workers w).pending = []) (hsymbol : p.pending symbol = []) (hholder : holder = none ∨ holder = some w)
    (symbol' : Symbol) :
    ({ p with locks := Function.update p.locks symbol holder }.move w s).pending symbol' = p.pending symbol' := by
  by_cases hsame : symbol' = symbol
  · subst hsame
    have hlock : ({ p with locks := Function.update p.locks symbol' holder }.move w s).locks symbol' = holder :=
      Function.update_self ..
    rw [hsymbol]
    rcases hholder with rfl | rfl
    · exact pending_of_none hlock
    · rw [pending_of_some hlock, move_self, hs]
  · rw [← pending_move (p := p) (hs.trans hw.symm), pending, pending]
    have hlock : ({ p with locks := Function.update p.locks symbol holder }.move w s).locks symbol' =
      (p.move w s).locks symbol' := Function.update_of_ne hsame ..
    rw [hlock]
    rfl

/-- A worker moves on without a lock changing hands, and keeps what is pending for it. -/
theorem logged_of_move {symbol : Symbol} {done : List Op} (hdone : p.logged after symbol = done ++ p.pending symbol)
    {w : W} {s : Worker} (hhistory : p'.wal.history after = p.wal.history after) (hlocks : p'.locks = p.locks)
    (hworkers : p'.workers = (p.move w s).workers) (hs : s.pending = (p.workers w).pending) :
    p'.logged after symbol = done ++ p'.pending symbol := by
  have hpending : p'.pending symbol = p.pending symbol := by
    rw [← pending_move hs, pending, pending, hlocks, hworkers]
    rfl
  rw [logged, hhistory, hpending]
  exact hdone

/-- Applying is the only step that takes an operation off those that are logged and not applied. -/
theorem Recoverable.logged_step {a : PoolAction W} (hs : p.step a = some p') (htasks : p.AllTasks Task.Built)
    (h : p.Recoverable after env) (hother : ∀ w, a ≠ .apply w) (symbol : Symbol) (done : List Op)
    (hdone : p.logged after symbol = done ++ p.pending symbol) :
    p'.logged after symbol = done ++ p'.pending symbol := by
  cases steps hs with
  | submit task hlen => exact hdone
  | dequeue w task tasks hw ht => exact logged_of_move hdone (w := w) (s := .got task) rfl rfl rfl (by rw [hw]; rfl)
  | getOrderBook w task hw => exact logged_of_move hdone (w := w) (s := .found task) rfl rfl rfl (by rw [hw]; rfl)
  | lock w task hw hl =>
    exact hdone.trans (congrArg _ (pending_relock rfl (by rw [hw]; rfl) (pending_of_none hl) (.inr rfl) symbol).symm)
  | log w entry net task hw =>
    have hholds : (p.workers w).holds = some task.symbol := by rw [hw]; rfl
    have hlock : p.locks task.symbol = some w := (h.locks w _).2 hholds
    have hlogged : opsOf symbol ((p.wal.enqueue (entry.ofRequest net task.request)).history after) = _ :=
      opsOf_log p.wal (htasks.taken w task (by rw [hw]; rfl)) entry net symbol
    refine hlogged.trans ?_
    by_cases hsymbol : symbol = task.symbol
    · subst hsymbol
      have hbefore : p.pending task.symbol = [] := by rw [pending_of_some hlock, hw]; rfl
      have hafter : (p.move w (.logged task)).pending task.symbol = [task.request.anonymous.op] := by
        rw [pending_of_some (p := p.move w (.logged task)) hlock, move_self]
        rfl
      rw [hbefore, List.append_nil] at hdone
      rw [if_pos rfl]
      exact congrArg₂ (· ++ ·) hdone hafter.symm
    · rw [if_neg hsymbol, List.append_nil]
      exact hdone.trans (congrArg _ (h.pending_of_ne hholds hsymbol (s := .logged task)).symm)
  | apply w task book hw hb => exact absurd rfl (hother w)
  | unlock w task result hw =>
    have hlock : p.locks task.symbol = some w := (h.locks w _).2 (by rw [hw]; rfl)
    have hnone : p.pending task.symbol = [] := by rw [pending_of_some hlock, hw]; rfl
    exact hdone.trans (congrArg _ (pending_relock rfl (by rw [hw]; rfl) hnone (.inl rfl) symbol).symm)
  | logFill w entry fill fills reports trades hw =>
    have hhistory : (p.wal.enqueue (entry.ofFill fill)).history after = p.wal.history after := by
      rw [WAL.history_enqueue, WALEntry.request_ofFill, Option.toList_none, List.append_nil]
    exact logged_of_move hdone (w := w) (s := .finishing fills reports trades) hhistory rfl rfl (by rw [hw]; rfl)
  | publishReport w report reports trades hw =>
    exact logged_of_move hdone (w := w) (s := .finishing [] reports trades) rfl rfl rfl (by rw [hw]; rfl)
  | publishTrade w fill trades hw =>
    exact logged_of_move hdone (w := w) (s := .finishing [] [] trades) rfl rfl rfl (by rw [hw]; rfl)
  | finish w hw => exact logged_of_move hdone (w := w) (s := .idle) rfl rfl rfl (by rw [hw]; rfl)
  | flush wal hf =>
    obtain ⟨-, hentries⟩ := h.whole.flush hf
    have hhistory : wal.history after = p.wal.history after := by rw [WAL.history, hentries, WAL.history]
    exact (congrArg (opsOf symbol) hhistory).trans hdone

/-- A worker logs the next of its fills. -/
theorem Taped.logFill (h : p.Taped after env) {w : W} {fill : Fill} {fills : List Fill} {reports : List ExecutionReport}
    {trades : List Fill} (hw : p.workers w = .finishing (fill :: fills) reports trades) (entry : WALEntry)
    (hp : p' = { p with wal := p.wal.enqueue (entry.ofFill fill) }.move w (.finishing fills reports trades))
    (hops : ∀ symbol done, p.logged after symbol = done ++ p.pending symbol →
      p'.logged after symbol = done ++ p'.pending symbol) : p'.Taped after env := by
  obtain ⟨rs, hcounter, happlied⟩ := h.applied
  have henv : p'.env = p.env := by rw [hp]; rfl
  have hentries : p'.wal.entries = p.wal.entries ++ [entry.ofFill fill] := by
    rw [hp]
    exact WAL.entries_enqueue ..
  have hids : p'.wal.tradeIds = p.wal.tradeIds ++ [fill.tradeId] := by
    rw [hp]
    refine (WAL.tradeIds_enqueue ..).trans ?_
    rw [WALEntry.tradeId_ofFill, Option.toList_some]
  have hfirst : fill ∈ (p.workers w).heldFills := by
    rw [hw]
    exact List.mem_cons_self ..
  have hless : ∀ w', (p'.workers w').heldFills.Sublist (p.workers w').heldFills := by
    intro w'
    rw [hp]
    by_cases hsame : w' = w
    · rw [hsame, move_self, hw]
      exact List.sublist_cons_self ..
    · rw [move_of_ne hsame]
  refine ⟨⟨rs, by rw [henv, hcounter], fun symbol => hops symbol _ (happlied symbol)⟩, ?_, ?_, ?_, ?_, ?_, ?_⟩
  · rw [hentries]
    refine h.prior.snoc fun id hid => ?_
    rw [WALEntry.tradeId_ofFill] at hid
    cases hid
    exact Nat.le_of_lt_succ ((h.held w fill hfirst).1.trans_le h.counter_le)
  · rw [hids, List.nodup_append]
    refine ⟨h.nodup, List.nodup_singleton _, ?_⟩
    rintro id hid _ hmem rfl
    rw [List.mem_singleton.1 hmem] at hid
    exact (h.held w fill hfirst).2 hid
  · rw [hids, henv]
    intro id hid
    rcases List.mem_append.1 hid with hid | hid
    · exact h.below id hid
    · rw [List.mem_singleton.1 hid]
      exact (h.held w fill hfirst).1
  · intro w' fill' hmem
    obtain ⟨hlt, hnot⟩ := h.held w' fill' ((hless w').subset hmem)
    rw [hids, henv, List.mem_append, List.mem_singleton]
    refine ⟨hlt, ?_⟩
    rintro (hid | hid)
    · exact hnot hid
    · -- another fill has another id, of this worker or of another one
      by_cases hsame : w' = w
      · subst hsame
        rw [hp, move_self] at hmem
        have honce := h.once w'
        rw [hw] at honce
        exact (List.nodup_cons.1 honce).1 (List.mem_map.2 ⟨fill', hmem, hid⟩)
      · exact h.apart w' w hsame fill' ((hless w').subset hmem) fill hfirst hid
  · intro w'
    exact (h.once w').sublist ((hless w').map _)
  · intro w₁ w₂ hne fill₁ h₁ fill₂ h₂
    exact h.apart w₁ w₂ hne fill₁ ((hless w₁).subset h₁) fill₂ ((hless w₂).subset h₂)

omit [DecidableEq W] in
/-- A book makes of an operation as many fills as a replay of what was applied before. -/
theorem Recoverable.length_fills (h : p.Recoverable after env) {task : Task} (htask : task.Built) {book : OrderBook}
    (hb : p.registry task.symbol = some book) {rs : List Request}
    (hrs : ∀ symbol, p.logged after symbol = opsOf symbol rs ++ p.pending symbol) :
    (book.apply task.request.op p.env).result.fills.length = fillCount env rs task.request.anonymous := by
  obtain ⟨done, hdone, hbook⟩ := h.books task.symbol
  have hsame : done = opsOf task.symbol rs := List.append_cancel_right (hdone.symm.trans (hrs task.symbol))
  have hsymbol : task.request.anonymous.symbol = task.symbol := by rw [Request.anonymous_symbol, htask.2]
  rw [fillCount, hsymbol, ← hsame, Request.anonymous_op]
  exact (hbook book hb).length_fills task.request.op.anonymous_anonymous.symm p.env env

/-- Applying takes the operation off those that are pending. -/
theorem Recoverable.logged_apply (h : p.Recoverable after env) {w : W} {task : Task} (hw : p.workers w = .logged task)
    (htask : task.Built) (result : MatchResult) (hwal : p'.wal = p.wal) (hlocks : p'.locks = p.locks)
    (hworkers : p'.workers = (p.move w (.applied task result)).workers) {rs : List Request}
    (hrs : ∀ symbol, p.logged after symbol = opsOf symbol rs ++ p.pending symbol) (symbol : Symbol) :
    p'.logged after symbol = opsOf symbol (rs ++ [task.request.anonymous]) ++ p'.pending symbol := by
  have hholds : (p.workers w).holds = some task.symbol := by rw [hw]; rfl
  have hlock : p.locks task.symbol = some w := (h.locks w _).2 hholds
  have hsymbol : task.request.anonymous.symbol = task.symbol := by rw [Request.anonymous_symbol, htask.2]
  have hpending : p'.pending symbol = (p.move w (.applied task result)).pending symbol := by
    rw [pending, pending, hlocks, hworkers]
    rfl
  rw [hpending, logged, hwal, opsOf_append]
  refine (hrs symbol).trans ?_
  by_cases hs : symbol = task.symbol
  · subst hs
    have hbefore : p.pending task.symbol = [task.request.anonymous.op] := by rw [pending_of_some hlock, hw]; rfl
    have hafter : (p.move w (.applied task result)).pending task.symbol = [] := by
      rw [pending_of_some (p := p.move w (.applied task result)) hlock, move_self]
      rfl
    rw [hbefore, hafter, List.append_nil, ← hsymbol, opsOf_singleton_self]
  · have hother : opsOf symbol [task.request.anonymous] = [] :=
      opsOf_singleton_of_ne fun heq => hs (heq.symm.trans hsymbol)
    rw [h.pending_of_ne hholds hs, hother, List.append_nil]

/-- A worker applies the operation it has logged: its fills take the next ids. -/
theorem Taped.apply (h : p.Taped after env) (hrec : p.Recoverable after env) {w : W} {task : Task} {book : OrderBook}
    (hw : p.workers w = .logged task) (htask : task.Built) (hb : p.registry task.symbol = some book)
    (hroom : p.wal.entries.length + 1 < 2 ^ 64)
    (hp : p' = { p with
      registry := p.registry.set task.symbol (book.apply task.request.op p.env).book
      env := (book.apply task.request.op p.env).env }.move w
        (.applied task (book.apply task.request.op p.env).result)) : p'.Taped after env := by
  obtain ⟨rs, hcounter, happlied⟩ := h.applied
  obtain ⟨hids, hafter⟩ := book.apply_ids task.request.op p.env
  generalize hresult : (book.apply task.request.op p.env).result = result at hids hafter hp
  have hcount : result.fills.length = fillCount env rs task.request.anonymous := by
    rw [← hresult]
    exact hrec.length_fills htask hb happlied
  have hwal : p'.wal = p.wal := by rw [hp]; rfl
  have hworkers : p'.workers = (p.move w (.applied task result)).workers := by rw [hp]; rfl
  have hops := hrec.logged_apply hw htask result hwal (by rw [hp]; rfl) hworkers happlied
  -- the trades so far are no more than the log has entries, so the counter does not wrap
  have htotal : fillTotal env rs + result.fills.length ≤ p.wal.entries.length := by
    rw [hcount, ← fillTotal_snoc]
    refine (fillTotal_mono env fun symbol => ?_).trans (fillTotal_history_le after env p.wal)
    have hlogged := hops symbol
    rw [logged, hwal] at hlogged
    rw [hlogged]
    exact List.prefix_append ..
  have hnext : p'.env.counter.toNat = p.env.counter.toNat + result.fills.length := by
    have henv : p'.env.counter = (book.apply task.request.op p.env).env.counter := by rw [hp]; rfl
    rw [henv, hafter, toNat_after _ (by omega)]
  have hnumbers : (result.fills.map Fill.tradeId).map UInt64.toNat =
      List.range' p.env.counter.toNat result.fills.length := by
    rw [hids, toNat_ids _ (by omega)]
  have hnew : ∀ fill ∈ result.fills, p.env.counter.toNat ≤ fill.tradeId.toNat ∧
      fill.tradeId.toNat < p'.env.counter.toNat := by
    intro fill hfill
    have hmem : fill.tradeId.toNat ∈ List.range' p.env.counter.toNat result.fills.length := by
      rw [← hnumbers]
      exact List.mem_map_of_mem (List.mem_map_of_mem hfill)
    rw [List.mem_range'_1] at hmem
    omega
  have hself : (p'.workers w).heldFills = result.fills := by
    rw [hworkers, move_self]
    rfl
  have hother : ∀ w', w' ≠ w → (p'.workers w').heldFills = (p.workers w').heldFills := by
    intro w' hne
    rw [hworkers, move_of_ne hne]
  refine ⟨⟨rs ++ [task.request.anonymous], ?_, hops⟩, ?_, ?_, ?_, ?_, ?_, ?_⟩
  · rw [hnext, hcounter, fillTotal_snoc, hcount]
    omega
  · rw [hwal]
    exact h.prior
  · rw [hwal]
    exact h.nodup
  · rw [hwal]
    intro id hid
    have hlt := h.below id hid
    omega
  · intro w' fill hfill
    rw [hwal]
    by_cases hsame : w' = w
    · subst hsame
      rw [hself] at hfill
      refine ⟨(hnew fill hfill).2, fun hid => ?_⟩
      exact Nat.not_lt.2 (hnew fill hfill).1 (h.below _ hid)
    · rw [hother w' hsame] at hfill
      obtain ⟨hlt, hnot⟩ := h.held w' fill hfill
      exact ⟨by omega, hnot⟩
  · intro w'
    by_cases hsame : w' = w
    · subst hsame
      rw [hself]
      refine List.Nodup.of_map UInt64.toNat ?_
      rw [hnumbers]
      exact List.nodup_range'
    · rw [hother w' hsame]
      exact h.once w'
  · have hfresh : ∀ w', w' ≠ w → ∀ old ∈ (p.workers w').heldFills, ∀ fill ∈ result.fills, old.tradeId ≠ fill.tradeId := by
      intro w' _ old hold fill hfill heq
      have hlt := (h.held w' old hold).1
      have hge := (hnew fill hfill).1
      rw [heq] at hlt
      omega
    intro w₁ w₂ hne fill₁ h₁ fill₂ h₂
    by_cases h₁w : w₁ = w
    · subst h₁w
      rw [hself] at h₁
      rw [hother w₂ hne.symm] at h₂
      exact (hfresh w₂ hne.symm fill₂ h₂ fill₁ h₁).symm
    · rw [hother w₁ h₁w] at h₁
      by_cases h₂w : w₂ = w
      · subst h₂w
        rw [hself] at h₂
        exact hfresh w₁ hne fill₁ h₁ fill₂ h₂
      · rw [hother w₂ h₂w] at h₂
        exact h.apart w₁ w₂ hne fill₁ h₁ fill₂ h₂

theorem Taped.step {a : PoolAction W} (hs : p.step a = some p') (htasks : p.AllTasks Task.Built)
    (hrec : p.Recoverable after env) (hroom : p.wal.entries.length + 1 < 2 ^ 64) (h : p.Taped after env) :
    p'.Taped after env := by
  have hops := fun hother => hrec.logged_step hs htasks hother
  cases steps hs with
  | submit task hlen => exact h.quiet rfl h.prior rfl (fun _ => rfl) (hops (by rintro _ ⟨⟩))
  | dequeue w task tasks hw ht =>
    exact h.quiet rfl h.prior rfl (move_view Worker.heldFills (by rw [hw]; rfl)) (hops (by rintro _ ⟨⟩))
  | getOrderBook w task hw =>
    exact h.quiet rfl h.prior rfl (move_view Worker.heldFills (by rw [hw]; rfl)) (hops (by rintro _ ⟨⟩))
  | lock w task hw hl =>
    exact h.quiet rfl h.prior rfl (move_view Worker.heldFills (by rw [hw]; rfl)) (hops (by rintro _ ⟨⟩))
  | log w entry net task hw =>
    have hnone : ∀ {id}, (entry.ofRequest net task.request).tradeId ≠ some id := by
      intro id
      rw [WALEntry.tradeId_ofRequest]
      exact (Option.some_ne_none _).symm
    refine h.quiet rfl ?_ ?_ (move_view Worker.heldFills (by rw [hw]; rfl)) (hops (by rintro _ ⟨⟩))
    · show WAL.Prior after env (p.wal.enqueue (entry.ofRequest net task.request)).entries
      rw [WAL.entries_enqueue]
      exact h.prior.snoc fun id hid => absurd hid hnone
    · refine (WAL.tradeIds_enqueue p.wal _).trans ?_
      rw [WALEntry.tradeId_ofRequest, Option.toList_none, List.append_nil]
  | apply w task book hw hb => exact h.apply hrec hw (htasks.taken w task (by rw [hw]; rfl)) hb hroom rfl
  | unlock w task result hw =>
    exact h.quiet rfl h.prior rfl (move_view Worker.heldFills (by rw [hw]; rfl)) (hops (by rintro _ ⟨⟩))
  | logFill w entry fill fills reports trades hw => exact h.logFill hw entry rfl (hops (by rintro _ ⟨⟩))
  | publishReport w report reports trades hw =>
    exact h.quiet rfl h.prior rfl (move_view Worker.heldFills (by rw [hw]; rfl)) (hops (by rintro _ ⟨⟩))
  | publishTrade w fill trades hw =>
    exact h.quiet rfl h.prior rfl (move_view Worker.heldFills (by rw [hw]; rfl)) (hops (by rintro _ ⟨⟩))
  | finish w hw =>
    exact h.quiet rfl h.prior rfl (move_view Worker.heldFills (by rw [hw]; rfl)) (hops (by rintro _ ⟨⟩))
  | flush wal hf =>
    obtain ⟨-, hentries⟩ := hrec.whole.flush hf
    refine h.quiet rfl ?_ ?_ (fun _ => rfl) (hops (by rintro _ ⟨⟩))
    · show WAL.Prior after env wal.entries
      rw [hentries]
      exact h.prior
    · show wal.tradeIds = p.wal.tradeIds
      rw [WAL.tradeIds, hentries, WAL.tradeIds]

/-! ## Any number of lives -/

/-- The counter of a new life is behind the trades of the log. -/
theorem replay_counter (after file : List UInt8) (env env' : Env) (hroom : (WAL.start file).entries.length + 1 < 2 ^ 64) :
    (ReplayEngine.replay after file .empty env).env.counter.toNat =
      fillTotal env' ((WAL.start file).history after) + 1 := by
  have hle := fillTotal_history_le after env' (WAL.start file)
  have htotal := fillTotal_congr { env with counter := 1 } env' ((WAL.start file).history after)
  have hone : (1 : UInt64).toNat = 1 := rfl
  unfold fillTotal at htotal hle
  rw [replay_eq_foldl, ReplayEngine.foldl_counter, htotal, toNat_after _ (by rw [hone]; omega), hone, Nat.add_comm]
  rfl

omit [DecidableEq W] in
theorem restart_taped (after : List UInt8) {file : List UInt8} (env env' : Env)
    (hnodup : (WAL.start file).tradeIds.Nodup) (hprior : WAL.Prior after env' (WAL.start file).entries)
    (hroom : (WAL.start file).entries.length + 1 < 2 ^ 64) : (restart W after file env).Taped after env' where
  applied := ⟨(WAL.start file).history after, replay_counter after file env env' hroom, fun _ => (List.append_nil _).symm⟩
  prior := hprior
  nodup := hnodup
  below id hid := by
    have hcounter := replay_counter after file env env' hroom
    have hle := hprior.le hid
    show id.toNat < (ReplayEngine.replay after file .empty env).env.counter.toNat
    rw [hcounter]
    exact Nat.lt_succ_of_le hle
  held := by rintro w fill ⟨⟩
  once w := List.nodup_nil
  apart := by rintro w w' _ fill ⟨⟩

/-- No step takes an entry out of the log. -/
theorem entries_step {a : PoolAction W} (hs : p.step a = some p') (hwhole : p.wal.Whole) :
    p.wal.entries.length ≤ p'.wal.entries.length := by
  have henqueue : ∀ entry, p.wal.entries.length ≤ (p.wal.enqueue entry).entries.length := by
    intro entry
    rw [WAL.entries_enqueue, List.length_append]
    exact Nat.le_add_right ..
  cases steps hs with
  | log w entry net task hw => exact henqueue _
  | logFill w entry fill fills reports trades hw => exact henqueue _
  | flush wal hf =>
    obtain ⟨-, hentries⟩ := hwhole.flush hf
    exact Nat.le_of_eq (congrArg List.length hentries).symm
  | _ => exact Nat.le_refl _

/-- What a life needs of the file it starts on: whole entries, and among them trade ids that are distinct and not ahead of
their trades. -/
structure Sound (after : List UInt8) (env : Env) (file : List UInt8) : Prop where
  whole : ∃ written : List WALEntry, file = written.flatMap WALEntry.packed.put
  nodup : (WAL.start file).tradeIds.Nodup
  prior : WAL.Prior after env (WAL.start file).entries

/-- In every state of a life the books, the log and the trade ids belong together. -/
theorem Sound.run {file : List UInt8} (h : Sound after env file) {env' : Env} {actions : List (PoolAction W)}
    (hbuilt : ∀ a ∈ actions, a.Built) (hrun : Machine.run step (restart W after file env') actions = some p) :
    p.Recoverable after env ∧ (p.wal.entries.length + 1 < 2 ^ 64 → p.Taped after env) := by
  let P (s : ThreadPool W) : Prop := s.AllTasks Task.Built ∧ s.Recoverable after env ∧
    (s.wal.entries.length + 1 < 2 ^ 64 → s.Taped after env)
  have hstep : ∀ s a s', a.Built → s.step a = some s' → P s → P s' := by
    rintro s a s' ha hs ⟨htasks, hrec, htaped⟩
    refine ⟨htasks.step hs ?_, hrec.step hs htasks, fun hroom => ?_⟩
    · rintro task rfl
      exact ha
    · have hbefore : s.wal.entries.length + 1 < 2 ^ 64 := by
        have hle := entries_step hs hrec.whole
        omega
      exact (htaped hbefore).step hs htasks hrec hbefore
  have hstart : P (restart W after file env') :=
    ⟨restart_allTasks .., restart_recoverable after env' env h.whole, restart_taped after env' env h.nodup h.prior⟩
  exact (Machine.run_invariant hstep actions _ p hbuilt hrun hstart).2

end ThreadPool

/-- Of a log that is cut off between two records, whole entries are left. -/
theorem WAL.Whole.cut {wal : WAL} (h : wal.Whole) {cut : List UInt8} (hcut : cut <+: wal.file)
    (hlen : cut.length % WALEntry.packed.size = 0) : ∃ written : List WALEntry, cut = written.flatMap WALEntry.packed.put := by
  obtain ⟨written, hfile⟩ := h
  rw [hfile] at hcut
  refine ⟨written.take (cut.length / WALEntry.packed.size), ?_⟩
  have hnone := (WALEntry.packed.length_cut_rest cut).trans hlen
  have heq := WALEntry.packed.cut_eq (by decide) written hcut
  rwa [List.length_eq_zero_iff.1 hnone, List.append_nil] at heq

/-- Of a log that is cut off, the first entries are left. -/
theorem WAL.Whole.entries_cut {wal : WAL} (h : wal.Whole) {cut : List UInt8} (hcut : cut <+: wal.file) :
    (WAL.start cut).entries <+: wal.entries := by
  have hstart : (WAL.start cut).entries = WALEntry.packed.records cut := List.append_nil _
  rw [hstart, h.records_cut hcut]
  exact List.take_prefix ..

namespace ThreadPool

variable {W : Type u} {after : List UInt8} {env : Env} {p p' : ThreadPool W}

/-- What a crash between two records leaves is a file to start on again. -/
theorem Taped.cut (h : p.Taped after env) (hwhole : p.wal.Whole) {cut : List UInt8} (hcut : cut <+: p.wal.file)
    (hlen : cut.length % WALEntry.packed.size = 0) : Sound after env cut := by
  have hentries := hwhole.entries_cut hcut
  exact ⟨hwhole.cut hcut hlen, h.nodup.sublist (hentries.sublist.filterMap _), h.prior.of_prefix hentries⟩

variable [DecidableEq W]

/-- The files that lives can leave behind. A life starts on the file of the one before, goes through any run of the pool,
and ends anywhere where `room` holds, with any number of whole records in the file. -/
inductive Left (W : Type u) [DecidableEq W] (after : List UInt8) (room : ThreadPool W → Prop) : List UInt8 → Prop
  | new : Left W after room []
  | life {file : List UInt8} (hfile : Left W after room file) (env : Env) (actions : List (PoolAction W))
    (p : ThreadPool W) (hbuilt : ∀ a ∈ actions, a.Built)
    (hrun : Machine.run step (restart W after file env) actions = some p) (hroom : room p) (cut : List UInt8)
    (hcut : cut <+: p.wal.file) (hlen : cut.length % WALEntry.packed.size = 0) : Left W after room cut

omit [DecidableEq W] in
/-- The log has room for one trade id more. -/
def HasRoom (p : ThreadPool W) : Prop := p.wal.entries.length + 1 < 2 ^ 64

theorem Left.whole {room : ThreadPool W → Prop} {file : List UInt8} (h : Left W after room file) (env : Env) :
    ∃ written : List WALEntry, file = written.flatMap WALEntry.packed.put := by
  induction h with
  | new => exact ⟨[], rfl⟩
  | life hfile env' actions p hbuilt hrun hroom cut hcut hlen ih =>
    exact ((restart_recoverable after env' env ih).run (restart_allTasks ..) hbuilt hrun).whole.cut hcut hlen

theorem Left.sound {file : List UInt8} (h : Left W after HasRoom file) (env : Env) : Sound after env file := by
  induction h with
  | new =>
    refine ⟨⟨[], rfl⟩, List.nodup_nil, ?_⟩
    intro before entry later heq
    exact absurd heq.symm (List.append_ne_nil_of_right_ne_nil _ (List.cons_ne_nil _ _))
  | life hfile env' actions p hbuilt hrun hroom cut hcut hlen ih =>
    obtain ⟨hrec, htaped⟩ := ih.run hbuilt hrun
    exact (htaped hroom).cut hrec.whole hcut hlen

/-- Over any number of lives, each started by a replay of what the one before has left and ended by a crash between two
records or by a clean stop, the log recovers the books: whenever the workers of a life have finished and the log is
written, a replay of the whole file gives the books of that life, up to client ids. -/
theorem lives_recovered (after file : List UInt8) (hfile : Left W after (fun _ => True) file) (env env' : Env)
    (actions : List (PoolAction W)) (p : ThreadPool W) (hbuilt : ∀ a ∈ actions, a.Built)
    (hrun : Machine.run step (restart W after file env) actions = some p) (hdrained : p.Drained) (symbol : Symbol) :
    Option.Rel (fun b b' => SameBook b.toBookState b'.toBookState) (p.registry symbol)
      ((ReplayEngine.replay after p.wal.file .empty env').registry symbol) :=
  ((restart_recoverable after env env (hfile.whole env)).run (restart_allTasks ..) hbuilt hrun).recovered hdrained env'
    symbol

instance (s : Worker) : Decidable (s = .idle) :=
  match s with
  | .idle => .isTrue rfl
  | .got _ | .found _ | .locked _ | .logged _ | .applied _ _ | .finishing _ _ _ => .isFalse Worker.noConfusion

instance [Fintype W] (p : ThreadPool W) : Decidable p.Drained :=
  inferInstanceAs (Decidable ((∀ w, p.workers w = .idle) ∧ p.wal.queue = []))

/-- One worker on one task: a buy that trades with what is left of the sell of an earlier life. -/
def resumed : List (PoolAction Bool) :=
  let entry : WALEntry := ⟨7, .replicate 52 255⟩
  let net : NetOrder := ⟨0, .replicate 8 255, 0, 0, 0, 0, 0⟩
  let buy : Order := { orderId := 5, symbol := [65], price := 10, quantity := 1, remainingQuantity := 1, clientId := 9 }
  [.submit ⟨.submit buy, [65]⟩, .dequeue true, .getOrderBook true, .lock true, .log true entry net, .apply true,
    .unlock true, .logFill true entry, .publishReport true, .publishReport true, .publishTrade true, .finish true, .flush,
    .flush]

/-- Two lives, the first of which ends after four records. -/
def twoLives : Option (ThreadPool Bool × ThreadPool Bool) :=
  (Machine.run step (restart Bool [] [] ⟨1, fun _ => 0, 0⟩) interleaved).bind fun p =>
    (Machine.run step (restart Bool [] p.wal.file ⟨1, fun _ => 0, 0⟩) resumed).map fun p' => (p, p')

theorem twoLives_left {p p' : ThreadPool Bool} (h : twoLives = some (p, p')) (hlen : p.wal.file.length = 212)
    (room : ThreadPool Bool → Prop) (hroom : room p) : Left Bool [] room p.wal.file ∧
      Machine.run step (restart Bool [] p.wal.file ⟨1, fun _ => 0, 0⟩) resumed = some p' := by
  obtain ⟨q, hrun, hq⟩ := Option.bind_eq_some_iff.1 h
  obtain ⟨q', hrun', hq'⟩ := Option.map_eq_some_iff.1 hq
  cases hq'
  refine ⟨?_, hrun'⟩
  exact .life .new ⟨1, fun _ => 0, 0⟩ interleaved p (by decide) hrun hroom p.wal.file (List.prefix_refl _)
    (by rw [hlen]; decide)

theorem lives_recovered_resumed : ∃ p p', twoLives = some (p, p') ∧ Left Bool [] (fun _ => True) p.wal.file ∧ p'.Drained ∧
    ∀ symbol, Option.Rel (fun b b' => SameBook b.toBookState b'.toBookState) (p'.registry symbol)
      ((ReplayEngine.replay [] p'.wal.file .empty ⟨9, fun _ => 5, 0⟩).registry symbol) := by
  have hlives : twoLives.any fun q => q.1.wal.file.length = 212 ∧ q.2.Drained := by decide +kernel
  obtain ⟨⟨p, p'⟩, h, hp⟩ := (Option.any_eq_true _ _).1 hlives
  obtain ⟨hlen, hdrained⟩ := of_decide_eq_true hp
  obtain ⟨hleft, hrun⟩ := twoLives_left h hlen (fun _ => True) trivial
  exact ⟨p, p', h, hleft, hdrained, lives_recovered [] p.wal.file hleft ⟨1, fun _ => 0, 0⟩ ⟨9, fun _ => 5, 0⟩ resumed p'
    (by decide) hrun hdrained⟩

/-- Over any number of such lives the trade ids in the log are distinct and below the counter, and whatever a crash leaves
of the log, torn records included, a replay of it brings the counter past every trade id in it. -/
theorem lives_trade_ids (after file : List UInt8) (hfile : Left W after HasRoom file) (env : Env)
    (actions : List (PoolAction W)) (p : ThreadPool W) (hbuilt : ∀ a ∈ actions, a.Built)
    (hrun : Machine.run step (restart W after file env) actions = some p) (hroom : p.HasRoom) :
    p.wal.tradeIds.Nodup ∧ (∀ id ∈ p.wal.tradeIds, id < p.env.counter) ∧
      ∀ cut, cut <+: p.wal.file → ∀ env', ∀ id ∈ (WAL.start cut).tradeIds,
        id < (ReplayEngine.replay after cut .empty env').env.counter := by
  obtain ⟨hrec, htaped⟩ := (hfile.sound env).run hbuilt hrun
  have h := htaped hroom
  refine ⟨h.nodup, fun id hid => UInt64.lt_iff_toNat_lt.2 (h.below id hid), fun cut hcut env' id hid => ?_⟩
  have hentries := hrec.whole.entries_cut hcut
  have hle := (h.prior.of_prefix hentries).le hid
  have hcutRoom : (WAL.start cut).entries.length + 1 < 2 ^ 64 :=
    (Nat.succ_le_succ hentries.length_le).trans_lt hroom
  have hcounter := replay_counter after cut env' env hcutRoom
  rw [UInt64.lt_iff_toNat_lt, hcounter]
  exact Nat.lt_succ_of_le hle

/-- The trade of the second life does not take the id of the first. -/
theorem lives_trade_ids_resumed : ∃ p p', twoLives = some (p, p') ∧ p'.wal.tradeIds = [1, 2] ∧ p'.wal.tradeIds.Nodup ∧
    ∀ id ∈ (WAL.start (p'.wal.file.take 300)).tradeIds,
      id < (ReplayEngine.replay [] (p'.wal.file.take 300) .empty ⟨9, fun _ => 5, 0⟩).env.counter := by
  have hlives : twoLives.any fun q => q.1.wal.file.length = 212 ∧ q.1.wal.entries.length = 4 ∧
      q.2.wal.entries.length = 6 ∧ q.2.wal.tradeIds = [1, 2] := by decide +kernel
  obtain ⟨⟨p, p'⟩, h, hp⟩ := (Option.any_eq_true _ _).1 hlives
  obtain ⟨hlen, hentries, hentries', hids⟩ := of_decide_eq_true hp
  have hroom : p.HasRoom := by
    rw [HasRoom, hentries]
    decide
  have hroom' : p'.HasRoom := by
    rw [HasRoom, hentries']
    decide
  obtain ⟨hleft, hrun⟩ := twoLives_left h hlen HasRoom hroom
  obtain ⟨hnodup, -, hcut⟩ := lives_trade_ids [] p.wal.file hleft ⟨1, fun _ => 0, 0⟩ resumed p' (by decide) hrun hroom'
  exact ⟨p, p', h, hids, hnodup, hcut _ (List.take_prefix ..) ⟨9, fun _ => 5, 0⟩⟩

end ThreadPool

end StockExchange
