/-
The log against the history of a run. Every entry is the request of one accepted task or a fill, and the
task of every number that is past the log has its entry there. The requests of a symbol stand in the log in
the order in which their tasks took the lock of its book.
-/
import StockExchange.Threadpool.History
import StockExchange.Threadpool.Recovery

universe u

namespace StockExchange

/-- The task for which the worker has the lock and that it has not logged yet. -/
def Worker.unlogged : Worker → List Task
  | .locked task => [task]
  | _ => []

namespace ThreadPool

variable {W : Type u}

/-- The task that has the lock of a book and is not in the log yet. -/
def unlogged (p : ThreadPool W) (symbol : Symbol) : List Task :=
  match p.locks symbol with
  | some w => (p.workers w).unlogged
  | none => []

variable {p : ThreadPool W}

theorem unlogged_of_some {symbol : Symbol} {w : W} (h : p.locks symbol = some w) :
    p.unlogged symbol = (p.workers w).unlogged := by rw [unlogged, h]

theorem unlogged_of_none {symbol : Symbol} (h : p.locks symbol = none) : p.unlogged symbol = [] := by rw [unlogged, h]

/-- A symbol whose lock is with the same worker before and after, in the same place of its loop. -/
theorem unlogged_congr {p' : ThreadPool W} {symbol : Symbol} (hlocks : p'.locks symbol = p.locks symbol)
    (hworkers : ∀ w, p.locks symbol = some w → (p'.workers w).unlogged = (p.workers w).unlogged) :
    p'.unlogged symbol = p.unlogged symbol := by
  cases hl : p.locks symbol with
  | none => rw [unlogged_of_none hl, unlogged_of_none (hlocks.trans hl)]
  | some w => rw [unlogged_of_some hl, unlogged_of_some (hlocks.trans hl), hworkers w hl]

end ThreadPool

namespace History

variable {W : Type u} {p p' : ThreadPool W} {h h' : History W}

/-! ## Entries -/

/-- The entry is the request of the task with the number, or a fill. -/
def EntryOf (h : History W) : Option ℕ → WALEntry → Prop
  | some i, e => ∃ task entry net, h.accepted[i]? = some task ∧ e = WALEntry.ofRequest entry net task.request
  | none, e => ∃ entry fill, e = WALEntry.ofFill entry fill

theorem EntryOf.mono (haccepted : h.accepted <+: h'.accepted) {i : Option ℕ} {e : WALEntry} (he : h.EntryOf i e) :
    h'.EntryOf i e := by
  cases i with
  | none => exact he
  | some i =>
    obtain ⟨task, entry, net, hi, rfl⟩ := he
    obtain ⟨later, hlater⟩ := haccepted
    refine ⟨task, entry, net, ?_, rfl⟩
    rw [← hlater, List.getElem?_append_left (List.getElem?_eq_some_iff.1 hi).1, hi]

/-- The log fits the history: it has an entry for every task that has been applied or that a worker is about to
apply. -/
structure Logged (p : ThreadPool W) (h : History W) : Prop where
  whole : p.wal.Whole
  entries : List.Forall₂ h.EntryOf h.logged p.wal.entries
  held : ∀ w, (p.workers w).pending ≠ [] → ∀ i ∈ h.tasks.hands w, some i ∈ h.logged
  done : ∀ i ∈ h.tasks.out, some i ∈ h.logged

theorem start_logged (env : Env) : Logged (.start W env) ({} : History W) where
  whole := ⟨[], rfl⟩
  entries := .nil
  held _ h := absurd rfl h
  done _ h := nomatch h

/-- Each applied task has its own entry in the log. -/
theorem Logged.entry (hl : Logged p h) {i : ℕ} (hi : i ∈ h.tasks.out) :
    ∃ (m : ℕ) (task : Task) (entry : WALEntry) (net : NetOrder), h.logged[m]? = some (some i) ∧
      h.accepted[i]? = some task ∧ p.wal.entries[m]? = some (entry.ofRequest net task.request) := by
  obtain ⟨m, hm, heq⟩ := List.mem_iff_getElem.1 (hl.done i hi)
  have hlen : m < p.wal.entries.length := hl.entries.length_eq ▸ hm
  have he : h.EntryOf h.logged[m] p.wal.entries[m] := hl.entries.get hm hlen
  rw [heq] at he
  obtain ⟨task, entry, net, hacc, he⟩ := he
  refine ⟨m, task, entry, net, ?_, hacc, ?_⟩
  · rw [List.getElem?_eq_getElem hm, heq]
  · rw [List.getElem?_eq_getElem hlen, he]

/-- A step that logs and applies nothing. -/
theorem Logged.of_same_log (hl : Logged p h) (haccepted : h.accepted <+: h'.accepted) (hlogged : h'.logged = h.logged)
    (hwhole : p'.wal.Whole) (hentries : p'.wal.entries = p.wal.entries) (hout : h'.tasks.out = h.tasks.out)
    (hheld : ∀ w, (p'.workers w).pending ≠ [] → (p.workers w).pending ≠ [] ∧ h'.tasks.hands w = h.tasks.hands w) :
    Logged p' h' := by
  refine ⟨hwhole, ?_, fun w hw i hi => ?_, fun i hi => ?_⟩
  · rw [hlogged, hentries]
    exact hl.entries.imp fun i e => EntryOf.mono haccepted
  · obtain ⟨hw, hhands⟩ := hheld w hw
    rw [hhands] at hi
    rw [hlogged]
    exact hl.held w hw i hi
  · rw [hout] at hi
    rw [hlogged]
    exact hl.done i hi

theorem Logged.of_same_pool (hl : Logged p h) (hworkers : p'.workers = p.workers) (hwal : p'.wal = p.wal) :
    Logged p' h := by
  refine hl.of_same_log (List.prefix_refl _) rfl (hwal ▸ hl.whole) (congrArg _ hwal) rfl fun w hw => ?_
  rw [hworkers] at hw
  exact ⟨hw, rfl⟩

variable [DecidableEq W]

/-- A worker moves on without logging or applying. -/
theorem Logged.quiet (hl : Logged p h) {w : W} {s : Worker} (haccepted : h'.accepted = h.accepted)
    (hlogged : h'.logged = h.logged) (hwal : p'.wal = p.wal) (hnumbers : h'.tasks = h.tasks)
    (hworkers : p'.workers = (p.move w s).workers) (hpending : s.pending = (p.workers w).pending) : Logged p' h' := by
  refine hl.of_same_log (haccepted ▸ List.prefix_refl _) hlogged (hwal ▸ hl.whole) (congrArg _ hwal)
    (congrArg _ hnumbers) fun w' hw' => ?_
  rw [hworkers, ThreadPool.move_view Worker.pending hpending] at hw'
  exact ⟨hw', by rw [hnumbers]⟩

theorem Logged.log (hl : Logged p h) (ha : Arrived p h) {w : W} {task : Task} (hw : p.workers w = .locked task)
    (entry : WALEntry) (net : NetOrder) :
    Logged ({ p with wal := p.wal.enqueue (entry.ofRequest net task.request) }.move w (.logged task))
      (h.record p (.log w entry net)) := by
  obtain ⟨i, hi, hacc⟩ := ha.busy w task (by rw [hw]; rfl)
  have hnumber : h.number w = some i := by
    rw [number, hi]
    rfl
  have hlogged : (h.record p (.log w entry net)).logged = h.logged ++ [some i] := by
    rw [← hnumber]
    rfl
  refine ⟨hl.whole, ?_, fun w' hw' k hk => ?_, fun k hk => ?_⟩
  · rw [hlogged]
    show List.Forall₂ _ _ (p.wal.enqueue _).entries
    rw [WAL.entries_enqueue]
    refine List.rel_append hl.entries (.cons ?_ .nil)
    exact ⟨task, entry, net, hacc, rfl⟩
  · rw [hlogged]
    by_cases hww : w' = w
    · subst hww
      replace hk : k ∈ h.tasks.hands w' := hk
      rw [hi, List.mem_singleton] at hk
      rw [hk]
      exact List.mem_append_right _ (List.mem_singleton_self _)
    · rw [ThreadPool.move_of_ne hww] at hw'
      exact List.mem_append_left _ (hl.held w' hw' k hk)
  · rw [hlogged]
    exact List.mem_append_left _ (hl.done k hk)

/-- The task that is applied has been logged under the same lock. -/
theorem Logged.apply (hl : Logged p h) (ha : Arrived p h) {w : W} {task : Task} (result : MatchResult)
    (hw : p.workers w = .logged task) (hwal : p'.wal = p.wal)
    (hworkers : p'.workers = (p.move w (.applied task result)).workers) : Logged p' (h.apply w task result) := by
  obtain ⟨i, hi, -⟩ := ha.busy w task (by rw [hw]; rfl)
  refine ⟨hwal ▸ hl.whole, ?_, fun w' hw' k hk => ?_, fun k hk => ?_⟩
  · rw [hwal]
    exact hl.entries
  · rw [hworkers] at hw'
    by_cases hww : w' = w
    · rw [hww, ThreadPool.move_self] at hw'
      exact absurd rfl hw'
    · rw [ThreadPool.move_of_ne hww] at hw'
      replace hk : k ∈ (h.tasks.pass w).hands w' := hk
      rw [Relay.pass_of_ne hww] at hk
      exact hl.held w' hw' k hk
  · replace hk : k ∈ (h.tasks.pass w).out := hk
    rw [Relay.pass_out hi, List.mem_append, List.mem_singleton] at hk
    rcases hk with hk | rfl
    · exact hl.done k hk
    · refine hl.held w ?_ k ?_
      · rw [hw]
        exact List.cons_ne_nil _ _
      · rw [hi]
        exact List.mem_singleton_self k

theorem Logged.step {a : PoolAction W} (hs : p.step a = some p') (ha : Arrived p h) (hl : Logged p h) :
    Logged p' (h.record p a) := by
  cases ThreadPool.steps hs with
  | submit task hlen =>
    exact hl.of_same_log (List.prefix_append _ _) rfl hl.whole rfl rfl fun w hw => ⟨hw, rfl⟩
  | dequeue w task tasks hw ht =>
    refine hl.of_same_log (List.prefix_refl _) rfl hl.whole rfl rfl fun w' hw' => ?_
    by_cases hww : w' = w
    · rw [hww, ThreadPool.move_self] at hw'
      exact absurd rfl hw'
    · rw [ThreadPool.move_of_ne hww] at hw'
      exact ⟨hw', Relay.enter_of_ne hww 1⟩
  | getOrderBook w task hw => exact hl.quiet (s := .found task) rfl rfl rfl rfl rfl (by rw [hw]; rfl)
  | lock w task hw _ => exact hl.quiet (s := .locked task) rfl rfl rfl rfl rfl (by rw [hw]; rfl)
  | log w entry net task hw => exact hl.log ha hw entry net
  | apply w task book hw hb =>
    rw [record_apply hw hb]
    exact hl.apply ha _ hw rfl rfl
  | unlock w task result hw =>
    exact hl.quiet (s := .finishing result.fills result.executionReports result.fills) rfl rfl rfl rfl rfl
      (by rw [hw]; rfl)
  | logFill w entry fill fills reports trades hw =>
    have hpending := ThreadPool.move_view (p := p) Worker.pending (s := .finishing fills reports trades)
      (w := w) (by rw [hw]; rfl)
    refine ⟨hl.whole, ?_, fun w' hw' i hi => ?_, fun i hi => ?_⟩
    · show List.Forall₂ _ (h.logged ++ [none]) (p.wal.enqueue _).entries
      rw [WAL.entries_enqueue]
      exact List.rel_append hl.entries (.cons ⟨entry, fill, rfl⟩ .nil)
    · replace hw' : ((p.move w (.finishing fills reports trades)).workers w').pending ≠ [] := hw'
      rw [hpending] at hw'
      exact List.mem_append_left _ (hl.held w' hw' i hi)
    · exact List.mem_append_left _ (hl.done i hi)
  | publishReport w report reports trades hw =>
    exact hl.quiet (s := .finishing [] reports trades) rfl rfl rfl rfl rfl (by rw [hw]; rfl)
  | publishTrade w fill trades hw => exact hl.quiet (s := .finishing [] [] trades) rfl rfl rfl rfl rfl (by rw [hw]; rfl)
  | finish w hw => exact hl.quiet (s := .idle) rfl rfl rfl rfl rfl (by rw [hw]; rfl)
  | flush wal hf =>
    obtain ⟨hwhole, hentries⟩ := hl.whole.flush hf
    exact hl.of_same_log (List.prefix_refl _) rfl hwhole hentries rfl fun w hw => ⟨hw, rfl⟩

/-! ## Once each -/

/-- No task is logged twice: its number is not in the log while a worker has it and has not logged it. -/
structure LoggedOnce (p : ThreadPool W) (h : History W) : Prop where
  nodup : (h.logged.filterMap id).Nodup
  below : ∀ i, some i ∈ h.logged → i < h.tasks.count
  waiting : ∀ w, (p.workers w).pending = [] → ∀ i ∈ h.tasks.hands w, some i ∉ h.logged

omit [DecidableEq W] in
theorem start_loggedOnce (env : Env) : LoggedOnce (.start W env) ({} : History W) where
  nodup := .nil
  below _ h := nomatch h
  waiting _ _ _ h := nomatch h

/-- A worker moves on without dequeuing, logging or applying. -/
theorem LoggedOnce.quiet (hl : LoggedOnce p h) {w : W} {s : Worker} (hlogged : h'.logged.filterMap id = h.logged.filterMap id)
    (hnumbers : h'.tasks = h.tasks) (hworkers : p'.workers = (p.move w s).workers)
    (hpending : s.pending = (p.workers w).pending) : LoggedOnce p' h' := by
  have hmem : ∀ i, some i ∈ h'.logged ↔ some i ∈ h.logged := by
    intro i
    have hiff : ∀ l : List (Option ℕ), some i ∈ l ↔ i ∈ l.filterMap id := by simp
    rw [hiff, hiff, hlogged]
  refine ⟨hlogged ▸ hl.nodup, fun i hi => ?_, fun w' hw' i hi => ?_⟩
  · rw [hnumbers]
    exact hl.below i ((hmem i).1 hi)
  · rw [hworkers, ThreadPool.move_view Worker.pending hpending] at hw'
    rw [hnumbers] at hi
    exact fun h => hl.waiting w' hw' i hi ((hmem i).1 h)

theorem LoggedOnce.dequeue (hl : LoggedOnce p h) {w : W} (tasks : List Task) (task : Task) :
    LoggedOnce ({ p with tasks := tasks }.move w (.got task)) { h with tasks := h.tasks.enter w 1 } where
  nodup := hl.nodup
  below i hi := Nat.lt_succ_of_lt (hl.below i hi)
  waiting w' hw' i hi hmem := by
    by_cases hww : w' = w
    · subst hww
      replace hi : i ∈ (h.tasks.enter w' 1).hands w' := hi
      rw [Relay.enter_self, List.range'_one, List.mem_singleton] at hi
      exact absurd (hl.below i hmem) (by omega)
    · rw [ThreadPool.move_of_ne hww] at hw'
      replace hi : i ∈ (h.tasks.enter w 1).hands w' := hi
      rw [Relay.enter_of_ne hww] at hi
      exact hl.waiting w' hw' i hi hmem

theorem LoggedOnce.log (hl : LoggedOnce p h) (ha : Arrived p h) {w : W} {task : Task} (hw : p.workers w = .locked task)
    (entry : WALEntry) (net : NetOrder) (wal : WAL) :
    LoggedOnce ({ p with wal := wal }.move w (.logged task)) (h.record p (.log w entry net)) := by
  obtain ⟨i, hi, -⟩ := ha.busy w task (by rw [hw]; rfl)
  have himem : i ∈ h.tasks.hands w := by
    rw [hi]
    exact List.mem_singleton_self i
  have hlogged : (h.record p (.log w entry net)).logged = h.logged ++ [some i] := by
    simp only [record, number, hi]
    rfl
  have hnew : some i ∉ h.logged := hl.waiting w (by rw [hw]; rfl) i himem
  refine ⟨?_, fun j hj => ?_, fun w' hw' j hj => ?_⟩
  · rw [hlogged, List.filterMap_append, List.nodup_append]
    refine ⟨hl.nodup, by simp, ?_⟩
    intro j hj k hk heq
    have hjmem : some j ∈ h.logged := by simpa using hj
    simp only [List.filterMap_cons, id_eq, List.filterMap_nil, List.mem_singleton] at hk
    rw [heq, hk] at hjmem
    exact hnew hjmem
  · rw [hlogged, List.mem_append, List.mem_singleton] at hj
    rcases hj with hj | hj
    · exact hl.below j hj
    · rw [Option.some.inj hj]
      exact ha.valid.lt himem
  · replace hj : j ∈ h.tasks.hands w' := hj
    by_cases hww : w' = w
    · rw [hww, ThreadPool.move_self] at hw'
      cases hw'
    · rw [ThreadPool.move_of_ne hww] at hw'
      rw [hlogged, List.mem_append, List.mem_singleton, not_or]
      refine ⟨hl.waiting w' hw' j hj, fun heq => ?_⟩
      rw [Option.some.inj heq] at hj
      exact hww (ha.valid.apart w' w i hj himem)

theorem LoggedOnce.apply (hl : LoggedOnce p h) (ha : Arrived p h) {w : W} {task : Task} (result : MatchResult)
    (hw : p.workers w = .logged task) (hworkers : p'.workers = (p.move w (.applied task result)).workers) :
    LoggedOnce p' (h.apply w task result) := by
  obtain ⟨i, hi, -⟩ := ha.busy w task (by rw [hw]; rfl)
  refine ⟨hl.nodup, hl.below, fun w' hw' j hj => ?_⟩
  replace hj : j ∈ (h.tasks.pass w).hands w' := hj
  rw [hworkers] at hw'
  by_cases hww : w' = w
  · subst hww
    rw [Relay.pass_self, hi] at hj
    cases hj
  · rw [ThreadPool.move_of_ne hww] at hw'
    rw [Relay.pass_of_ne hww] at hj
    exact hl.waiting w' hw' j hj

theorem LoggedOnce.step {a : PoolAction W} (hs : p.step a = some p') (ha : Arrived p h) (hl : LoggedOnce p h) :
    LoggedOnce p' (h.record p a) := by
  cases ThreadPool.steps hs with
  | submit task hlen => exact ⟨hl.nodup, hl.below, hl.waiting⟩
  | dequeue w task tasks hw ht => exact hl.dequeue tasks task
  | getOrderBook w task hw => exact hl.quiet (s := .found task) rfl rfl rfl (by rw [hw]; rfl)
  | lock w task hw _ => exact hl.quiet (s := .locked task) rfl rfl rfl (by rw [hw]; rfl)
  | log w entry net task hw => exact hl.log ha hw entry net _
  | apply w task book hw hb =>
    rw [record_apply hw hb]
    exact hl.apply ha _ hw rfl
  | unlock w task result hw =>
    exact hl.quiet (s := .finishing result.fills result.executionReports result.fills) rfl rfl rfl (by rw [hw]; rfl)
  | logFill w entry fill fills reports trades hw =>
    refine hl.quiet (s := .finishing fills reports trades) ?_ rfl rfl (by rw [hw]; rfl)
    show (h.logged ++ [none]).filterMap id = _
    simp
  | publishReport w report reports trades hw =>
    exact hl.quiet (s := .finishing [] reports trades) rfl rfl rfl (by rw [hw]; rfl)
  | publishTrade w fill trades hw => exact hl.quiet (s := .finishing [] [] trades) rfl rfl rfl (by rw [hw]; rfl)
  | finish w hw => exact hl.quiet (s := .idle) rfl rfl rfl (by rw [hw]; rfl)
  | flush wal hf => exact ⟨hl.nodup, hl.below, hl.waiting⟩

/-! ## Requests -/

/-- The tasks for the book of a symbol. -/
def ofSymbol (symbol : Symbol) (tasks : List Task) : List Task := tasks.filter fun task => task.symbol = symbol

omit [DecidableEq W] in
theorem ofSymbol_snoc (symbol : Symbol) (tasks : List Task) (task : Task) : ofSymbol symbol (tasks ++ [task]) =
    ofSymbol symbol tasks ++ if symbol = task.symbol then [task] else [] := by
  rw [ofSymbol, List.filter_append]
  split
  next hs => simp [ofSymbol, hs]
  next hs => simp [ofSymbol, Ne.symm hs]

/-- A replay of the log reads the logged requests in their order, and the tasks of a symbol have been logged in the
order in which they took the lock of its book. -/
structure LockOrder (p : ThreadPool W) (h : History W) : Prop where
  built : ∀ task ∈ h.requests, task.Built
  history : ∀ after, p.wal.history after = h.requests.map fun task => task.request.anonymous
  locked : ∀ symbol, ofSymbol symbol h.locked = ofSymbol symbol h.requests ++ p.unlogged symbol

omit [DecidableEq W] in
theorem start_lockOrder (env : Env) : LockOrder (.start W env) ({} : History W) where
  built _ h := nomatch h
  history _ := rfl
  locked _ := rfl

/-- A worker moves on without taking a lock or logging. -/
theorem LockOrder.quiet (ho : LockOrder p h) {w : W} {s : Worker} (hhistory : ∀ after, p'.wal.history after = p.wal.history after)
    (hrequests : h'.requests = h.requests) (hlocked : h'.locked = h.locked) (hlocks : p'.locks = p.locks)
    (hworkers : p'.workers = (p.move w s).workers) (hunlogged : s.unlogged = (p.workers w).unlogged) :
    LockOrder p' h' := by
  refine ⟨hrequests ▸ ho.built, fun after => ?_, fun symbol => ?_⟩
  · rw [hhistory, hrequests]
    exact ho.history after
  · rw [hlocked, hrequests, ThreadPool.unlogged_congr (congrFun hlocks symbol)]
    · exact ho.locked symbol
    · intro w' _
      rw [hworkers]
      exact ThreadPool.move_view Worker.unlogged hunlogged w'

/-- The move of a worker that holds the lock of one book at most does not change what stands under the locks of the
other ones. -/
theorem unlogged_move_of_ne (hlocks : ∀ w symbol, p.locks symbol = some w ↔ (p.workers w).holds = some symbol)
    {w : W} {s : Worker} {symbol symbol' : Symbol} (hw : ∀ s' ∈ (p.workers w).holds, s' = symbol)
    (hlock : p'.locks symbol' = p.locks symbol') (hworkers : p'.workers = (p.move w s).workers) (hs : symbol' ≠ symbol) :
    p'.unlogged symbol' = p.unlogged symbol' := by
  refine ThreadPool.unlogged_congr hlock fun w' hw' => ?_
  have hne : w' ≠ w := by
    rintro rfl
    exact hs (hw symbol' ((hlocks w' symbol').1 hw'))
  rw [hworkers, ThreadPool.move_of_ne hne]

theorem LockOrder.lock (ho : LockOrder p h)
    (hlocks : ∀ w symbol, p.locks symbol = some w ↔ (p.workers w).holds = some symbol) {w : W} {task : Task}
    (hw : p.workers w = .found task) (hl : p.locks task.symbol = none) :
    LockOrder ({ p with locks := Function.update p.locks task.symbol (some w) }.move w (.locked task))
      (h.record p (.lock w)) := by
  let p' := { p with locks := Function.update p.locks task.symbol (some w) }.move w (.locked task)
  have hlocked : (h.record p (.lock w)).locked = h.locked ++ [task] := by
    simp only [record, hw]
    rfl
  refine ⟨ho.built, ho.history, fun symbol => ?_⟩
  rw [hlocked, ofSymbol_snoc, ho.locked]
  show _ = ofSymbol symbol h.requests ++ p'.unlogged symbol
  by_cases hs : symbol = task.symbol
  · subst hs
    have hself : p'.locks task.symbol = some w := Function.update_self ..
    have hworker : p'.workers w = .locked task := ThreadPool.move_self w _
    rw [if_pos rfl, ThreadPool.unlogged_of_none hl, ThreadPool.unlogged_of_some hself, hworker, List.append_nil]
    rfl
  · have hother : p'.unlogged symbol = p.unlogged symbol := by
      refine unlogged_move_of_ne hlocks (w := w) ?_ (Function.update_of_ne hs ..) rfl hs
      rw [hw]
      rintro symbol ⟨⟩
    rw [if_neg hs, List.append_nil, hother]

theorem LockOrder.log (ho : LockOrder p h)
    (hlocks : ∀ w symbol, p.locks symbol = some w ↔ (p.workers w).holds = some symbol) {w : W} {task : Task}
    (hw : p.workers w = .locked task) (htask : task.Built) (entry : WALEntry) (net : NetOrder) :
    LockOrder ({ p with wal := p.wal.enqueue (entry.ofRequest net task.request) }.move w (.logged task))
      (h.record p (.log w entry net)) := by
  let p' := { p with wal := p.wal.enqueue (entry.ofRequest net task.request) }.move w (.logged task)
  have hholds : (p.workers w).holds = some task.symbol := by rw [hw]; rfl
  have hlock : p.locks task.symbol = some w := (hlocks w _).2 hholds
  have hrequests : (h.record p (.log w entry net)).requests = h.requests ++ [task] := by
    simp only [record, hw]
    rfl
  refine ⟨fun t ht => ?_, fun after => ?_, fun symbol => ?_⟩
  · rw [hrequests, List.mem_append, List.mem_singleton] at ht
    rcases ht with ht | rfl
    · exact ho.built t ht
    · exact htask
  · show (p.wal.enqueue _).history after = _
    rw [WAL.history_enqueue, WALEntry.request_ofRequest entry net htask.1, ho.history, hrequests, List.map_append]
    rfl
  · rw [hrequests, ofSymbol_snoc, List.append_assoc]
    refine (ho.locked symbol).trans (congrArg _ ?_)
    show _ = _ ++ p'.unlogged symbol
    by_cases hs : symbol = task.symbol
    · subst hs
      have hworker : p'.workers w = .logged task := ThreadPool.move_self w _
      rw [if_pos rfl, ThreadPool.unlogged_of_some hlock, hw, ThreadPool.unlogged_of_some (p := p') hlock, hworker]
      rfl
    · have hother : p'.unlogged symbol = p.unlogged symbol := by
        refine unlogged_move_of_ne hlocks (w := w) ?_ rfl rfl hs
        rw [hholds]
        exact fun _ h => (Option.some.inj h).symm
      rw [if_neg hs, List.nil_append, hother]

theorem LockOrder.unlock (ho : LockOrder p h)
    (hlocks : ∀ w symbol, p.locks symbol = some w ↔ (p.workers w).holds = some symbol) {w : W} {task : Task}
    {result : MatchResult} (hw : p.workers w = .applied task result) :
    LockOrder ({ p with locks := Function.update p.locks task.symbol none }.move w
      (.finishing result.fills result.executionReports result.fills)) (h.record p (.unlock w)) := by
  let p' := { p with locks := Function.update p.locks task.symbol none }.move w
    (.finishing result.fills result.executionReports result.fills)
  have hholds : (p.workers w).holds = some task.symbol := by rw [hw]; rfl
  have hlock : p.locks task.symbol = some w := (hlocks w _).2 hholds
  refine ⟨ho.built, ho.history, fun symbol => (ho.locked symbol).trans (congrArg _ ?_)⟩
  show p.unlogged symbol = p'.unlogged symbol
  by_cases hs : symbol = task.symbol
  · subst hs
    have hself : p'.locks task.symbol = none := Function.update_self ..
    rw [ThreadPool.unlogged_of_some hlock, hw, ThreadPool.unlogged_of_none hself]
    rfl
  · have hother : p'.unlogged symbol = p.unlogged symbol := by
      refine unlogged_move_of_ne hlocks (w := w) ?_ (Function.update_of_ne hs ..) rfl hs
      rw [hholds]
      exact fun _ h => (Option.some.inj h).symm
    rw [hother]

theorem LockOrder.step {a : PoolAction W} (hs : p.step a = some p') (htasks : p.AllTasks Task.Built)
    (hlocks : ∀ w symbol, p.locks symbol = some w ↔ (p.workers w).holds = some symbol) (hwhole : p.wal.Whole)
    (ho : LockOrder p h) : LockOrder p' (h.record p a) := by
  cases ThreadPool.steps hs with
  | submit task hlen => exact ⟨ho.built, ho.history, ho.locked⟩
  | dequeue w task tasks hw ht =>
    exact ho.quiet (w := w) (s := .got task) (fun _ => rfl) rfl rfl rfl rfl (by rw [hw]; rfl)
  | getOrderBook w task hw =>
    exact ho.quiet (w := w) (s := .found task) (fun _ => rfl) rfl rfl rfl rfl (by rw [hw]; rfl)
  | lock w task hw hl => exact ho.lock hlocks hw hl
  | log w entry net task hw => exact ho.log hlocks hw (htasks.taken w task (by rw [hw]; rfl)) entry net
  | apply w task book hw hb =>
    rw [record_apply hw hb]
    exact ho.quiet (w := w) (s := .applied task _) (fun _ => rfl) rfl rfl rfl rfl (by rw [hw]; rfl)
  | unlock w task result hw => exact ho.unlock hlocks hw
  | logFill w entry fill fills reports trades hw =>
    refine ho.quiet (w := w) (s := .finishing fills reports trades) (fun after => ?_) rfl rfl rfl rfl (by rw [hw]; rfl)
    show (p.wal.enqueue (entry.ofFill fill)).history after = _
    rw [WAL.history_enqueue, WALEntry.request_ofFill, Option.toList_none, List.append_nil]
  | publishReport w report reports trades hw =>
    exact ho.quiet (w := w) (s := .finishing [] reports trades) (fun _ => rfl) rfl rfl rfl rfl (by rw [hw]; rfl)
  | publishTrade w fill trades hw =>
    exact ho.quiet (w := w) (s := .finishing [] [] trades) (fun _ => rfl) rfl rfl rfl rfl (by rw [hw]; rfl)
  | finish w hw => exact ho.quiet (w := w) (s := .idle) (fun _ => rfl) rfl rfl rfl rfl (by rw [hw]; rfl)
  | flush wal hf =>
    obtain ⟨-, hentries⟩ := hwhole.flush hf
    refine ⟨ho.built, fun after => ?_, ho.locked⟩
    show wal.history after = _
    rw [WAL.history, hentries]
    exact ho.history after

end History

end StockExchange
