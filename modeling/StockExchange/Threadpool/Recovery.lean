/-
Recovery: replaying the log of a run into an empty registry gives the books of the run. A request is
logged under the lock of the book it is then applied to, so at every moment the entries of a symbol
are the operations its book has seen, and one more while a worker stands between the two.
-/
import StockExchange.Threadpool.ThreadPool
import StockExchange.Lib.Machine

universe u

namespace StockExchange

/-! ## The entries of a log -/

namespace WAL

/-- Everything that was ever enqueued: what the file holds and what is still to be flushed. -/
def entries (wal : WAL) : List WALEntry := WALEntry.packed.records wal.file ++ wal.queue

/-- The requests among them, as a replay reads them. -/
def history (after : List UInt8) (wal : WAL) : List Request := wal.entries.filterMap fun entry => entry.request after

/-- The file is made of whole entries. -/
def Whole (wal : WAL) : Prop := ∃ written : List WALEntry, wal.file = written.flatMap WALEntry.packed.put

theorem records_file (written : List WALEntry) : WALEntry.packed.records (written.flatMap WALEntry.packed.put) = written := by
  have h := WALEntry.packed.records_put (by decide) written (show ([] : List UInt8).length < _ by decide)
  rwa [List.append_nil] at h

theorem entries_enqueue (wal : WAL) (entry : WALEntry) : (wal.enqueue entry).entries = wal.entries ++ [entry] :=
  (List.append_assoc ..).symm

theorem history_enqueue (after : List UInt8) (wal : WAL) (entry : WALEntry) :
    (wal.enqueue entry).history after = wal.history after ++ (entry.request after).toList := by
  rw [history, entries_enqueue, List.filterMap_append]
  cases h : entry.request after <;> simp [history, h]

/-- Flushing moves an entry from the queue to the file. -/
theorem Whole.flush {wal wal' : WAL} (h : wal.Whole) (hf : wal.flush = some wal') :
    wal'.Whole ∧ wal'.entries = wal.entries := by
  obtain ⟨written, hw⟩ := h
  rw [WAL.flush] at hf
  split at hf
  next => cases hf
  next entry queue hq =>
    cases hf
    have hfile : wal.file ++ WALEntry.packed.put entry = (written ++ [entry]).flatMap WALEntry.packed.put := by
      rw [hw, List.flatMap_append, List.flatMap_singleton]
    refine ⟨⟨written ++ [entry], hfile⟩, ?_⟩
    rw [entries, entries, hfile, hw, records_file, records_file, hq, List.append_assoc]
    rfl

end WAL

/-! ## Workers -/

namespace Worker

/-- The symbol whose book the worker has locked. -/
def holds : Worker → Option Symbol
  | .locked task => some task.symbol
  | .logged task => some task.symbol
  | .applied task _ => some task.symbol
  | _ => none

/-- The symbol whose book the worker has looked up for a task it has not logged yet. -/
def opened : Worker → Option Symbol
  | .found task => some task.symbol
  | .locked task => some task.symbol
  | _ => none

/-- The operation the worker has logged and not applied yet. -/
def pending : Worker → List Op
  | .logged task => [task.request.anonymous.op]
  | _ => []

end Worker

/-- A task as the gateway builds it. -/
def Task.Built (task : Task) : Prop := task.request.Built ∧ task.symbol = task.request.symbol

instance (task : Task) : Decidable task.Built := inferInstanceAs (Decidable (_ ∧ _))

namespace ThreadPool

variable {W : Type u}

/-- The operation on a book that is in the log and not in the book yet. -/
def pending (p : ThreadPool W) (symbol : Symbol) : List Op :=
  match p.locks symbol with
  | some w => (p.workers w).pending
  | none => []

/-- The operations on a book in the log. -/
def logged (p : ThreadPool W) (after : List UInt8) (symbol : Symbol) : List Op :=
  opsOf symbol (p.wal.history after)

/-- In every state of a run the log and the books belong together. -/
structure Recoverable (after : List UInt8) (env : Env) (p : ThreadPool W) : Prop where
  whole : p.wal.Whole
  locks : ∀ w symbol, p.locks symbol = some w ↔ (p.workers w).holds = some symbol
  opened : ∀ w symbol, (p.workers w).opened = some symbol → p.registry symbol ≠ none
  /-- A book has seen the logged operations but a pending one. -/
  books : ∀ symbol, ∃ done, p.logged after symbol = done ++ p.pending symbol ∧ ∀ book, p.registry symbol = some book →
    SameBook book.toBookState (run symbol env done).book.toBookState
  /-- A symbol in the log has a book. -/
  unused : ∀ symbol, p.registry symbol = none → p.logged after symbol = []
  /-- A book that nothing was logged for has just been made. -/
  fresh : ∀ symbol, p.registry symbol ≠ none → p.logged after symbol = [] →
    ∃ w, (p.workers w).opened = some symbol

theorem start_recoverable (after : List UInt8) (env env' : Env) : (start W env').Recoverable after env where
  whole := ⟨[], rfl⟩
  locks _ _ := ⟨fun h => (nomatch h), fun h => (nomatch h)⟩
  opened _ _ h := nomatch h
  books _ := ⟨[], rfl, fun _ h => nomatch h⟩
  unused _ _ := rfl
  fresh _ h _ := absurd rfl h

/-! ## Steps -/

variable {p : ThreadPool W} {after : List UInt8} {env : Env}

theorem pending_of_some {symbol : Symbol} {w : W} (h : p.locks symbol = some w) :
    p.pending symbol = (p.workers w).pending := by rw [pending, h]

theorem pending_of_none {symbol : Symbol} (h : p.locks symbol = none) : p.pending symbol = [] := by rw [pending, h]

/-- A step that changes neither the books nor what is in the log, nor which operations are in flight. -/
theorem Recoverable.of_same_books (h : p.Recoverable after env) {p' : ThreadPool W}
    (hregistry : p'.registry = p.registry) (hwhole : p'.wal.Whole)
    (hhistory : p'.wal.history after = p.wal.history after)
    (hlocks : ∀ w symbol, p'.locks symbol = some w ↔ (p'.workers w).holds = some symbol)
    (hopened : ∀ w, (p'.workers w).opened = (p.workers w).opened)
    (hpending : ∀ symbol, p'.pending symbol = p.pending symbol) : p'.Recoverable after env := by
  have hlogged : ∀ symbol, p'.logged after symbol = p.logged after symbol := fun symbol => by
    rw [logged, logged, hhistory]
  refine ⟨hwhole, hlocks, fun w symbol => ?_, fun symbol => ?_, fun symbol => ?_, fun symbol => ?_⟩
  · rw [hregistry, hopened]
    exact h.opened w symbol
  · rw [hregistry, hlogged, hpending]
    exact h.books symbol
  · rw [hregistry, hlogged]
    exact h.unused symbol
  · rw [hregistry, hlogged]
    simp only [hopened]
    exact h.fresh symbol

/-- A worker holds the lock of one book only. -/
theorem Recoverable.locks_of_ne (h : p.Recoverable after env) {w : W} {symbol symbol' : Symbol}
    (hw : (p.workers w).holds = some symbol) (hs : symbol' ≠ symbol) : p.locks symbol' ≠ some w := by
  rw [Ne, h.locks, hw]
  intro heq
  exact hs (Option.some.inj heq).symm

variable [DecidableEq W]

/-- A move that keeps what is pending for the worker keeps it for every book. -/
theorem pending_move {w : W} {s : Worker} (h : s.pending = (p.workers w).pending) (symbol : Symbol) :
    (p.move w s).pending symbol = p.pending symbol := by
  rw [pending, pending]
  show (match p.locks symbol with | some w' => ((p.move w s).workers w').pending | none => []) = _
  split
  · exact move_view Worker.pending h _
  · rfl

/-- A worker moves on without taking or giving back a lock. -/
theorem Recoverable.quiet (h : p.Recoverable after env) {p' : ThreadPool W} {w : W} {s : Worker}
    (hregistry : p'.registry = p.registry) (hlocks : p'.locks = p.locks) (hwhole : p'.wal.Whole)
    (hhistory : p'.wal.history after = p.wal.history after) (hworkers : p'.workers = (p.move w s).workers)
    (hholds : s.holds = (p.workers w).holds)
    (hopened : s.opened = (p.workers w).opened) (hpending : s.pending = (p.workers w).pending) :
    p'.Recoverable after env := by
  refine h.of_same_books hregistry hwhole hhistory (fun w' symbol => ?_) ?_ (fun symbol => ?_)
  · rw [hlocks, hworkers, move_view Worker.holds hholds]
    exact h.locks w' symbol
  · rw [hworkers]
    exact move_view Worker.opened hopened
  · rw [← pending_move hpending, pending, pending, hlocks, hworkers]
    rfl

theorem Recoverable.getOrderBook (h : p.Recoverable after env) {w : W} {task : Task} (hw : p.workers w = .got task) :
    ({ p with registry := (p.registry.getOrderBook task.symbol).2 }.move w (.found task)).Recoverable after env where
  whole := h.whole
  locks w' symbol := by
    have hholds := move_view (p := p) Worker.holds (s := .found task) (by rw [hw]; rfl) w'
    exact (h.locks w' symbol).trans (by rw [← hholds]; rfl)
  opened w' symbol hs := by
    by_cases hw' : w' = w
    · rw [hw', move_self] at hs
      cases hs
      show (p.registry.getOrderBook task.symbol).2 task.symbol ≠ none
      rw [BookRegistry.getOrderBook_self]
      exact Option.some_ne_none _
    · rw [move_of_ne hw'] at hs
      exact BookRegistry.getOrderBook_ne_none (h.opened w' symbol hs)
  books symbol := by
    obtain ⟨done, hdone, hbook⟩ := h.books symbol
    refine ⟨done, hdone.trans ?_, fun book hb => ?_⟩
    · rw [← pending_move (p := p) (s := .found task) (by rw [hw]; rfl) symbol]
      rfl
    replace hb : (p.registry.getOrderBook task.symbol).2 symbol = some book := hb
    by_cases hs : symbol = task.symbol
    · subst hs
      rw [BookRegistry.getOrderBook_self] at hb
      cases hr : p.registry task.symbol with
      | some b =>
        rw [hr] at hb
        cases hb
        exact hbook b hr
      | none =>
        -- a new book is empty, and nothing has been logged for it
        rw [hr] at hb
        cases hb
        have hnil : done ++ p.pending task.symbol = [] := hdone.symm.trans (h.unused _ hr)
        rw [(List.append_eq_nil_iff.1 hnil).1]
        exact SameBook.refl _
    · rw [BookRegistry.getOrderBook_of_ne hs] at hb
      exact hbook book hb
  unused symbol hs := by
    refine h.unused symbol (Classical.byContradiction fun hne => ?_)
    exact BookRegistry.getOrderBook_ne_none hne hs
  fresh symbol hs hl := by
    by_cases heq : symbol = task.symbol
    · exact ⟨w, by rw [move_self, heq]; rfl⟩
    · replace hs : (p.registry.getOrderBook task.symbol).2 symbol ≠ none := hs
      rw [BookRegistry.getOrderBook_of_ne heq] at hs
      obtain ⟨w', hw'⟩ := h.fresh symbol hs hl
      refine ⟨w', ?_⟩
      rw [move_of_ne]
      · exact hw'
      · rintro rfl
        rw [hw] at hw'
        cases hw'

/-- A worker that takes or gives back a lock: nothing is pending in its book before or after. -/
theorem Recoverable.relock (h : p.Recoverable after env) {w : W} {s : Worker} {symbol : Symbol} {holder : Option W}
    (hbefore : p.locks symbol = none ∧ (p.workers w).holds = none ∧ holder = some w ∧ s.holds = some symbol ∨
      (p.workers w).holds = some symbol ∧ holder = none ∧ s.holds = none)
    (hopened : s.opened = (p.workers w).opened) (hpending : s.pending = []) (hpending' : (p.workers w).pending = []) :
    ({ p with locks := Function.update p.locks symbol holder }.move w s).Recoverable after env := by
  let p' := { p with locks := Function.update p.locks symbol holder }.move w s
  have hself : p'.locks symbol = holder := Function.update_self ..
  have hother : ∀ symbol', symbol' ≠ symbol → p'.locks symbol' = p.locks symbol' :=
    fun symbol' hs => Function.update_of_ne hs ..
  have hmove : p'.workers = (p.move w s).workers := rfl
  refine h.of_same_books rfl h.whole rfl (fun w' symbol' => ?_) (move_view Worker.opened hopened) (fun symbol' => ?_)
  · show p'.locks symbol' = some w' ↔ (p'.workers w').holds = some symbol'
    have hlocks := h.locks w' symbol'
    by_cases hw : w' = w
    · subst hw
      rw [hmove, move_self]
      by_cases hs : symbol' = symbol
      · subst hs
        rw [hself]
        rcases hbefore with ⟨-, -, hh, hs⟩ | ⟨-, hh, hs⟩
        · simp [hh, hs]
        · simp [hh, hs]
      · rw [hother symbol' hs, hlocks]
        rcases hbefore with ⟨-, hw, -, hs'⟩ | ⟨hw, -, hs'⟩
        · simp [hw, hs', Ne.symm hs]
        · simp [hw, hs', Ne.symm hs]
    · rw [hmove, move_of_ne hw, ← hlocks]
      by_cases hs : symbol' = symbol
      · subst hs
        rw [hself]
        rcases hbefore with ⟨hl, -, hh, -⟩ | ⟨hl, hh, -⟩
        · simp [hl, hh, Ne.symm hw]
        · rw [← h.locks] at hl
          simp [hl, hh, Ne.symm hw]
      · rw [hother symbol' hs]
  · -- only the worker that moves can have something pending in the book
    by_cases hs : symbol' = symbol
    · subst hs
      rcases hbefore with ⟨hl, -, hh, -⟩ | ⟨hl, hh, -⟩
      · rw [pending_of_none hl, pending_of_some (hself.trans hh), hmove, move_self, hpending]
      · rw [pending_of_none (hself.trans hh), pending_of_some ((h.locks w symbol').2 hl), hpending']
    · rw [← pending_move (p := p) (hpending.trans hpending'.symm), pending, pending, hother symbol' hs, hmove]
      rfl

/-- The move of a worker that holds the lock of a book changes what is pending in that book alone. -/
theorem Recoverable.pending_of_ne (h : p.Recoverable after env) {w : W} {s : Worker} {symbol symbol' : Symbol}
    (hw : (p.workers w).holds = some symbol) (hs : symbol' ≠ symbol) :
    (p.move w s).pending symbol' = p.pending symbol' := by
  have hlock : (p.move w s).locks symbol' = p.locks symbol' := rfl
  cases hl : p.locks symbol' with
  | none => rw [pending_of_none hl, pending_of_none (hlock.trans hl)]
  | some w' =>
    have hne : w' ≠ w := by
      rintro rfl
      exact h.locks_of_ne hw hs hl
    rw [pending_of_some hl, pending_of_some (hlock.trans hl), move_of_ne hne]

/-- Logging a task adds its operation to those of its own symbol. -/
theorem opsOf_log (wal : WAL) {task : Task} (htask : task.Built) (entry : WALEntry) (net : NetOrder) (symbol : Symbol) :
    opsOf symbol ((wal.enqueue (entry.ofRequest net task.request)).history after) =
      opsOf symbol (wal.history after) ++ if symbol = task.symbol then [task.request.anonymous.op] else [] := by
  obtain ⟨hbuilt, hsymbol⟩ := htask
  rw [WAL.history_enqueue, WALEntry.request_ofRequest entry net hbuilt, opsOf_append, Option.toList_some]
  have hrequest : task.request.anonymous.symbol = task.symbol := by rw [Request.anonymous_symbol, hsymbol]
  split
  next hs => rw [hs, ← hrequest, opsOf_singleton_self]
  next hs => rw [opsOf_singleton_of_ne fun heq => hs (heq.symm.trans hrequest)]

theorem Recoverable.log (h : p.Recoverable after env) {w : W} {task : Task} (hw : p.workers w = .locked task)
    (htask : task.Built) (entry : WALEntry) (net : NetOrder) :
    ({ p with wal := p.wal.enqueue (entry.ofRequest net task.request) }.move w (.logged task)).Recoverable after env := by
  let p' := { p with wal := p.wal.enqueue (entry.ofRequest net task.request) }.move w (.logged task)
  have hholds : (p.workers w).holds = some task.symbol := by rw [hw]; rfl
  have hopen : p.registry task.symbol ≠ none := h.opened w task.symbol (by rw [hw]; rfl)
  have hlock : p.locks task.symbol = some w := (h.locks w _).2 hholds
  have hlogged : ∀ symbol, p'.logged after symbol = _ := opsOf_log p.wal htask entry net
  have hself : p'.logged after task.symbol = p.logged after task.symbol ++ [task.request.anonymous.op] := by
    rw [hlogged, if_pos rfl]
    rfl
  have hother : ∀ symbol, symbol ≠ task.symbol → p'.logged after symbol = p.logged after symbol := by
    intro symbol hs
    rw [hlogged, if_neg hs, List.append_nil]
    rfl
  refine ⟨h.whole, fun w' symbol => ?_, fun w' symbol hs => ?_, fun symbol => ?_, fun symbol hs => ?_,
    fun symbol hs hnil => ?_⟩
  · refine (h.locks w' symbol).trans ?_
    rw [← move_view (p := p) Worker.holds (s := .logged task) hholds.symm w']
    rfl
  · by_cases hw' : w' = w
    · rw [hw', move_self] at hs
      cases hs
    · rw [move_of_ne hw'] at hs
      exact h.opened w' symbol hs
  · -- the operation is logged, and pending until it is applied under the same lock
    obtain ⟨done, hdone, hbook⟩ := h.books symbol
    refine ⟨done, ?_, hbook⟩
    by_cases hs : symbol = task.symbol
    · subst hs
      have hbefore : p.pending task.symbol = [] := by rw [pending_of_some hlock, hw]; rfl
      have hafter : p'.pending task.symbol = [task.request.anonymous.op] := by
        rw [pending_of_some (p := p') hlock]
        exact congrArg Worker.pending (move_self w _)
      rw [hbefore, List.append_nil] at hdone
      exact hself.trans (by rw [hafter, hdone])
    · refine (hother symbol hs).trans (hdone.trans ?_)
      rw [← h.pending_of_ne hholds hs (s := .logged task)]
      rfl
  · refine (hother symbol ?_).trans (h.unused symbol hs)
    rintro rfl
    exact hopen hs
  · have hne : symbol ≠ task.symbol := by
      rintro rfl
      rw [hself] at hnil
      exact List.append_ne_nil_of_right_ne_nil _ (List.cons_ne_nil _ _) hnil
    obtain ⟨w', hw'⟩ := h.fresh symbol hs ((hother symbol hne).symm.trans hnil)
    refine ⟨w', ?_⟩
    rw [move_of_ne]
    · exact hw'
    · rintro rfl
      rw [hw] at hw'
      exact hne (Option.some.inj hw').symm

theorem Recoverable.apply (h : p.Recoverable after env) {w : W} {task : Task} {book : OrderBook}
    (hw : p.workers w = .logged task) (hb : p.registry task.symbol = some book) (env' : Env) (result : MatchResult)
    (env'' : Env) :
    ({ p with
      registry := p.registry.set task.symbol (book.apply task.request.op env').book
      env := env'' }.move w (.applied task result)).Recoverable after env := by
  let p' := { p with
    registry := p.registry.set task.symbol (book.apply task.request.op env').book
    env := env'' }.move w (.applied task result)
  have hholds : (p.workers w).holds = some task.symbol := by rw [hw]; rfl
  have hlock : p.locks task.symbol = some w := (h.locks w _).2 hholds
  have hopened := move_view (p := p) Worker.opened (s := .applied task result) (by rw [hw]; rfl)
  have hself : p'.registry task.symbol = some (book.apply task.request.op env').book := BookRegistry.set_self _
  have hother : ∀ symbol, symbol ≠ task.symbol → p'.registry symbol = p.registry symbol :=
    fun symbol hs => BookRegistry.set_of_ne hs _
  have hnone : ∀ symbol, p'.registry symbol = none ↔ p.registry symbol = none := by
    intro symbol
    by_cases hs : symbol = task.symbol
    · rw [hs, hself, hb]
      constructor <;> intro heq <;> cases heq
    · rw [hother symbol hs]
  refine ⟨h.whole, fun w' symbol => ?_, fun w' symbol hs => ?_, fun symbol => ?_, fun symbol hs => h.unused symbol ((hnone symbol).1 hs), fun symbol hs hnil => ?_⟩
  · refine (h.locks w' symbol).trans ?_
    rw [← move_view (p := p) Worker.holds (s := .applied task result) hholds.symm w']
    rfl
  · exact fun hn => h.opened w' symbol ((hopened w').symm.trans hs) ((hnone symbol).1 hn)
  · obtain ⟨done, hdone, hbook⟩ := h.books symbol
    by_cases hs : symbol = task.symbol
    · -- the pending operation is done now
      subst hs
      have hbefore : p.pending task.symbol = [task.request.anonymous.op] := by rw [pending_of_some hlock, hw]; rfl
      have hafter : p'.pending task.symbol = [] := by
        rw [pending_of_some (p := p') hlock]
        exact congrArg Worker.pending (move_self w _)
      refine ⟨done ++ [task.request.anonymous.op], ?_, fun b hb' => ?_⟩
      · refine hdone.trans ?_
        rw [hbefore]
        exact (List.append_nil _).symm.trans (congrArg _ hafter.symm)
      · cases hself.symm.trans hb'
        rw [run_snoc, Request.anonymous_op]
        exact (hbook book hb).apply _ _ _
    · refine ⟨done, hdone.trans ?_, fun b hb' => hbook b ((hother symbol hs).symm.trans hb')⟩
      rw [← h.pending_of_ne hholds hs (s := .applied task result)]
      rfl
  · obtain ⟨w', hw'⟩ := h.fresh symbol (fun hn => hs ((hnone symbol).2 hn)) hnil
    exact ⟨w', (hopened w').trans hw'⟩

end ThreadPool

/-- The tasks handed to the pool are as the gateway builds them. -/
def PoolAction.Built {W : Type u} : PoolAction W → Prop
  | .submit task => task.Built
  | _ => True

instance {W : Type u} (a : PoolAction W) : Decidable a.Built :=
  match a with
  | .submit task => inferInstanceAs (Decidable task.Built)
  | .dequeue _ | .getOrderBook _ | .lock _ | .log _ _ _ | .apply _ | .unlock _ | .logFill _ _ | .publishReport _
  | .publishTrade _ | .finish _ | .flush => .isTrue trivial

namespace ThreadPool

variable {W : Type u} {p : ThreadPool W} {after : List UInt8} {env : Env}

/-! ## Whole runs -/

/-- The workers have finished and the log has been written. -/
def Drained (p : ThreadPool W) : Prop := (∀ w, p.workers w = .idle) ∧ p.wal.queue = []

/-- Each book of a drained pool is the book of the operations logged for its symbol. -/
theorem Recoverable.builtBy (h : p.Recoverable after env) (hidle : ∀ w, p.workers w = .idle) (symbol : Symbol) :
    BuiltBy symbol env (p.logged after symbol) (p.registry symbol) := by
  obtain ⟨done, hdone, hbook⟩ := h.books symbol
  have hpending : p.pending symbol = [] := by
    cases hl : p.locks symbol with
    | none => exact pending_of_none hl
    | some w => rw [pending_of_some hl, hidle]; rfl
  rw [hpending, List.append_nil] at hdone
  unfold BuiltBy
  cases hr : p.registry symbol with
  | none =>
    rw [if_pos (h.unused symbol hr)]
    exact .none
  | some book =>
    have hne : p.logged after symbol ≠ [] := by
      intro hnil
      obtain ⟨w, hw⟩ := h.fresh symbol (by rw [hr]; exact Option.some_ne_none _) hnil
      rw [hidle] at hw
      cases hw
    rw [if_neg hne, hdone]
    exact .some (hbook book hr)

variable [DecidableEq W]

theorem Recoverable.step {p' : ThreadPool W} {a : PoolAction W} (hs : p.step a = some p')
    (htasks : p.AllTasks Task.Built) (h : p.Recoverable after env) : p'.Recoverable after env := by
  cases steps hs with
  | submit task hlen => exact h.of_same_books rfl h.whole rfl h.locks (fun _ => rfl) (fun _ => rfl)
  | dequeue w task tasks hw ht =>
    exact h.quiet (w := w) (s := .got task) rfl rfl h.whole rfl rfl (by rw [hw]; rfl) (by rw [hw]; rfl)
      (by rw [hw]; rfl)
  | getOrderBook w task hw => exact h.getOrderBook hw
  | lock w task hw hl =>
    exact h.relock (.inl ⟨hl, by rw [hw]; rfl, rfl, rfl⟩) (by rw [hw]; rfl) rfl (by rw [hw]; rfl)
  | log w entry net task hw => exact h.log hw (htasks.taken w task (by rw [hw]; rfl)) entry net
  | apply w task book hw hb => exact h.apply hw hb p.env _ _
  | unlock w task result hw =>
    exact h.relock (.inr ⟨by rw [hw]; rfl, rfl, rfl⟩) (by rw [hw]; rfl) rfl (by rw [hw]; rfl)
  | logFill w entry fill fills reports trades hw =>
    have hhistory : (p.wal.enqueue (entry.ofFill fill)).history after = p.wal.history after := by
      rw [WAL.history_enqueue, WALEntry.request_ofFill, Option.toList_none, List.append_nil]
    exact h.quiet (w := w) (s := .finishing fills reports trades) rfl rfl h.whole hhistory rfl (by rw [hw]; rfl)
      (by rw [hw]; rfl) (by rw [hw]; rfl)
  | publishReport w report reports trades hw =>
    exact h.quiet (w := w) (s := .finishing [] reports trades) rfl rfl h.whole rfl rfl (by rw [hw]; rfl)
      (by rw [hw]; rfl) (by rw [hw]; rfl)
  | publishTrade w fill trades hw =>
    exact h.quiet (w := w) (s := .finishing [] [] trades) rfl rfl h.whole rfl rfl (by rw [hw]; rfl) (by rw [hw]; rfl)
      (by rw [hw]; rfl)
  | finish w hw =>
    exact h.quiet (w := w) (s := .idle) rfl rfl h.whole rfl rfl (by rw [hw]; rfl) (by rw [hw]; rfl) (by rw [hw]; rfl)
  | flush wal hf =>
    obtain ⟨hwhole, hentries⟩ := h.whole.flush hf
    have hhistory : wal.history after = p.wal.history after := by rw [WAL.history, hentries, WAL.history]
    exact h.of_same_books rfl hwhole hhistory h.locks (fun _ => rfl) (fun _ => rfl)

/-- In every state of a run that starts on books and a log that belong together they do. -/
theorem Recoverable.run (h : p.Recoverable after env) (htasks : p.AllTasks Task.Built) {actions : List (PoolAction W)}
    {p' : ThreadPool W} (hbuilt : ∀ a ∈ actions, a.Built) (hrun : Machine.run ThreadPool.step p actions = some p') :
    p'.Recoverable after env := by
  have hstep : ∀ (s : ThreadPool W) (a : PoolAction W) (s' : ThreadPool W), a.Built → s.step a = some s' →
      s.AllTasks Task.Built ∧ s.Recoverable after env → s'.AllTasks Task.Built ∧ s'.Recoverable after env := by
    rintro s a s' ha hs ⟨htasks, h⟩
    refine ⟨htasks.step hs ?_, h.step hs htasks⟩
    rintro task rfl
    exact ha
  exact (Machine.run_invariant hstep actions _ _ hbuilt hrun ⟨htasks, h⟩).2

theorem run_recoverable (after : List UInt8) (env : Env) {actions : List (PoolAction W)} {p : ThreadPool W}
    (hbuilt : ∀ a ∈ actions, a.Built) (hrun : Machine.run step (start W env) actions = some p) :
    p.Recoverable after env :=
  (start_recoverable after env env).run (start_allTasks Task.Built env) hbuilt hrun

omit [DecidableEq W] in
/-- A replay of the file of a drained pool reads the whole log. -/
theorem Recoverable.recovered (h : p.Recoverable after env) (hdrained : p.Drained) (env' : Env) (symbol : Symbol) :
    Option.Rel (fun b b' => SameBook b.toBookState b'.toBookState) (p.registry symbol)
      ((ReplayEngine.replay after p.wal.file .empty env').registry symbol) := by
  have hreplay : ReplayEngine.replay after p.wal.file .empty env' =
      (p.wal.history after).foldl ReplayEngine.apply ⟨.empty, { env' with counter := 1 }⟩ := by
    rw [WAL.history, WAL.entries, hdrained.2, List.append_nil, ← ReplayEngine.foldl_turn]
    rfl
  rw [hreplay]
  exact (h.builtBy hdrained.1 symbol).rel (builtBy_foldl _ env _ symbol)

/-- Replaying the log of a run gives the books of the run: whatever tasks of the gateway any number of
workers have gone through in any interleaving, once they have finished and the log is drained, a
replay into an empty registry has books for the same symbols, with the same levels, queues, orders and
index up to client ids. -/
theorem replay_eq_live (env env' : Env) (after : List UInt8) (actions : List (PoolAction W)) (p : ThreadPool W)
    (hbuilt : ∀ a ∈ actions, a.Built) (hrun : Machine.run step (start W env) actions = some p) (hdrained : p.Drained)
    (symbol : Symbol) :
    Option.Rel (fun b b' => SameBook b.toBookState b'.toBookState) (p.registry symbol)
      ((ReplayEngine.replay after p.wal.file .empty env').registry symbol) :=
  (run_recoverable after env hbuilt hrun).recovered hdrained env' symbol

/-- Two workers on three tasks: a sell and a buy that trade, and a cancel for another symbol that is
logged between them. The fill is logged after the lock of its book has been given back. -/
def interleaved : List (PoolAction Bool) :=
  let entry : WALEntry := ⟨7, .replicate 52 255⟩
  let net : NetOrder := ⟨0, .replicate 8 255, 0, 0, 0, 0, 0⟩
  let sell : Order := { orderId := 1, symbol := [65], side := .sell, price := 10, quantity := 5, remainingQuantity := 5 }
  let buy : Order := { orderId := 2, symbol := [65], price := 10, quantity := 3, remainingQuantity := 3, clientId := 8 }
  let cancel : CancelRequest := { orderId := 1, symbol := [66], clientId := 8 }
  [.submit ⟨.submit sell, [65]⟩, .submit ⟨.submit buy, [65]⟩, .submit ⟨.cancel cancel, [66]⟩,
    .dequeue true, .dequeue false, .getOrderBook true, .getOrderBook false, .lock true, .log true entry net, .apply true,
    .unlock true, .publishReport true, .finish true, .dequeue true, .getOrderBook true, .lock false, .lock true,
    .log true entry net, .log false entry net, .apply false, .flush, .apply true, .unlock true, .unlock false,
    .logFill false entry, .finish true, .publishReport false, .publishReport false, .publishTrade false, .finish false,
    .flush, .flush, .flush]

theorem replay_eq_live_interleaved : ∃ p, Machine.run step (start Bool ⟨1, fun _ => 0, 0⟩) interleaved = some p ∧
    p.Drained ∧ ∀ symbol, Option.Rel (fun b b' => SameBook b.toBookState b'.toBookState) (p.registry symbol)
      ((ReplayEngine.replay [] p.wal.file .empty ⟨9, fun _ => 5, 0⟩).registry symbol) := by
  have hsome : (Machine.run step (start Bool ⟨1, fun _ => 0, 0⟩) interleaved).isSome := by decide
  have hrun : Machine.run step (start Bool ⟨1, fun _ => 0, 0⟩) interleaved = some (Option.get _ hsome) :=
    (Option.some_get hsome).symm
  have hdrained : (Option.get _ hsome).Drained := ⟨fun w => by cases w <;> rfl, rfl⟩
  exact ⟨_, hrun, hdrained, replay_eq_live ⟨1, fun _ => 0, 0⟩ ⟨9, fun _ => 5, 0⟩ [] interleaved _ (by decide) hrun
    hdrained⟩

end ThreadPool

end StockExchange
