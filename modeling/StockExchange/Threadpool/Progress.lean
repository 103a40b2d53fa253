/-
The pool always finishes. A worker waits only for the lock of a book, which it does not hold any other lock for, so the
holder of that lock can go on: a pool in which nobody can go on has nothing left to do. And nobody can go on for long:
every task pays in advance for the steps that it takes, those for its fills included, since each fill uses up an order
that some task has paid for.
-/
import StockExchange.Threadpool.Restarts
import StockExchange.Lib.Flow

universe u

open scoped BigOperators

namespace StockExchange

/-- The steps that the worker has still to take, and those of the flush thread for it. A task that is not applied yet pays
for one more order in its book, and each order for the steps of the fill that uses it up: a log entry and its flush, two
reports and a trade. -/
def Worker.work : Worker → ℕ
  | .idle => 0
  | .got _ => 13
  | .found _ => 12
  | .locked _ => 11
  | .logged _ => 9
  | .applied _ result => 3 * result.fills.length + result.executionReports.length + 2
  | .finishing fills reports trades => 2 * fills.length + reports.length + trades.length + 1

/-- What the orders of a book pay for. -/
def bookWork : Option OrderBook → ℕ
  | none => 0
  | some book => 5 * book.resting

/-- The symbol of the book that the worker has looked up and not used yet. -/
def Worker.book : Worker → Option Symbol
  | .found task => some task.symbol
  | .locked task => some task.symbol
  | .logged task => some task.symbol
  | _ => none

namespace ThreadPool

variable {W : Type u}

/-- The steps that the pool has still to take at most, where all books and tasks are of these symbols. -/
def work [Fintype W] (symbols : Finset Symbol) (p : ThreadPool W) : ℕ :=
  14 * p.tasks.length + ∑ w, (p.workers w).work + p.wal.queue.length + ∑ symbol ∈ symbols, bookWork (p.registry symbol)

end ThreadPool

namespace PoolAction

variable {W : Type u}

/-- The symbol of the task handed in. -/
def symbol : PoolAction W → Option Symbol
  | .submit task => some task.symbol
  | _ => none

/-- The tasks handed in are of these symbols. -/
def Within (symbols : Finset Symbol) (a : PoolAction W) : Prop := ∀ symbol ∈ a.symbol, symbol ∈ symbols

/-- A step of a worker or of the flush thread. -/
def isWork : PoolAction W → Bool
  | .submit _ => false
  | _ => true

end PoolAction

namespace ThreadPool

variable {W : Type u} [DecidableEq W] [Fintype W] {p p' : ThreadPool W} {symbols : Finset Symbol}

/-- The worker that moves accounts for the change. -/
theorem work_move {w : W} {s : Worker} (hworkers : p'.workers = (p.move w s).workers) :
    (∑ w', (p'.workers w').work) + (p.workers w).work = s.work + ∑ w', (p.workers w').work := by
  rw [hworkers]
  exact Flow.sum_weight_update Finset.univ Worker.work p.workers (Finset.mem_univ w) s

/-- A new book is empty. -/
theorem bookWork_getOrderBook (registry : BookRegistry) (symbol symbol' : Symbol) :
    bookWork ((registry.getOrderBook symbol).2 symbol') = bookWork (registry symbol') := by
  by_cases h : symbol' = symbol
  · subst h
    rw [BookRegistry.getOrderBook_self]
    cases registry symbol' with
    | none => rfl
    | some book => rfl
  · rw [BookRegistry.getOrderBook_of_ne h]

/-- A worker moves on, and the task it may take up and its own work pay for what it may put into the log. -/
theorem work_of_move (taken logged : ℕ) {w : W} {s : Worker} (hworkers : p'.workers = (p.move w s).workers)
    (hbooks : ∀ symbol, bookWork (p'.registry symbol) = bookWork (p.registry symbol))
    (htasks : p'.tasks.length + taken = p.tasks.length) (hqueue : p'.wal.queue.length = p.wal.queue.length + logged)
    (hpaid : 1 + s.work + logged ≤ (p.workers w).work + 14 * taken) : 1 + p'.work symbols ≤ p.work symbols := by
  have hmove := work_move hworkers
  have hsame : ∑ symbol ∈ symbols, bookWork (p'.registry symbol) = ∑ symbol ∈ symbols, bookWork (p.registry symbol) :=
    Finset.sum_congr rfl fun symbol _ => hbooks symbol
  unfold work
  omega

/-- Applying an operation is paid for by the task and by the orders that are used up. -/
theorem work_apply {w : W} {task : Task} {book : OrderBook} (hw : p.workers w = .logged task)
    (hb : p.registry task.symbol = some book) (hsymbol : task.symbol ∈ symbols)
    (hp : p' = { p with
      registry := p.registry.set task.symbol (book.apply task.request.op p.env).book
      env := (book.apply task.request.op p.env).env }.move w
        (.applied task (book.apply task.request.op p.env).result)) : 1 + p'.work symbols ≤ p.work symbols := by
  have hpays := book.apply_pays task.request.op p.env
  have hreports := book.apply_reports task.request.op p.env
  have hbrings : (submittedIds [task.request.op]).length ≤ 1 := List.length_filterMap_le ..
  have hmove : _ = _ + _ := @work_move _ _ _ p p' w
    (s := .applied task (book.apply task.request.op p.env).result) (by rw [hp]; rfl)
  have hbooks : ∑ symbol ∈ symbols, bookWork (p'.registry symbol) + bookWork (p.registry task.symbol) =
      bookWork (some (book.apply task.request.op p.env).book) + ∑ symbol ∈ symbols, bookWork (p.registry symbol) := by
    rw [hp]
    exact Flow.sum_weight_update symbols bookWork p.registry hsymbol _
  have htasks : p'.tasks = p.tasks := by rw [hp]; rfl
  have hwal : p'.wal = p.wal := by rw [hp]; rfl
  have hdue : (Worker.logged task).work = 9 := rfl
  have hmade : (Worker.applied task (book.apply task.request.op p.env).result).work =
    3 * (book.apply task.request.op p.env).result.fills.length +
      (book.apply task.request.op p.env).result.executionReports.length + 2 := rfl
  have hbefore : bookWork (some book) = 5 * book.resting := rfl
  have hafter : bookWork (some (book.apply task.request.op p.env).book) =
    5 * (book.apply task.request.op p.env).book.resting := rfl
  rw [hw, hdue, hmade] at hmove
  rw [hb, hbefore, hafter] at hbooks
  unfold work
  rw [htasks, hwal]
  omega

/-- Every step of a worker or of the flush thread uses up some of the work, a task brings fourteen steps. -/
theorem step_work {a : PoolAction W} (hs : p.step a = some p') (htasks : p.AllTasks fun task => task.symbol ∈ symbols) :
    (if a.isWork then 1 else 0) + p'.work symbols ≤ p.work symbols + if a.isWork then 0 else 14 := by
  cases steps hs with
  | submit task hlen =>
    have htasks : (p.tasks ++ [task]).length = p.tasks.length + 1 := by simp
    show 0 + work symbols { p with tasks := p.tasks ++ [task] } ≤ work symbols p + 14
    simp only [work]
    omega
  | dequeue w task tasks hw ht =>
    have htasks : tasks.length + 1 = p.tasks.length := by rw [ht, List.length_cons]
    refine work_of_move 1 0 (w := w) (s := .got task) rfl (fun _ => rfl) htasks rfl ?_
    rw [hw]
    exact Nat.le_refl _
  | getOrderBook w task hw =>
    refine work_of_move 0 0 (w := w) (s := .found task) rfl (bookWork_getOrderBook p.registry task.symbol) rfl rfl ?_
    rw [hw]
    exact Nat.le_refl _
  | lock w task hw hl =>
    refine work_of_move 0 0 (w := w) (s := .locked task) rfl (fun _ => rfl) rfl rfl ?_
    rw [hw]
    exact Nat.le_refl _
  | log w entry net task hw =>
    refine work_of_move 0 1 (w := w) (s := .logged task) rfl (fun _ => rfl) rfl List.length_append ?_
    rw [hw]
    exact Nat.le_refl _
  | apply w task book hw hb => exact work_apply hw hb (htasks.taken w task (by rw [hw]; rfl)) rfl
  | unlock w task result hw =>
    refine work_of_move 0 0 (w := w) (s := .finishing result.fills result.executionReports result.fills) rfl (fun _ => rfl)
      rfl rfl ?_
    rw [hw]
    simp only [Worker.work]
    omega
  | logFill w entry fill fills reports trades hw =>
    refine work_of_move 0 1 (w := w) (s := .finishing fills reports trades) rfl (fun _ => rfl) rfl List.length_append ?_
    rw [hw]
    simp only [Worker.work, List.length_cons]
    omega
  | publishReport w report reports trades hw =>
    refine work_of_move 0 0 (w := w) (s := .finishing [] reports trades) rfl (fun _ => rfl) rfl rfl ?_
    rw [hw]
    simp only [Worker.work, List.length_cons]
    omega
  | publishTrade w fill trades hw =>
    refine work_of_move 0 0 (w := w) (s := .finishing [] [] trades) rfl (fun _ => rfl) rfl rfl ?_
    rw [hw]
    simp only [Worker.work, List.length_cons]
    omega
  | finish w hw =>
    refine work_of_move 0 0 (w := w) (s := .idle) rfl (fun _ => rfl) rfl rfl ?_
    rw [hw]
    exact Nat.le_refl _
  | flush wal hf =>
    have hqueue : p.wal.queue.length = wal.queue.length + 1 := by
      rw [WAL.flush] at hf
      split at hf
      next => cases hf
      next entry queue hq =>
        cases hf
        rw [hq, List.length_cons]
    show 1 + work symbols { p with wal := wal } ≤ work symbols p
    simp only [work]
    omega

/-! ## Nobody waits forever -/

omit [Fintype W]

/-- The holder of a lock is at work on its book, and a book that has been looked up is there. -/
structure Unblocked (p : ThreadPool W) : Prop where
  locks : ∀ symbol w, p.locks symbol = some w → (p.workers w).holds = some symbol
  books : ∀ w symbol, (p.workers w).book = some symbol → p.registry symbol ≠ none

omit [DecidableEq W] in
theorem start_unblocked (env : Env) : (start W env).Unblocked := by
  constructor
  · rintro symbol w ⟨⟩
  · rintro w symbol ⟨⟩

/-- A worker moves on; the locks that it holds stay its own. -/
theorem Unblocked.move (h : p.Unblocked) {w : W} {s : Worker} (hworkers : p'.workers = (p.move w s).workers)
    (hlocks : ∀ symbol w', p'.locks symbol = some w' → if w' = w then s.holds = some symbol else p.locks symbol = some w')
    (hregistry : ∀ symbol, p.registry symbol ≠ none → p'.registry symbol ≠ none)
    (hbook : ∀ symbol, s.book = some symbol → p'.registry symbol ≠ none) : p'.Unblocked := by
  constructor
  · intro symbol w' hl
    have hholder := hlocks symbol w' hl
    rw [hworkers]
    by_cases hw : w' = w
    · rw [if_pos hw] at hholder
      rw [hw, move_self]
      exact hholder
    · rw [if_neg hw] at hholder
      rw [move_of_ne hw]
      exact h.locks symbol w' hholder
  · intro w' symbol hs
    rw [hworkers] at hs
    by_cases hw : w' = w
    · rw [hw, move_self] at hs
      exact hbook symbol hs
    · rw [move_of_ne hw] at hs
      exact hregistry symbol (h.books w' symbol hs)

/-- The same where no lock changes hands. -/
theorem Unblocked.quiet (h : p.Unblocked) {w : W} {s : Worker} (hworkers : p'.workers = (p.move w s).workers)
    (hlocks : p'.locks = p.locks) (hholds : s.holds = (p.workers w).holds)
    (hregistry : ∀ symbol, p.registry symbol ≠ none → p'.registry symbol ≠ none)
    (hbook : ∀ symbol, s.book = some symbol → p'.registry symbol ≠ none) : p'.Unblocked := by
  refine h.move hworkers (fun symbol w' hl => ?_) hregistry hbook
  rw [hlocks] at hl
  split
  next hw =>
    rw [hholds, ← hw]
    exact h.locks symbol w' hl
  next => exact hl

theorem Unblocked.step {a : PoolAction W} (hs : p.step a = some p') (h : p.Unblocked) : p'.Unblocked := by
  have hsame : ∀ symbol, p.registry symbol ≠ none → p.registry symbol ≠ none := fun _ => id
  cases steps hs with
  | submit task hlen => exact ⟨h.locks, h.books⟩
  | dequeue w task tasks hw ht =>
    exact h.quiet (w := w) (s := .got task) rfl rfl (by rw [hw]; rfl) hsame (by rintro _ ⟨⟩)
  | getOrderBook w task hw =>
    refine h.quiet (w := w) (s := .found task) rfl rfl (by rw [hw]; rfl)
      (fun _ => BookRegistry.getOrderBook_ne_none) ?_
    rintro _ ⟨⟩
    show (p.registry.getOrderBook task.symbol).2 task.symbol ≠ none
    rw [BookRegistry.getOrderBook_self]
    exact Option.some_ne_none _
  | lock w task hw hl =>
    refine h.move (w := w) (s := .locked task) rfl (fun symbol w' hlock => ?_) hsame
      (fun symbol hbook => h.books w symbol (by rw [hw]; exact hbook))
    replace hlock : Function.update p.locks task.symbol (some w) symbol = some w' := hlock
    by_cases hsymbol : symbol = task.symbol
    · subst hsymbol
      rw [Function.update_self] at hlock
      rw [if_pos (Option.some.inj hlock).symm]
      rfl
    · rw [Function.update_of_ne hsymbol] at hlock
      rw [if_neg]
      · exact hlock
      · rintro rfl
        have hholds := h.locks symbol w' hlock
        rw [hw] at hholds
        cases hholds
  | log w entry net task hw =>
    exact h.quiet (w := w) (s := .logged task) rfl rfl (by rw [hw]; rfl) hsame
      (fun symbol hbook => h.books w symbol (by rw [hw]; exact hbook))
  | apply w task book hw hb =>
    refine h.quiet (w := w) (s := .applied task _) rfl rfl (by rw [hw]; rfl) (fun symbol hsome => ?_) (by rintro _ ⟨⟩)
    show p.registry.set task.symbol _ symbol ≠ none
    by_cases hsymbol : symbol = task.symbol
    · rw [hsymbol, BookRegistry.set_self]
      exact Option.some_ne_none _
    · rwa [BookRegistry.set_of_ne hsymbol]
  | unlock w task result hw =>
    refine h.move (w := w) (s := .finishing _ _ _) rfl (fun symbol w' hlock => ?_) hsame (by rintro _ ⟨⟩)
    replace hlock : Function.update p.locks task.symbol none symbol = some w' := hlock
    by_cases hsymbol : symbol = task.symbol
    · rw [hsymbol, Function.update_self] at hlock
      cases hlock
    · rw [Function.update_of_ne hsymbol] at hlock
      rw [if_neg]
      · exact hlock
      · rintro rfl
        have hholds := h.locks symbol w' hlock
        rw [hw] at hholds
        exact hsymbol (Option.some.inj hholds).symm
  | logFill w entry fill fills reports trades hw =>
    exact h.quiet (w := w) (s := .finishing fills reports trades) rfl rfl (by rw [hw]; rfl) hsame (by rintro _ ⟨⟩)
  | publishReport w report reports trades hw =>
    exact h.quiet (w := w) (s := .finishing [] reports trades) rfl rfl (by rw [hw]; rfl) hsame (by rintro _ ⟨⟩)
  | publishTrade w fill trades hw =>
    exact h.quiet (w := w) (s := .finishing [] [] trades) rfl rfl (by rw [hw]; rfl) hsame (by rintro _ ⟨⟩)
  | finish w hw => exact h.quiet (w := w) (s := .idle) rfl rfl (by rw [hw]; rfl) hsame (by rintro _ ⟨⟩)
  | flush wal hf => exact ⟨h.locks, h.books⟩

/-- A worker that holds a lock can go on. -/
theorem Unblocked.holder_steps (h : p.Unblocked) {w : W} {symbol : Symbol} (hw : (p.workers w).holds = some symbol) :
    ∃ a : PoolAction W, a.isWork ∧ (p.step a).isSome := by
  cases hs : p.workers w with
  | locked task => exact ⟨.log w ⟨0, .replicate 52 0⟩ ⟨0, .replicate 8 0, 0, 0, 0, 0, 0⟩, rfl, by simp [ThreadPool.step, hs]⟩
  | logged task =>
    obtain ⟨book, hb⟩ := Option.ne_none_iff_exists'.1 (h.books w task.symbol (by rw [hs]; rfl))
    exact ⟨.apply w, rfl, by simp [ThreadPool.step, hs, hb]⟩
  | applied task result => exact ⟨.unlock w, rfl, by simp [ThreadPool.step, hs]⟩
  | _ =>
    rw [hs] at hw
    cases hw

/-- A worker that is not idle can go on, or another one can. -/
theorem Unblocked.worker_steps (h : p.Unblocked) {w : W} (hw : p.workers w ≠ .idle) :
    ∃ a : PoolAction W, a.isWork ∧ (p.step a).isSome := by
  cases hs : p.workers w with
  | idle => exact absurd hs hw
  | got task => exact ⟨.getOrderBook w, rfl, by simp [ThreadPool.step, hs]⟩
  | found task =>
    cases hl : p.locks task.symbol with
    | none => exact ⟨.lock w, rfl, by simp [ThreadPool.step, hs, hl]⟩
    | some holder => exact h.holder_steps (h.locks task.symbol holder hl)
  | locked task => exact h.holder_steps (w := w) (by rw [hs]; rfl)
  | logged task => exact h.holder_steps (w := w) (by rw [hs]; rfl)
  | applied task result => exact h.holder_steps (w := w) (by rw [hs]; rfl)
  | finishing fills reports trades =>
    cases fills with
    | cons fill fills => exact ⟨.logFill w ⟨0, .replicate 52 0⟩, rfl, by simp [ThreadPool.step, hs]⟩
    | nil =>
      cases reports with
      | cons report reports => exact ⟨.publishReport w, rfl, by simp [ThreadPool.step, hs]⟩
      | nil =>
        cases trades with
        | cons fill trades => exact ⟨.publishTrade w, rfl, by simp [ThreadPool.step, hs]⟩
        | nil => exact ⟨.finish w, rfl, by simp [ThreadPool.step, hs]⟩

/-- Where nobody can go on, everything is done. -/
theorem Unblocked.drained [Nonempty W] (h : p.Unblocked) (hstuck : ∀ a : PoolAction W, a.isWork → p.step a = none) :
    p.tasks = [] ∧ p.Drained := by
  have hidle : ∀ w, p.workers w = .idle := by
    intro w
    by_contra hw
    obtain ⟨a, ha, hs⟩ := h.worker_steps hw
    rw [hstuck a ha] at hs
    cases hs
  refine ⟨?_, hidle, ?_⟩
  · obtain ⟨w⟩ := ‹Nonempty W›
    have hdequeue := hstuck (.dequeue w) rfl
    cases ht : p.tasks with
    | nil => rfl
    | cons task tasks => simp [ThreadPool.step, hidle w, ht] at hdequeue
  · have hflush := hstuck .flush rfl
    cases hq : p.wal.queue with
    | nil => rfl
    | cons entry queue => simp [ThreadPool.step, WAL.flush, hq] at hflush

omit [DecidableEq W] in
/-- A pool just started has nothing to do. -/
theorem start_work [Fintype W] (symbols : Finset Symbol) (env : Env) : (start W env).work symbols = 0 := by
  simp [work, start, Worker.work, bookWork, BookRegistry.empty]

/-- The steps of a run are paid for by its tasks. -/
theorem run_work [Fintype W] {symbols : Finset Symbol} {env : Env} {actions : List (PoolAction W)}
    (hsymbols : ∀ a ∈ actions, a.Within symbols) (hrun : Machine.run step (start W env) actions = some p) :
    actions.countP PoolAction.isWork + p.work symbols ≤ 14 * actions.countP fun a => !a.isWork := by
  have hbound := Machine.run_potential (I := fun p => p.AllTasks fun task => task.symbol ∈ symbols) (work symbols)
    PoolAction.isWork (fun a => !a.isWork) 14 (fun s a s' ha hs htasks => ?_) (fun s a s' hs htasks => ?_) actions _ p
    hsymbols hrun (start_allTasks _ env)
  · rwa [start_work, Nat.zero_add] at hbound
  · refine htasks.step hs ?_
    rintro task rfl
    exact ha task.symbol rfl
  · have hstep := step_work hs htasks
    cases hwork : a.isWork with
    | true => simpa [hwork] using hstep
    | false => simpa [hwork] using hstep

/-- Whatever the interleaving, the workers and the flush thread take at most fourteen steps for each task handed in, and
when none of them can go on, the queue of tasks is empty, every worker is idle and the log is written: the pool neither
deadlocks nor runs on. -/
theorem pool_finishes [Fintype W] [Nonempty W] (env : Env) (actions : List (PoolAction W)) (p : ThreadPool W)
    (hrun : Machine.run step (start W env) actions = some p) :
    actions.countP PoolAction.isWork ≤ 14 * actions.countP (fun a => !a.isWork) ∧
      ((∀ a : PoolAction W, a.isWork → p.step a = none) → p.tasks = [] ∧ p.Drained) := by
  classical
  have hunblocked : p.Unblocked := Machine.run_invariant
    (fun _ _ _ (_ : True) => Unblocked.step) actions _ p (fun _ _ => trivial) hrun (start_unblocked env)
  refine ⟨?_, hunblocked.drained⟩
  have hsymbols : ∀ a ∈ actions, a.Within (actions.filterMap PoolAction.symbol).toFinset :=
    fun a ha symbol hs => List.mem_toFinset.2 (List.mem_filterMap.2 ⟨a, ha, hs⟩)
  exact Nat.le_of_add_right_le (run_work hsymbols hrun)

/-- Two workers and the flush thread take thirty steps for three tasks. -/
theorem pool_finishes_interleaved : ∃ p, Machine.run step (start Bool ⟨1, fun _ => 0, 0⟩) interleaved = some p ∧
    interleaved.countP PoolAction.isWork = 30 ∧ interleaved.countP PoolAction.isWork ≤ 14 * 3 ∧
    ((∀ a : PoolAction Bool, a.isWork → p.step a = none) → p.tasks = [] ∧ p.Drained) := by
  have hsome : (Machine.run step (start Bool ⟨1, fun _ => 0, 0⟩) interleaved).isSome := by decide
  obtain ⟨p, hrun⟩ := Option.isSome_iff_exists.1 hsome
  obtain ⟨hcount, hdone⟩ := pool_finishes ⟨1, fun _ => 0, 0⟩ interleaved p hrun
  exact ⟨p, hrun, by decide, hcount, hdone⟩

end ThreadPool

end StockExchange
