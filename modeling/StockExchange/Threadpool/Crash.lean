/-
Crashes. Whatever is left of the file, a replay reads the entries in front of the cut and nothing of the one that
the cut goes through. Those are a prefix of the log, so each book comes back as it was after some of the
operations that took its lock, in the order in which they took it.
-/
import StockExchange.Threadpool.LogOrder

universe u

namespace StockExchange

open History

/-! ## Books of operations -/

theorem Op.anonymous_anonymous (op : Op) : op.anonymous.anonymous = op.anonymous := by cases op <;> rfl

/-- The client ids of the operations do not matter to the book. -/
theorem run_anonymous (symbol : Symbol) (env : Env) (ops : List Op) :
    SameBook (run symbol env (ops.map Op.anonymous)).book.toBookState (run symbol env ops).book.toBookState := by
  induction ops using List.reverseRecOn with
  | nil => exact SameBook.refl _
  | append_singleton ops op ih =>
    rw [List.map_append, List.map_singleton, run_snoc, run_snoc]
    exact ih.apply_of_eq op.anonymous_anonymous _ _

theorem BuiltBy.of_anonymous {symbol : Symbol} {env : Env} {ops : List Op} {book : Option OrderBook}
    (h : BuiltBy symbol env (ops.map Op.anonymous) book) : BuiltBy symbol env ops book := by
  unfold BuiltBy at h ⊢
  by_cases hnil : ops = []
  · rw [if_pos hnil]
    rwa [if_pos (List.map_eq_nil_iff.2 hnil)] at h
  · rw [if_neg hnil]
    rw [if_neg fun h' => hnil (List.map_eq_nil_iff.1 h')] at h
    cases h with
    | some hb => exact .some (hb.trans (run_anonymous symbol env ops))

/-- The operations of tasks as a replay of the log sees them. -/
theorem opsOf_tasks (symbol : Symbol) : ∀ {tasks : List Task}, (∀ task ∈ tasks, task.Built) →
    opsOf symbol (tasks.map fun task => task.request.anonymous) =
      ((ofSymbol symbol tasks).map fun task => task.request.op).map Op.anonymous
  | [], _ => rfl
  | task :: tasks, h => by
    have ih := opsOf_tasks symbol fun t ht => h t (List.mem_cons_of_mem _ ht)
    have hsymbol : task.request.anonymous.symbol = task.symbol := by
      rw [Request.anonymous_symbol, (h task (List.mem_cons_self ..)).2]
    unfold opsOf ofSymbol at ih ⊢
    rw [List.map_cons, List.filter_cons, List.filter_cons, hsymbol]
    split
    · rw [List.map_cons, List.map_cons, List.map_cons, ih, Request.anonymous_op]
    · exact ih

/-! ## Cuts -/

/-- What a replay reads of a log that was cut off: the entries in front of the cut. -/
theorem WAL.Whole.records_cut {wal : WAL} (h : wal.Whole) {cut : List UInt8} (hcut : cut <+: wal.file) :
    WALEntry.packed.records cut = wal.entries.take (cut.length / WALEntry.packed.size) := by
  obtain ⟨written, hw⟩ := h
  rw [hw] at hcut
  have hle : cut.length / WALEntry.packed.size ≤ written.length := by
    refine Nat.div_le_of_le_mul ?_
    rw [Nat.mul_comm, ← Packed.length_flatMap_put]
    exact hcut.length_le
  rw [WALEntry.packed.records_of_prefix (by decide) written hcut, WAL.entries, hw, WAL.records_file,
    List.take_append_of_le_length hle]

namespace ThreadPool

variable {W : Type u} [DecidableEq W]

/-- The invariants that relate the log, the books and the history of a run. -/
structure Consistent (after : List UInt8) (env : Env) (s : ThreadPool W × History W) : Prop where
  tasks : s.1.AllTasks Task.Built
  recoverable : s.1.Recoverable after env
  order : LockOrder s.1 s.2

omit [DecidableEq W] in
theorem start_consistent (after : List UInt8) (env : Env) : Consistent after env (start W env, {}) :=
  ⟨start_allTasks Task.Built env, start_recoverable after env env, start_lockOrder env⟩

theorem Consistent.step {after : List UInt8} {env : Env} {s s' : ThreadPool W × History W} {a : PoolAction W}
    (ha : a.Built) (hs : tracedStep s a = some s') (h : Consistent after env s) : Consistent after env s' := by
  obtain ⟨p, g⟩ := s
  obtain ⟨p', g'⟩ := s'
  obtain ⟨hs, rfl⟩ := Machine.traced_eq_some.1 hs
  refine ⟨h.tasks.step hs ?_, h.recoverable.step hs h.tasks,
    h.order.step hs h.tasks h.recoverable.locks h.recoverable.whole⟩
  rintro task rfl
  exact ha

theorem run_consistent (after : List UInt8) (env : Env) {actions : List (PoolAction W)} {s : ThreadPool W × History W}
    (hbuilt : ∀ a ∈ actions, a.Built) (hrun : Machine.run tracedStep (start W env, {}) actions = some s) :
    Consistent after env s :=
  Machine.run_invariant (fun _ _ _ ha => Consistent.step ha) actions _ s hbuilt hrun (start_consistent after env)

/-- A crash at any point of any run, with any part of the last record written: a replay applies whole records only,
the first ones of the log, and each book comes back, up to client ids, as it is after a prefix of the operations that
took its lock, in the order in which they took it. -/
theorem crash_consistent (env env' : Env) (after : List UInt8) (actions : List (PoolAction W)) (p : ThreadPool W)
    (h : History W) (hbuilt : ∀ a ∈ actions, a.Built)
    (hrun : Machine.run tracedStep (start W env, {}) actions = some (p, h)) (cut : List UInt8) (hcut : cut <+: p.wal.file) :
    WALEntry.packed.records cut = p.wal.entries.take (cut.length / WALEntry.packed.size) ∧
    ∀ symbol, ∃ ops, ops <+: (ofSymbol symbol h.locked).map (fun task => task.request.op) ∧
      BuiltBy symbol env ops ((ReplayEngine.replay after cut .empty env').registry symbol) := by
  have hc := run_consistent after env hbuilt hrun
  have hrecords := hc.recoverable.whole.records_cut hcut
  refine ⟨hrecords, fun symbol => ?_⟩
  -- the requests read are the first ones logged
  have hread : ((WALEntry.packed.records cut).filterMap fun entry => entry.request after) <+:
      h.requests.map fun task => task.request.anonymous := by
    rw [← hc.order.history after, hrecords]
    exact (List.take_prefix _ _).filterMap _
  obtain ⟨k, hk⟩ : ∃ k, ((WALEntry.packed.records cut).filterMap fun entry => entry.request after) =
      (h.requests.take k).map fun task => task.request.anonymous := by
    have htake := List.prefix_iff_eq_take.1 hread
    rw [← List.map_take] at htake
    exact ⟨_, htake⟩
  refine ⟨(ofSymbol symbol (h.requests.take k)).map fun task => task.request.op, ?_, ?_⟩
  · refine List.IsPrefix.map _ ?_
    rw [hc.order.locked]
    exact ((List.take_prefix k h.requests).filter _).trans (List.prefix_append _ _)
  · refine BuiltBy.of_anonymous ?_
    rw [← opsOf_tasks symbol fun task ht => hc.order.built task (List.mem_of_mem_take ht), ← hk]
    unfold ReplayEngine.replay
    rw [ReplayEngine.foldl_turn]
    exact builtBy_foldl _ env _ symbol

/-- Two books, and a cut through the third of four records: the sell order comes back without the buy order that traded
with it, and the other book has seen its cancel. -/
theorem crash_consistent_interleaved : ∃ s,
    Machine.run tracedStep (start Bool ⟨1, fun _ => 0, 0⟩, {}) interleaved = some s ∧ s.1.wal.file.length = 212 ∧
      ∀ symbol, ∃ ops, ops <+: (ofSymbol symbol s.2.locked).map (fun task => task.request.op) ∧
        BuiltBy symbol ⟨1, fun _ => 0, 0⟩ ops
          ((ReplayEngine.replay [] (s.1.wal.file.take 150) .empty ⟨9, fun _ => 5, 0⟩).registry symbol) := by
  have hrun : (Machine.run tracedStep (start Bool ⟨1, fun _ => 0, 0⟩, {}) interleaved).any fun s =>
      s.1.wal.file.length = 212 := by decide +kernel
  obtain ⟨⟨p, h⟩, hs, hlen⟩ := (Option.any_eq_true _ _).1 hrun
  exact ⟨(p, h), hs, of_decide_eq_true hlen, (crash_consistent ⟨1, fun _ => 0, 0⟩ ⟨9, fun _ => 5, 0⟩ [] interleaved p h
    (by decide) hs _ (List.take_prefix 150 _)).2⟩

end ThreadPool

end StockExchange
