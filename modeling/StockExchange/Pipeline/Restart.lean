/-
Logging on after a crash. `WAL::start` opens the file in append mode, so new records begin right behind what the crash
has left of the old one, while the reader goes on in strides of a record from the start of the file. What was
logged after the restart is read back exactly if the cut lies between two records, apart from the chance that
the new bytes look the same from where the torn record begins.
-/
import StockExchange.Engine.ReplayEngine
import StockExchange.Lib.Machine

namespace StockExchange

namespace WAL

/-- A step of the log: a `log_...` call that finds room in the queue, or a turn of `flush_loop`. -/
inductive Action
  | log (entry : WALEntry)
  | flush

def step (wal : WAL) : Action → Option WAL
  | .log entry => some (wal.enqueue entry)
  | .flush => wal.flush

/-- `WAL::start` on a file that is there: it is opened in append mode. -/
def start (file : List UInt8) : WAL := { file := file }

/-- The entry that a step hands to the log. -/
def Action.entry : Action → Option WALEntry
  | .log entry => some entry
  | .flush => none

/-- In every state the file is the old one with the entries logged so far behind it, but for those still queued. -/
theorem run_file (file : List UInt8) (actions : List Action) (wal : WAL)
    (hrun : Machine.run step (start file) actions = some wal) :
    ∃ flushed : List WALEntry, wal.file = file ++ flushed.flatMap WALEntry.packed.put ∧
      flushed ++ wal.queue = actions.filterMap Action.entry := by
  let P (done : List Action) (wal : WAL) : Prop := ∃ flushed : List WALEntry,
    wal.file = file ++ flushed.flatMap WALEntry.packed.put ∧ flushed ++ wal.queue = done.filterMap Action.entry
  have hstep : ∀ done wal a wal', step wal a = some wal' → P done wal → P (done ++ [a]) wal' := by
    rintro done wal a wal' hs ⟨flushed, hfile, hqueue⟩
    cases a with
    | log entry =>
      cases hs
      refine ⟨flushed, hfile, ?_⟩
      rw [List.filterMap_append, ← hqueue, List.append_assoc]
      rfl
    | flush =>
      simp only [step, WAL.flush] at hs
      split at hs
      next => cases hs
      next entry queue hq =>
        cases hs
        refine ⟨flushed ++ [entry], ?_, ?_⟩
        · simp [hfile]
        · rw [List.filterMap_append, ← hqueue, hq]
          simp [Action.entry]
  exact Machine.run_induction hstep actions [] (start file) wal hrun ⟨[], by simp [start], rfl⟩

/-- Entries are written and a crash leaves the bytes of them up to some position; the log is started on this file, more
entries are logged and written. A replay reads the complete entries in front of the cut and then the new ones
exactly when the cut lies between two entries, or nothing was logged after it, or each of the new bytes is the same
as the one that stands as far in front of it as the torn entry is long. -/
theorem resumes_iff (written : List WALEntry) (cut : List UInt8) (hcut : cut <+: written.flatMap WALEntry.packed.put)
    (actions : List Action) (wal : WAL) (hrun : Machine.run step (start cut) actions = some wal) (hqueue : wal.queue = []) :
    WALEntry.packed.records wal.file =
        written.take (cut.length / WALEntry.packed.size) ++ actions.filterMap Action.entry ↔
      cut.length % WALEntry.packed.size = 0 ∨ actions.filterMap Action.entry = [] ∨
        (actions.filterMap Action.entry).flatMap WALEntry.packed.put <+:
          cut.drop (cut.length / WALEntry.packed.size * WALEntry.packed.size) ++
            (actions.filterMap Action.entry).flatMap WALEntry.packed.put := by
  have hsize : 0 < WALEntry.packed.size := by decide
  obtain ⟨flushed, hfile, hnew⟩ := run_file cut actions wal hrun
  rw [hqueue, List.append_nil] at hnew
  rw [← hnew, hfile]
  have hrest := WALEntry.packed.length_cut_rest cut
  have hiff := WALEntry.packed.records_behind_rest hsize (written.take (cut.length / WALEntry.packed.size)) flushed
    (hrest.trans_lt (Nat.mod_lt _ hsize))
  rw [← List.append_assoc, ← WALEntry.packed.cut_eq hsize written hcut] at hiff
  rw [hiff]
  constructor
  · exact fun h => .inr (.inr h)
  · rintro (hzero | hnil | h)
    · rw [List.length_eq_zero_iff.1 (hrest.trans hzero)]
      exact List.prefix_refl _
    · rw [hnil]
      exact List.nil_prefix
    · exact h

/-- The entry of an order for the symbol `A`. -/
def submitted (id : OrderID) : WALEntry :=
  WALEntry.ofRequest ⟨0, .replicate 52 0⟩ ⟨0, .replicate 8 0, 0, 0, 0, 0, 0⟩
    (.submit { orderId := id, symbol := [65], price := 10, quantity := 5, remainingQuantity := 5 })

/-- The crash leaves seven bytes of the entry of order 2, and order 3 is logged behind them: a replay does not come by it,
and the book it builds has order 1 alone. -/
theorem torn_entry_shifts : ∃ wal,
    Machine.run step (start (([submitted 1, submitted 2].flatMap WALEntry.packed.put).take 60))
      [.log (submitted 3), .flush] = some wal ∧ wal.queue = [] ∧
    WALEntry.packed.records wal.file ≠ [submitted 1, submitted 3] ∧
    ((ReplayEngine.replay [] wal.file .empty ⟨1, fun _ => 0, 0⟩).registry [65]).map
      (fun book => (book.nodes .buy).map fun n => n.order.orderId) = some [1] := by
  refine ⟨_, rfl, rfl, ?_, ?_⟩
  · decide +kernel
  · decide +kernel

/-- A cut right behind the entry of order 1. -/
theorem resumes_iff_between : ∃ wal,
    Machine.run step (start (([submitted 1, submitted 2].flatMap WALEntry.packed.put).take 53))
      [.log (submitted 3), .flush] = some wal ∧ WALEntry.packed.records wal.file = [submitted 1, submitted 3] := by
  refine ⟨_, rfl, ?_⟩
  exact (resumes_iff [submitted 1, submitted 2] _ (List.take_prefix 53 _) [.log (submitted 3), .flush] _ rfl rfl).2
    (.inl rfl)

end WAL

end StockExchange
