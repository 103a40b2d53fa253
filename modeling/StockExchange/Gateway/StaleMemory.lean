/-
What of the memory of uninitialised structs gets into encoded messages. `safe_strncpy` leaves the bytes behind the
terminator as they are, and a log entry is written whole although its member of the union may be shorter; so a report
or a fill is free of old memory exactly if its strings fill their arrays, and a logged request never is
(`bytes_clean_iff`).
-/
import StockExchange.Gateway.WriteQueue
import StockExchange.Pipeline.Wal

namespace StockExchange

open Packed BinarySerializer

/-! ## Copied strings -/

/-- A copied string covers all of its array exactly if it is long enough to be cut. -/
theorem safeStrncpy_clean_iff {n : ℕ} (src : Text) :
    (∀ dest dest' : Chars (n + 1), safeStrncpy dest src = safeStrncpy dest' src) ↔ n ≤ src.length := by
  have hval : ∀ dest : Chars (n + 1), (safeStrncpy dest src).1 =
      src.take (min src.length n) ++ 0 :: dest.1.drop (min src.length n + 1) := fun _ => rfl
  constructor
  · intro h
    have heq := congrArg Subtype.val (h (.replicate (n + 1) 0) (.replicate (n + 1) 1))
    rw [hval, hval, List.append_cancel_left_eq, List.cons.injEq] at heq
    have hdrop := heq.2
    simp only [Chars.replicate, List.drop_replicate, List.replicate_inj] at hdrop
    have hne : (0 : UInt8) ≠ 1 := by decide
    have hzero : n + 1 - (min src.length n + 1) = 0 := by
      rcases hdrop.2 with hzero | habs
      · exact hzero
      · exact absurd habs hne
    omega
  · intro h dest dest'
    refine Subtype.ext ?_
    have hnil : ∀ dest : Chars (n + 1), dest.1.drop (min src.length n + 1) = [] := by
      intro dest
      refine List.drop_eq_nil_of_le ?_
      rw [dest.2]
      omega
    rw [hval, hval, hnil, hnil]

/-! ## Messages -/

/-- What leaves the process: a report to a client, or a record of the log. -/
inductive Message
  | report (report : ExecutionReport)
  | request (request : Request)
  | fill (fill : Fill)

/-- The memory of the structs that the code leaves uninitialised. -/
structure Stale where
  report : NetExecutionReport
  order : NetOrder
  entry : WALEntry

/-- The bytes of a message: the buffer that `send_execution_report` queues, or the entry that `flush_loop` writes. -/
def Message.bytes (old : Stale) : Message → List UInt8
  | .report r => Writer.frame old.report r
  | .request r => WALEntry.packed.put (old.entry.ofRequest old.order r)
  | .fill f => WALEntry.packed.put (old.entry.ofFill f)

/-- The messages whose every byte is written. -/
def Message.Clean : Message → Prop
  | .report r => 7 ≤ r.symbol.length ∧ 31 ≤ r.rejectReason.length
  | .request _ => False
  | .fill f => 7 ≤ f.symbol.length

/-! ## Reports -/

theorem frame_inj {report : ExecutionReport} {net net' : NetExecutionReport} :
    Writer.frame net report = Writer.frame net' report ↔ reportToNet net report = reportToNet net' report := by
  unfold Writer.frame
  rw [List.append_cancel_left_eq]
  exact NetExecutionReport.packed.put_inj

theorem report_clean_iff (report : ExecutionReport) : (∀ net net', Writer.frame net report = Writer.frame net' report) ↔
    7 ≤ report.symbol.length ∧ 31 ≤ report.rejectReason.length := by
  simp only [frame_inj]
  constructor
  · intro h
    -- memory in which only the two arrays matter
    let net (symbol : Chars 8) (reason : Chars 32) : NetExecutionReport := ⟨0, symbol, 0, 0, 0, 0, 0, 0, 0, 0, reason⟩
    constructor
    · refine (safeStrncpy_clean_iff report.symbol).1 fun dest dest' => ?_
      exact congrArg NetExecutionReport.symbol (h (net dest (.replicate 32 0)) (net dest' (.replicate 32 0)))
    · refine (safeStrncpy_clean_iff report.rejectReason).1 fun dest dest' => ?_
      exact congrArg NetExecutionReport.rejectReason (h (net (.replicate 8 0) dest) (net (.replicate 8 0) dest'))
  · rintro ⟨hsymbol, hreason⟩ net net'
    unfold reportToNet
    rw [(safeStrncpy_clean_iff report.symbol).2 hsymbol net.symbol net'.symbol,
      (safeStrncpy_clean_iff report.rejectReason).2 hreason net.rejectReason net'.rejectReason]

/-! ## Records of the log -/

/-- A member that is shorter than the union leaves the rest of it as it was. -/
theorem WALData.write_drop {α : Type} (A : Packed α) (hA : A.size ≤ NetFill.packed.size) (a : α) (data : WALData) :
    (data.write A hA a).1.drop A.size = data.1.drop A.size := List.drop_left' (A.length_put a)

/-- The longest member leaves nothing as it was. -/
theorem WALData.write_fill (net : NetFill) (data data' : WALData) :
    data.write NetFill.packed (le_refl _) net = data'.write NetFill.packed (le_refl _) net := by
  have hnil : ∀ data : WALData, data.1.drop NetFill.packed.size = [] :=
    fun data => List.drop_eq_nil_of_le (Nat.le_of_eq data.2)
  refine Subtype.ext ?_
  show NetFill.packed.put net ++ data.1.drop _ = NetFill.packed.put net ++ data'.1.drop _
  rw [hnil, hnil]

/-- The size of the member of a request. -/
def Request.memberSize : Request → ℕ
  | .submit _ => NetOrder.packed.size
  | .cancel _ => NetCancel.packed.size
  | .modify _ => NetModify.packed.size

theorem WALEntry.ofRequest_drop (entry : WALEntry) (net : NetOrder) (r : Request) :
    (entry.ofRequest net r).data.1.drop r.memberSize = entry.data.1.drop r.memberSize := by
  cases r with
  | submit order => exact WALData.write_drop NetOrder.packed (by decide) _ _
  | cancel req => exact WALData.write_drop NetCancel.packed (by decide) _ _
  | modify req => exact WALData.write_drop NetModify.packed (by decide) _ _

/-- The last bytes of the entry of a request are those that were there before. -/
theorem request_not_clean (net : NetOrder) (r : Request) : ∃ entry entry' : WALEntry,
    WALEntry.packed.put (entry.ofRequest net r) ≠ WALEntry.packed.put (entry'.ofRequest net r) := by
  refine ⟨⟨0, .replicate _ 0⟩, ⟨0, .replicate _ 1⟩, fun h => ?_⟩
  have hdata := congrArg (fun e => e.data.1.drop r.memberSize) (WALEntry.packed.put_inj.1 h)
  simp only [WALEntry.ofRequest_drop, Chars.replicate, List.drop_replicate, List.replicate_inj] at hdata
  have hsize : r.memberSize < NetFill.packed.size := by
    cases r <;> (simp only [Request.memberSize]; decide)
  rcases hdata.2 with hzero | habs
  · omega
  · exact absurd habs (by decide)

/-- A fill takes all of the union, so only its symbol can leave a gap. -/
theorem fill_clean_iff (fill : Fill) : (∀ entry entry' : WALEntry,
    WALEntry.packed.put (entry.ofFill fill) = WALEntry.packed.put (entry'.ofFill fill)) ↔ 7 ≤ fill.symbol.length := by
  have hread : ∀ entry : WALEntry, (entry.ofFill fill).data.read NetFill.packed =
      { entry.data.read NetFill.packed with
        tradeId := fill.tradeId
        buyOrderId := fill.buyOrderId
        sellOrderId := fill.sellOrderId
        symbol := safeStrncpy (entry.data.read NetFill.packed).symbol fill.symbol
        price := fill.price
        quantity := fill.quantity
        timestamp := fill.timestamp } := fun entry => WALData.read_write _ (le_refl _) _ _
  constructor
  · intro h
    refine (safeStrncpy_clean_iff fill.symbol).1 fun dest dest' => ?_
    let entry (symbol : Chars 8) : WALEntry :=
      ⟨0, WALData.write NetFill.packed (le_refl _) ⟨0, 0, 0, symbol, 0, 0, 0⟩ (.replicate _ 0)⟩
    have hentry : ∀ symbol, ((entry symbol).data.read NetFill.packed).symbol = symbol :=
      fun symbol => congrArg NetFill.symbol (WALData.read_write _ (le_refl _) _ _)
    have heq := congrArg (fun e => (e.data.read NetFill.packed).symbol)
      (WALEntry.packed.put_inj.1 (h (entry dest) (entry dest')))
    simp only [hread, hentry] at heq
    exact heq
  · intro h entry entry'
    refine WALEntry.packed.put_inj.2 ?_
    unfold WALEntry.ofFill
    rw [(safeStrncpy_clean_iff fill.symbol).2 h (entry.data.read NetFill.packed).symbol
      (entry'.data.read NetFill.packed).symbol]
    exact congrArg (WALEntry.mk WALEventType.fill) (WALData.write_fill _ _ _)

/-- A message is the same bytes whatever was in memory exactly if every byte of it is written: never for a logged
request. -/
theorem bytes_clean_iff (m : Message) : (∀ old old', m.bytes old = m.bytes old') ↔ m.Clean := by
  let order : NetOrder := ⟨0, .replicate 8 0, 0, 0, 0, 0, 0⟩
  let entry : WALEntry := ⟨0, .replicate _ 0⟩
  let report : NetExecutionReport := ⟨0, .replicate 8 0, 0, 0, 0, 0, 0, 0, 0, 0, .replicate 32 0⟩
  cases m with
  | report r =>
    refine Iff.trans ?_ (report_clean_iff r)
    exact ⟨fun h net net' => h ⟨net, order, entry⟩ ⟨net', order, entry⟩, fun h old old' => h old.report old'.report⟩
  | request r =>
    refine ⟨fun h => ?_, False.elim⟩
    obtain ⟨e, e', hne⟩ := request_not_clean order r
    exact hne (h ⟨report, order, e⟩ ⟨report, order, e'⟩)
  | fill f =>
    refine Iff.trans ?_ (fill_clean_iff f)
    exact ⟨fun h e e' => h ⟨report, order, e⟩ ⟨report, order, e'⟩, fun h old old' => h old.entry old'.entry⟩

/-- The `New` report of an order for `AAPL`, and the log entry of the order, over memory of ones and over memory of
zeros. -/
theorem aapl_bytes_stale : ∃ old old' : Stale,
    (Message.report { orderId := 1, symbol := text "AAPL", price := 10, quantity := 5, remainingQuantity := 5 }).bytes old ≠
        (Message.report { orderId := 1, symbol := text "AAPL", price := 10, quantity := 5, remainingQuantity := 5 }).bytes
          old' ∧
      (Message.request (.submit { orderId := 1, symbol := text "AAPL", price := 10, quantity := 5 })).bytes old ≠
        (Message.request (.submit { orderId := 1, symbol := text "AAPL", price := 10, quantity := 5 })).bytes old' := by
  refine ⟨⟨⟨0, .replicate 8 255, 0, 0, 0, 0, 0, 0, 0, 0, .replicate 32 255⟩, ⟨0, .replicate 8 255, 0, 0, 0, 0, 0⟩,
    ⟨0, .replicate _ 255⟩⟩, ⟨⟨0, .replicate 8 0, 0, 0, 0, 0, 0, 0, 0, 0, .replicate 32 0⟩,
    ⟨0, .replicate 8 0, 0, 0, 0, 0, 0⟩, ⟨0, .replicate _ 0⟩⟩, ?_, ?_⟩ <;> decide

end StockExchange
