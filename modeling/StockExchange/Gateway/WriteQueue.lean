/-
The write side of a session (`gateway/session.hpp`). `send_execution_report` posts a handler that builds the frame of
the report and queues it; a write is started when the queue was empty, and by the completion handler of the write
before. All handlers are run by one thread, in any order of posts, completions and errors. There is never more than
one write, of the buffer at the front of the queue, and the bytes on the wire are the frames in posting order.
-/
import StockExchange.Gateway.Session
import StockExchange.Lib.Machine

namespace StockExchange

open Packed BinarySerializer

/-- An element of `write_queue_`: its address and its bytes. -/
structure Buffer where
  addr : ℕ
  bytes : List UInt8

/-- An `async_write` whose completion handler has not run yet, with the number of bytes sent so far. -/
structure Write where
  buffer : Buffer
  sent : ℕ

/-- The write side of a session. -/
structure Writer where
  /-- The handlers that have been posted and not run. -/
  posted : List ExecutionReport := []
  writeQueue : List Buffer := []
  writes : List Write := []
  /-- The bytes sent. -/
  wire : List UInt8 := []
  /-- The bytes of the writes that have completed. -/
  completed : List UInt8 := []
  /-- A write has failed. -/
  failed : Bool := false
  nextAddr : ℕ := 0
  /-- All reports posted and all frames built, in order. Nothing reads them. -/
  calls : List ExecutionReport := []
  frames : List (List UInt8) := []

inductive WriteAction
  /-- Some thread calls `send_execution_report`. -/
  | post (report : ExecutionReport)
  /-- The next posted handler runs; `net` is its uninitialised local struct. -/
  | handle (net : NetExecutionReport)
  /-- A write sends some more bytes. -/
  | transfer (i n : ℕ)
  /-- The completion handler of a write runs, without an error or with one. -/
  | complete (i : ℕ)
  | fail (i : ℕ)

namespace Writer

/-- The buffer that the posted handler builds. -/
def frame (net : NetExecutionReport) (report : ExecutionReport) : List UInt8 :=
  MsgHeader.packed.put ⟨MsgType.executionReport, UInt16.ofNat NetExecutionReport.packed.size⟩ ++
    NetExecutionReport.packed.put (reportToNet net report)

/-- `write_next`. -/
def writeNext (s : Writer) : Writer :=
  match s.writeQueue with
  | [] => s
  | buffer :: _ => { s with writes := s.writes ++ [⟨buffer, 0⟩] }

/-- The posted handler up to `write_queue_.push`. -/
def push (s : Writer) (posted : List ExecutionReport) (bytes : List UInt8) : Writer :=
  { s with
    posted := posted
    writeQueue := s.writeQueue ++ [⟨s.nextAddr, bytes⟩]
    nextAddr := s.nextAddr + 1
    frames := s.frames ++ [bytes] }

/-- The completion handler up to `write_queue_.pop`. -/
def pop (s : Writer) (i : ℕ) (bytes : List UInt8) : Writer :=
  { s with writes := s.writes.eraseIdx i, completed := s.completed ++ bytes, writeQueue := s.writeQueue.tail }

def step (s : Writer) : WriteAction → Option Writer
  | .post report => some { s with posted := s.posted ++ [report], calls := s.calls ++ [report] }
  | .handle net =>
    match s.posted with
    | [] => none
    | report :: posted =>
      let writeInProgress := !s.writeQueue.isEmpty
      let s := s.push posted (frame net report)
      some (if !writeInProgress then s.writeNext else s)
  | .transfer i n =>
    match s.writes[i]? with
    | none => none
    | some w =>
      if w.sent + n ≤ w.buffer.bytes.length then
        some { s with
          wire := s.wire ++ (w.buffer.bytes.drop w.sent).take n
          writes := s.writes.set i { w with sent := w.sent + n } }
      else none
  | .complete i =>
    match s.writes[i]? with
    | none => none
    | some w =>
      -- a write completes only after all its bytes are sent
      if w.sent = w.buffer.bytes.length then
        let s := s.pop i w.buffer.bytes
        some (if !s.writeQueue.isEmpty then s.writeNext else s)
      else none
  | .fail i =>
    match s.writes[i]? with
    | none => none
    | some _ => some { s with writes := s.writes.eraseIdx i, failed := true }

/-- What is being written: nothing, and nothing is queued; the front of the queue; or, after an error, nothing more,
with the front of the queue sent in part. -/
inductive Writing (s : Writer) : Prop
  | idle (hwrites : s.writes = []) (hqueue : s.writeQueue = []) (hwire : s.wire = s.completed) (hfailed : s.failed = false)
  | busy (b : Buffer) (rest : List Buffer) (n : ℕ) (hwrites : s.writes = [⟨b, n⟩]) (hqueue : s.writeQueue = b :: rest)
    (hwire : s.wire = s.completed ++ b.bytes.take n) (hfailed : s.failed = false)
  | stopped (b : Buffer) (rest : List Buffer) (n : ℕ) (hwrites : s.writes = []) (hqueue : s.writeQueue = b :: rest)
    (hwire : s.wire = s.completed ++ b.bytes.take n) (hfailed : s.failed = true)

/-- The reports are handled in the order of their posts, and the frames leave the queue in the order they entered it. -/
structure Queued (s : Writer) : Prop where
  handled : ∃ handled, s.calls = handled ++ s.posted ∧
    List.Forall₂ (fun report bytes => ∃ net, bytes = frame net report) handled s.frames
  queued : ∃ done, s.frames = done ++ s.writeQueue.map Buffer.bytes ∧ s.completed = done.flatten
  distinct : (s.writeQueue.map Buffer.addr).Nodup
  fresh : ∀ b ∈ s.writeQueue, b.addr < s.nextAddr

variable {s s' : Writer}

/-! ## The queue -/

theorem Queued.push (h : s.Queued) {report : ExecutionReport} {posted : List ExecutionReport}
    (hposted : s.posted = report :: posted) (net : NetExecutionReport) : (s.push posted (frame net report)).Queued := by
  obtain ⟨handled, hcalls, hframes⟩ := h.handled
  obtain ⟨done, hqueue, hdone⟩ := h.queued
  refine ⟨⟨handled ++ [report], ?_, ?_⟩, ⟨done, ?_, hdone⟩, ?_, fun b hb => ?_⟩
  · show s.calls = handled ++ [report] ++ posted
    rw [hcalls, hposted, List.append_assoc, List.singleton_append]
  · refine List.rel_append hframes ?_
    exact .cons ⟨net, rfl⟩ .nil
  · show s.frames ++ [frame net report] = done ++ (s.writeQueue ++ [_]).map Buffer.bytes
    rw [hqueue, List.map_append, List.append_assoc]
    rfl
  · show (List.map Buffer.addr (s.writeQueue ++ [⟨s.nextAddr, frame net report⟩])).Nodup
    rw [List.map_append, List.nodup_append]
    refine ⟨h.distinct, List.nodup_singleton _, fun a ha a' ha' => ?_⟩
    obtain ⟨b, hb, rfl⟩ := List.mem_map.1 ha
    rw [List.mem_singleton.1 ha']
    exact Nat.ne_of_lt (h.fresh b hb)
  · rcases List.mem_append.1 hb with hb | hb
    · exact Nat.lt_succ_of_lt (h.fresh b hb)
    · rw [List.mem_singleton.1 hb]
      exact Nat.lt_succ_self _

theorem Queued.pop (h : s.Queued) {b : Buffer} {rest : List Buffer} (hq : s.writeQueue = b :: rest) (i : ℕ) :
    (s.pop i b.bytes).Queued := by
  obtain ⟨done, hqueue, hdone⟩ := h.queued
  have hrest : (s.pop i b.bytes).writeQueue = rest := by
    show s.writeQueue.tail = rest
    rw [hq, List.tail_cons]
  have hdistinct := h.distinct
  rw [hq, List.map_cons, List.nodup_cons] at hdistinct
  refine ⟨h.handled, ⟨done ++ [b.bytes], ?_, ?_⟩, ?_, fun b' hb' => h.fresh b' ?_⟩
  · rw [hrest]
    show s.frames = _
    rw [hqueue, hq, List.map_cons, List.append_assoc, List.singleton_append]
  · show s.completed ++ b.bytes = _
    rw [hdone, List.flatten_append, List.flatten_singleton]
  · rw [hrest]
    exact hdistinct.2
  · rw [hrest] at hb'
    rw [hq]
    exact List.mem_cons_of_mem _ hb'

/-- Starting a write does not touch the queue. -/
theorem Queued.writeNext (h : s.Queued) : s.writeNext.Queued := by
  unfold Writer.writeNext
  split
  · exact h
  · exact ⟨h.handled, h.queued, h.distinct, h.fresh⟩

/-! ## The writes -/

/-- A write is started on the front of the queue. -/
theorem writeNext_writing {b : Buffer} {rest : List Buffer} (hwrites : s.writes = []) (hqueue : s.writeQueue = b :: rest)
    (hwire : s.wire = s.completed) (hfailed : s.failed = false) : s.writeNext.Writing := by
  have hnext : s.writeNext = { s with writes := s.writes ++ [⟨b, 0⟩] } := by
    unfold writeNext
    rw [hqueue]
  rw [hnext]
  refine .busy b rest 0 ?_ hqueue ?_ hfailed
  · show s.writes ++ _ = _
    rw [hwrites, List.nil_append]
  · show s.wire = _
    rw [hwire, List.take_zero, List.append_nil]

/-- The one write that is outstanding. -/
theorem Writing.front (h : s.Writing) {i : ℕ} {w : Write} (hw : s.writes[i]? = some w) :
    i = 0 ∧ s.writes = [w] ∧ s.failed = false ∧ s.wire = s.completed ++ w.buffer.bytes.take w.sent ∧
      ∃ rest, s.writeQueue = w.buffer :: rest := by
  cases h with
  | idle hwrites hqueue hwire hfailed =>
    rw [hwrites] at hw
    cases hw
  | busy b rest n hwrites hqueue hwire hfailed =>
    rw [hwrites] at hw
    cases i with
    | zero =>
      cases hw
      exact ⟨rfl, hwrites, hfailed, hwire, rest, hqueue⟩
    | succ i => cases hw
  | stopped b rest n hwrites hqueue hwire hfailed =>
    rw [hwrites] at hw
    cases hw

/-- The posted handler starts a write exactly if none is outstanding and none has failed. -/
theorem Writing.handle (h : s.Writing) (posted : List ExecutionReport) (bytes : List UInt8) :
    (if s.writeQueue.isEmpty then (s.push posted bytes).writeNext else s.push posted bytes).Writing := by
  cases h with
  | idle hwrites hqueue hwire hfailed =>
    rw [if_pos (by rw [hqueue]; rfl)]
    have hpushed : (s.push posted bytes).writeQueue = [⟨s.nextAddr, bytes⟩] := by
      show s.writeQueue ++ [_] = _
      rw [hqueue, List.nil_append]
    exact writeNext_writing hwrites hpushed hwire hfailed
  | busy b rest n hwrites hqueue hwire hfailed =>
    rw [if_neg (by rw [hqueue]; exact Bool.false_ne_true)]
    refine .busy b (rest ++ [⟨s.nextAddr, bytes⟩]) n hwrites ?_ hwire hfailed
    show s.writeQueue ++ [_] = _
    rw [hqueue, List.cons_append]
  | stopped b rest n hwrites hqueue hwire hfailed =>
    rw [if_neg (by rw [hqueue]; exact Bool.false_ne_true)]
    refine .stopped b (rest ++ [⟨s.nextAddr, bytes⟩]) n hwrites ?_ hwire hfailed
    show s.writeQueue ++ [_] = _
    rw [hqueue, List.cons_append]

/-- The completion handler takes the written buffer from the queue and starts the write of the next one. -/
theorem Writing.complete (h : s.Writing) {i : ℕ} {w : Write} (hw : s.writes[i]? = some w)
    (hsent : w.sent = w.buffer.bytes.length) :
    (if !(s.pop i w.buffer.bytes).writeQueue.isEmpty then (s.pop i w.buffer.bytes).writeNext
      else s.pop i w.buffer.bytes).Writing := by
  obtain ⟨rfl, hwrites, hfailed, hwire, rest, hqueue⟩ := h.front hw
  have hnone : (s.pop 0 w.buffer.bytes).writes = [] := by
    show s.writes.eraseIdx 0 = []
    rw [hwrites]
    rfl
  have hrest : (s.pop 0 w.buffer.bytes).writeQueue = rest := by
    show s.writeQueue.tail = rest
    rw [hqueue, List.tail_cons]
  have hsame : (s.pop 0 w.buffer.bytes).wire = (s.pop 0 w.buffer.bytes).completed := by
    show s.wire = s.completed ++ w.buffer.bytes
    rw [hwire, hsent, List.take_length]
  cases rest with
  | nil =>
    rw [if_neg (by rw [hrest]; exact Bool.false_ne_true)]
    exact .idle hnone hrest hsame hfailed
  | cons b rest =>
    rw [if_pos (by rw [hrest]; rfl)]
    exact writeNext_writing hnone hrest hsame hfailed

/-! ## Runs -/

/-- The step lemma. -/
theorem step_ordered {a : WriteAction} (hs : s.step a = some s') (hq : s.Queued) (hw : s.Writing) :
    s'.Queued ∧ s'.Writing := by
  cases a with
  | post report =>
    cases hs
    obtain ⟨handled, hcalls, hframes⟩ := hq.handled
    refine ⟨⟨⟨handled, ?_, hframes⟩, hq.queued, hq.distinct, hq.fresh⟩, ?_⟩
    · show s.calls ++ [report] = handled ++ (s.posted ++ [report])
      rw [hcalls, List.append_assoc]
    · cases hw with
      | idle hwrites hqueue hwire hfailed => exact .idle hwrites hqueue hwire hfailed
      | busy b rest n hwrites hqueue hwire hfailed => exact .busy b rest n hwrites hqueue hwire hfailed
      | stopped b rest n hwrites hqueue hwire hfailed => exact .stopped b rest n hwrites hqueue hwire hfailed
  | handle net =>
    simp only [step, Bool.not_not] at hs
    split at hs
    next => cases hs
    next report posted hposted =>
      cases hs
      have hpush := hq.push hposted net
      refine ⟨?_, hw.handle posted _⟩
      split
      · exact hpush.writeNext
      · exact hpush
  | transfer i n =>
    simp only [step] at hs
    split at hs
    next => cases hs
    next w hi =>
      split at hs
      next hn =>
        cases hs
        obtain ⟨rfl, hwrites, hfailed, hwire, rest, hqueue⟩ := hw.front hi
        refine ⟨⟨hq.handled, hq.queued, hq.distinct, hq.fresh⟩, ?_⟩
        refine .busy w.buffer rest (w.sent + n) ?_ hqueue ?_ hfailed
        · show s.writes.set 0 _ = _
          rw [hwrites]
          rfl
        · show s.wire ++ _ = _
          rw [hwire, List.append_assoc, ← List.take_add]
      next => cases hs
  | complete i =>
    simp only [step] at hs
    split at hs
    next => cases hs
    next w hi =>
      split at hs
      next hsent =>
        cases hs
        obtain ⟨rfl, hwrites, hfailed, hwire, rest, hqueue⟩ := hw.front hi
        have hpop := hq.pop hqueue 0
        refine ⟨?_, hw.complete hi hsent⟩
        split
        · exact hpop.writeNext
        · exact hpop
      next => cases hs
  | fail i =>
    simp only [step] at hs
    split at hs
    next => cases hs
    next w hi =>
      cases hs
      obtain ⟨rfl, hwrites, hfailed, hwire, rest, hqueue⟩ := hw.front hi
      refine ⟨⟨hq.handled, hq.queued, hq.distinct, hq.fresh⟩, .stopped w.buffer rest w.sent ?_ hqueue hwire rfl⟩
      show s.writes.eraseIdx 0 = []
      rw [hwrites]
      rfl

/-- The run lemma. -/
theorem run_ordered (actions : List WriteAction) (hrun : Machine.run step {} actions = some s) : s.Queued ∧ s.Writing := by
  have hstep : ∀ (s : Writer) (a : WriteAction) (s' : Writer), True → s.step a = some s' → s.Queued ∧ s.Writing →
      s'.Queued ∧ s'.Writing := fun s a s' _ hs h => step_ordered hs h.1 h.2
  refine Machine.run_invariant hstep actions _ s (fun _ _ => trivial) hrun ⟨⟨⟨[], rfl, .nil⟩, ⟨[], rfl, rfl⟩, ?_, ?_⟩, ?_⟩
  · exact List.nodup_nil
  · exact fun b hb => nomatch hb
  · exact .idle rfl rfl rfl rfl

/-- In every state, for every order of posts, handlers, completions and errors: at most one write is outstanding; until a
write fails, one is exactly if the queue is not empty; it is of the buffer at the front of the queue, whose buffers are all
different; the frames built are those of the reports in the order of their posts; what has been completed is the
first of them, and what has been sent is a part of all of them from the start. -/
theorem output_ordered (actions : List WriteAction) (s : Writer) (hrun : Machine.run step {} actions = some s) :
    s.writes.length ≤ 1 ∧ (s.failed = false → (s.writes ≠ [] ↔ s.writeQueue ≠ [])) ∧
      (∀ w ∈ s.writes, s.writeQueue.head? = some w.buffer) ∧ (s.writeQueue.map Buffer.addr).Nodup ∧
      List.Forall₂ (fun report bytes => ∃ net, bytes = frame net report) (s.calls.take s.frames.length) s.frames ∧
      (∃ k, s.completed = (s.frames.take k).flatten) ∧ s.wire <+: s.frames.flatten := by
  obtain ⟨hq, hw⟩ := run_ordered actions hrun
  obtain ⟨handled, hcalls, hframes⟩ := hq.handled
  obtain ⟨done, hqueue, hdone⟩ := hq.queued
  have htake : s.calls.take s.frames.length = handled := by
    rw [hcalls, ← hframes.length_eq, List.take_left]
  have hcompleted : ∃ k, s.completed = (s.frames.take k).flatten :=
    ⟨done.length, by rw [hqueue, List.take_left, hdone]⟩
  -- the wire: what is completed, and a part of the front of the queue
  have hwire : s.wire <+: s.frames.flatten := by
    rw [hqueue, List.flatten_append, ← hdone]
    cases hw with
    | idle hwrites hq' hwire hfailed =>
      rw [hwire]
      exact List.prefix_append ..
    | busy b rest n hwrites hq' hwire hfailed =>
      rw [hwire, hq', List.map_cons, List.flatten_cons, List.prefix_append_right_inj]
      exact (List.take_prefix n _).trans (List.prefix_append ..)
    | stopped b rest n hwrites hq' hwire hfailed =>
      rw [hwire, hq', List.map_cons, List.flatten_cons, List.prefix_append_right_inj]
      exact (List.take_prefix n _).trans (List.prefix_append ..)
  rw [htake]
  cases hw with
  | idle hwrites hq' _ hfailed =>
    rw [hwrites, hq']
    refine ⟨Nat.zero_le 1, fun _ => ?_, fun w hw => (nomatch hw), List.nodup_nil, hframes, hcompleted, hwire⟩
    simp
  | busy b rest n hwrites hq' _ hfailed =>
    refine ⟨?_, fun _ => ?_, fun w hw => ?_, hq.distinct, hframes, hcompleted, hwire⟩
    · rw [hwrites]
      exact Nat.le_refl 1
    · rw [hwrites, hq']
      simp
    · rw [hwrites, List.mem_singleton] at hw
      rw [hw, hq', List.head?_cons]
  | stopped b rest n hwrites hq' _ hfailed =>
    refine ⟨?_, fun hok => ?_, fun w hw => ?_, hq.distinct, hframes, hcompleted, hwire⟩
    · rw [hwrites]
      exact Nat.zero_le 1
    · rw [hfailed] at hok
      cases hok
    · rw [hwrites] at hw
      cases hw

/-- Two reports are posted, the first is sent and the second is being sent. -/
def twoReports : List WriteAction :=
  let net : NetExecutionReport := ⟨0, .replicate 8 0, 0, 0, 0, 0, 0, 0, 0, 0, .replicate 32 0⟩
  [.post { orderId := 1 }, .handle net, .post { orderId := 2 }, .transfer 0 50, .handle net, .transfer 0 40, .complete 0,
    .transfer 0 7]

theorem output_ordered_two : ∃ s, Machine.run step {} twoReports = some s ∧ s.wire.length = 97 ∧ s.writes.length ≤ 1 ∧
    s.wire <+: s.frames.flatten := by
  have hrun : (Machine.run step {} twoReports).any fun s => s.wire.length = 97 := by decide
  obtain ⟨s, hs, hlen⟩ := (Option.any_eq_true _ _).1 hrun
  obtain ⟨hone, -, -, -, -, -, hwire⟩ := output_ordered twoReports s hs
  exact ⟨s, hs, of_decide_eq_true hlen, hone, hwire⟩

end Writer

end StockExchange
