/-
The read loop of the client (`DemoClient` in `demo_main.cpp`) at the other end of a session's write side. The loop reads a
header, leaves if it is not that of an execution report, reads a report and counts it. In every interleaving of the
session's handlers, the bytes on the wire, the reads of the client and its `disconnect`, the client gets the reports in
the order in which they were posted, each once, and never leaves the loop because of a header.
-/
import StockExchange.Gateway.WriteQueue

namespace StockExchange

open Packed BinarySerializer

/-! ## The client -/

/-- Where the thread of `start_read_loop` is. -/
inductive LoopPhase
  /-- Before the test of `running_`. -/
  | test
  /-- In `asio::read`, with the bytes it has got so far. -/
  | header (got : List UInt8)
  | body (got : List UInt8)
  /-- The thread has ended: `running_` is false, the header is of another type, or a read has thrown. -/
  | stopped
  | unexpected
  | thrown
  deriving DecidableEq

structure DemoClient where
  running : Bool := true
  phase : LoopPhase := .test
  receivedCount : UInt32 := 0
  /-- The number of bytes taken from the wire. -/
  taken : ℕ := 0
  /-- The values of the local `report` that have been counted. Nothing reads them. -/
  reports : List NetExecutionReport := []

/-- The two ends of a connection. -/
structure ReportLink where
  writer : Writer := {}
  client : DemoClient := {}

inductive LinkAction
  | session (a : WriteAction)
  /-- The client tests `running_`. -/
  | test
  /-- The outstanding read gets some more bytes. -/
  | read (n : ℕ)
  /-- The outstanding read returns. -/
  | finish
  /-- The outstanding read throws. -/
  | error
  /-- Another thread calls `disconnect`. -/
  | disconnect

namespace DemoClient

/-- The outstanding read gets `n` of the bytes that are on the wire; `size` is the number it asks for. -/
def fill (size : ℕ) (got wire : List UInt8) (taken n : ℕ) : Option (List UInt8) :=
  if got.length + n ≤ size ∧ taken + n ≤ wire.length then some (got ++ (wire.drop taken).take n) else none

def step (c : DemoClient) (wire : List UInt8) : LinkAction → Option DemoClient
  | .session _ => none
  | .test =>
    match c.phase with
    | .test => some { c with phase := if c.running then .header [] else .stopped }
    | _ => none
  | .read n =>
    match c.phase with
    | .header got =>
      (fill MsgHeader.packed.size got wire c.taken n).map fun got => { c with phase := .header got, taken := c.taken + n }
    | .body got =>
      (fill NetExecutionReport.packed.size got wire c.taken n).map fun got =>
        { c with phase := .body got, taken := c.taken + n }
    | _ => none
  | .finish =>
    match c.phase with
    | .header got =>
      if got.length = MsgHeader.packed.size then
        let header := MsgHeader.packed.get got
        some { c with phase := if header.type ≠ MsgType.executionReport then .unexpected else .body [] }
      else none
    | .body got =>
      if got.length = NetExecutionReport.packed.size then
        some { c with
          phase := .test
          receivedCount := c.receivedCount + 1
          reports := c.reports ++ [NetExecutionReport.packed.get got] }
      else none
    | _ => none
  | .error =>
    match c.phase with
    | .header _ => some { c with phase := .thrown }
    | .body _ => some { c with phase := .thrown }
    | _ => none
  | .disconnect => some { c with running := false }

end DemoClient

namespace ReportLink

def step (s : ReportLink) : LinkAction → Option ReportLink
  | .session a => (s.writer.step a).map fun writer => { s with writer := writer }
  | a => (s.client.step s.writer.wire a).map fun client => { s with client := client }

end ReportLink

/-! ## The wire -/

namespace Writer

variable {s s' : Writer}

/-- The bytes of the header of every report. -/
def headerBytes : List UInt8 :=
  MsgHeader.packed.put ⟨MsgType.executionReport, UInt16.ofNat NetExecutionReport.packed.size⟩

/-- The bytes that are one report with its header. -/
def IsFrame (bytes : List UInt8) (net : NetExecutionReport) : Prop :=
  bytes = headerBytes ++ NetExecutionReport.packed.put net

@[simp] theorem length_headerBytes : headerBytes.length = 4 := rfl

/-- Starting a write adds nothing to the records. -/
theorem writeNext_records (t : Writer) : t.writeNext.frames = t.frames ∧ t.writeNext.wire = t.wire := by
  unfold writeNext
  split
  · exact ⟨rfl, rfl⟩
  · exact ⟨rfl, rfl⟩

/-- A handler only adds to what has been built and sent. -/
theorem step_grows {a : WriteAction} (hs : s.step a = some s') : s.frames <+: s'.frames ∧ s.wire <+: s'.wire := by
  cases a with
  | post report =>
    cases hs
    exact ⟨List.prefix_rfl, List.prefix_rfl⟩
  | handle net =>
    simp only [step] at hs
    split at hs
    next => cases hs
    next report posted hposted =>
      cases hs
      split
      · rw [(writeNext_records _).1, (writeNext_records _).2]
        exact ⟨List.prefix_append .., List.prefix_rfl⟩
      · exact ⟨List.prefix_append .., List.prefix_rfl⟩
  | transfer i n =>
    simp only [step] at hs
    split at hs
    next => cases hs
    next w hi =>
      split at hs
      next =>
        cases hs
        exact ⟨List.prefix_rfl, List.prefix_append ..⟩
      next => cases hs
  | complete i =>
    simp only [step] at hs
    split at hs
    next => cases hs
    next w hi =>
      split at hs
      next =>
        cases hs
        split
        · rw [(writeNext_records _).1, (writeNext_records _).2]
          exact ⟨List.prefix_rfl, List.prefix_rfl⟩
        · exact ⟨List.prefix_rfl, List.prefix_rfl⟩
      next => cases hs
  | fail i =>
    simp only [step] at hs
    split at hs
    next => cases hs
    next w hi =>
      cases hs
      exact ⟨List.prefix_rfl, List.prefix_rfl⟩

/-- What is on the wire is the frames from the start. -/
theorem wire_of_frames (hq : s.Queued) (hw : s.Writing) : s.wire <+: s.frames.flatten := by
  obtain ⟨done, hqueue, hdone⟩ := hq.queued
  rw [hqueue, List.flatten_append, ← hdone]
  -- in both cases with a front it has been sent in part
  have hfront : ∀ (b : Buffer) (rest : List Buffer) (n : ℕ), s.writeQueue = b :: rest →
      s.wire = s.completed ++ b.bytes.take n → s.wire <+: s.completed ++ (s.writeQueue.map Buffer.bytes).flatten := by
    intro b rest n hq' hwire
    rw [hwire, hq', List.map_cons, List.flatten_cons, List.prefix_append_right_inj]
    exact (List.take_prefix n _).trans (List.prefix_append ..)
  cases hw with
  | idle hwrites hq' hwire hfailed =>
    rw [hwire]
    exact List.prefix_append ..
  | busy b rest n hwrites hq' hwire hfailed => exact hfront b rest n hq' hwire
  | stopped b rest n hwrites hq' hwire hfailed => exact hfront b rest n hq' hwire

theorem Queued.isFrame (h : s.Queued) : ∀ bytes ∈ s.frames, ∃ net, IsFrame bytes net := by
  obtain ⟨handled, -, hframes⟩ := h.handled
  refine List.forall_iff_forall_mem.1 ?_
  generalize s.frames = frames at hframes ⊢
  induction hframes with
  | nil => trivial
  | @cons report bytes _ _ hbytes _ ih =>
    obtain ⟨net, rfl⟩ := hbytes
    exact (List.forall_cons ..).2 ⟨⟨reportToNet net report, rfl⟩, ih⟩

theorem IsFrame.length_eq {bytes : List UInt8} {net : NetExecutionReport} (h : IsFrame bytes net) : bytes.length = 90 := by
  rw [h, List.length_append, NetExecutionReport.packed.length_put]
  rfl

/-- The frame tells the report it holds. -/
theorem IsFrame.inj {bytes : List UInt8} {net net' : NetExecutionReport} (h : IsFrame bytes net) (h' : IsFrame bytes net') :
    net = net' := by
  have hput : NetExecutionReport.packed.put net = NetExecutionReport.packed.put net' :=
    List.append_cancel_left (h.symm.trans h')
  rw [← NetExecutionReport.packed.get_put net, hput, NetExecutionReport.packed.get_put]

end Writer

/-! ## The position of the client -/

namespace ReportLink

open Writer

variable {s s' : ReportLink}

/-- What the client has read of a frame that it has not counted yet. -/
def Part (part : List UInt8) : LoopPhase → Prop
  | .test => part = []
  | .header got => part = got
  | .body got => part = headerBytes ++ got
  | .stopped => part = []
  | .unexpected => False
  | .thrown => True

/-- The client has counted the first of the frames and has read a part of the next. -/
structure Reads (s : ReportLink) : Prop where
  position : ∃ done rest part, s.writer.frames = done ++ rest ∧
    s.writer.wire.take s.client.taken = done.flatten ++ part ∧ List.Forall₂ IsFrame done s.client.reports ∧
      Part part s.client.phase
  bound : s.client.taken ≤ s.writer.wire.length
  count : s.client.receivedCount = UInt32.ofNat s.client.reports.length

/-- The invariant. -/
structure Ok (s : ReportLink) : Prop where
  queued : s.writer.Queued
  writing : s.writer.Writing
  reads : s.Reads

/-- What has been read of the next frame is the start of what comes after those that have been counted. -/
theorem part_of_rest {done rest : List (List UInt8)} {part : List UInt8} (hq : s.writer.Queued) (hw : s.writer.Writing)
    (hframes : s.writer.frames = done ++ rest) (htake : s.writer.wire.take s.client.taken = done.flatten ++ part) :
    part <+: rest.flatten := by
  have hwire := (List.take_prefix s.client.taken s.writer.wire).trans (wire_of_frames hq hw)
  rw [htake, hframes, List.flatten_append, List.prefix_append_right_inj] at hwire
  exact hwire

/-- The frame that the client is in. -/
theorem next_frame {done rest : List (List UInt8)} {part : List UInt8} (hq : s.writer.Queued)
    (hframes : s.writer.frames = done ++ rest) (hpart : part <+: rest.flatten) (hne : part ≠ []) :
    ∃ net bytes rest', IsFrame bytes net ∧ rest = bytes :: rest' ∧ part <+: bytes ++ rest'.flatten := by
  cases rest with
  | nil => exact absurd (List.prefix_nil.1 hpart) hne
  | cons bytes rest' =>
    obtain ⟨net, hnet⟩ := hq.isFrame bytes (by rw [hframes]; simp)
    exact ⟨net, bytes, rest', hnet, rfl, hpart⟩

theorem eq_of_start {α : Type*} {a b l : List α} (ha : a <+: b ++ l) (hlen : a.length = b.length) : a = b :=
  (List.prefix_of_prefix_length_le ha (List.prefix_append b l) (Nat.le_of_eq hlen)).eq_of_length hlen

/-- A handler of the session does not disturb the client. -/
theorem Reads.session {writer : Writer} {a : WriteAction} (h : s.Reads) (hs : s.writer.step a = some writer) :
    Reads { s with writer := writer } := by
  obtain ⟨done, rest, part, hframes, htake, hreports, hpart⟩ := h.position
  obtain ⟨⟨frames, hframes'⟩, ⟨wire, hwire⟩⟩ := step_grows hs
  constructor
  · refine ⟨done, rest ++ frames, part, ?_, ?_, hreports, hpart⟩
    · rw [← hframes', hframes, List.append_assoc]
    · rw [← hwire, List.take_append_of_le_length h.bound]
      exact htake
  · show s.client.taken ≤ writer.wire.length
    have hbound := h.bound
    rw [← hwire, List.length_append]
    omega
  · exact h.count

/-- The outstanding read gets some more bytes. -/
theorem fill_eq {size taken n : ℕ} {got wire got' : List UInt8} (h : DemoClient.fill size got wire taken n = some got') :
    taken + n ≤ wire.length ∧ ∃ new, got' = got ++ new ∧ wire.take (taken + n) = wire.take taken ++ new := by
  unfold DemoClient.fill at h
  split at h
  next hfits =>
    cases h
    exact ⟨hfits.2, _, rfl, List.take_add ..⟩
  next => cases h

/-- A complete header is that of a report. -/
theorem headerBytes_of_start {done rest : List (List UInt8)} {got : List UInt8} (hq : s.writer.Queued)
    (hframes : s.writer.frames = done ++ rest) (hpart' : got <+: rest.flatten) (hlen : got.length = MsgHeader.packed.size) :
    got = headerBytes := by
  obtain ⟨net, bytes, rest', rfl, rfl, hpart⟩ := next_frame hq hframes hpart' (by rintro rfl; cases hlen)
  rw [List.append_assoc] at hpart
  exact eq_of_start hpart hlen

/-- A complete body is the report of the frame. -/
theorem frame_of_start {done rest : List (List UInt8)} {got : List UInt8} (hq : s.writer.Queued)
    (hframes : s.writer.frames = done ++ rest) (hpart' : headerBytes ++ got <+: rest.flatten)
    (hlen : got.length = NetExecutionReport.packed.size) : ∃ rest', rest = (headerBytes ++ got) :: rest' ∧
      IsFrame (headerBytes ++ got) (NetExecutionReport.packed.get got) := by
  obtain ⟨net, bytes, rest', hnet, rfl, hpart⟩ := next_frame hq hframes hpart' (by simp [← List.length_eq_zero_iff])
  have hbytes : headerBytes ++ got = bytes := by
    refine eq_of_start hpart ?_
    rw [hnet.length_eq, List.length_append, hlen]
    rfl
  refine ⟨rest', by rw [hbytes], ?_⟩
  unfold IsFrame
  rw [NetExecutionReport.packed.put_get got hlen]

/-- A step of the client. -/
theorem Ok.client {client : DemoClient} {a : LinkAction} (h : s.Ok) (hs : s.client.step s.writer.wire a = some client) :
    Reads { s with client := client } := by
  obtain ⟨done, rest, part, hframes, htake, hreports, hpart⟩ := h.reads.position
  have hbound := h.reads.bound
  have hcount := h.reads.count
  have hpart' := part_of_rest h.queued h.writing hframes htake
  cases a with
  | session a => cases hs
  | disconnect =>
    cases hs
    exact ⟨⟨done, rest, part, hframes, htake, hreports, hpart⟩, hbound, hcount⟩
  | test =>
    cases hphase : s.client.phase with
    | test =>
      simp only [DemoClient.step, hphase] at hs
      cases hs
      rw [hphase] at hpart
      refine ⟨⟨done, rest, part, hframes, htake, hreports, ?_⟩, hbound, hcount⟩
      show Part part (if s.client.running then .header [] else .stopped)
      split
      · exact hpart
      · exact hpart
    | _ => simp [DemoClient.step, hphase] at hs
  | read n =>
    cases hphase : s.client.phase with
    | header got =>
      simp only [DemoClient.step, hphase, Option.map_eq_some_iff] at hs
      obtain ⟨got', hfill, rfl⟩ := hs
      obtain ⟨hfits, new, rfl, hmore⟩ := fill_eq hfill
      rw [hphase] at hpart
      obtain rfl : part = got := hpart
      refine ⟨⟨done, rest, part ++ new, hframes, ?_, hreports, rfl⟩, hfits, hcount⟩
      show s.writer.wire.take (s.client.taken + n) = _
      rw [hmore, htake, List.append_assoc]
    | body got =>
      simp only [DemoClient.step, hphase, Option.map_eq_some_iff] at hs
      obtain ⟨got', hfill, rfl⟩ := hs
      obtain ⟨hfits, new, rfl, hmore⟩ := fill_eq hfill
      rw [hphase] at hpart
      obtain rfl : part = headerBytes ++ got := hpart
      refine ⟨⟨done, rest, headerBytes ++ (got ++ new), hframes, ?_, hreports, rfl⟩, hfits, hcount⟩
      show s.writer.wire.take (s.client.taken + n) = _
      rw [hmore, htake, List.append_assoc, List.append_assoc]
    | _ => simp [DemoClient.step, hphase] at hs
  | error =>
    cases hphase : s.client.phase with
    | header got =>
      simp only [DemoClient.step, hphase] at hs
      cases hs
      exact ⟨⟨done, rest, part, hframes, htake, hreports, trivial⟩, hbound, hcount⟩
    | body got =>
      simp only [DemoClient.step, hphase] at hs
      cases hs
      exact ⟨⟨done, rest, part, hframes, htake, hreports, trivial⟩, hbound, hcount⟩
    | _ => simp [DemoClient.step, hphase] at hs
  | finish =>
    cases hphase : s.client.phase with
    | header got =>
      simp only [DemoClient.step, hphase] at hs
      split at hs
      next hlen =>
        cases hs
        rw [hphase] at hpart
        obtain rfl : part = got := hpart
        obtain rfl := headerBytes_of_start h.queued hframes hpart' hlen
        have htype : (MsgHeader.packed.get headerBytes).type = MsgType.executionReport := by
          rw [headerBytes, MsgHeader.packed.get_put]
        refine ⟨⟨done, rest, headerBytes, hframes, htake, hreports, ?_⟩, hbound, hcount⟩
        simp [htype, Part]
      next => cases hs
    | body got =>
      simp only [DemoClient.step, hphase] at hs
      split at hs
      next hlen =>
        cases hs
        rw [hphase] at hpart
        obtain rfl : part = headerBytes ++ got := hpart
        obtain ⟨rest', rfl, hframe⟩ := frame_of_start h.queued hframes hpart' hlen
        refine ⟨⟨done ++ [headerBytes ++ got], rest', [], ?_, ?_, ?_, rfl⟩, hbound, ?_⟩
        · rw [hframes, List.append_assoc, List.singleton_append]
        · rw [htake, List.flatten_append, List.flatten_singleton, List.append_nil]
        · exact List.rel_append hreports (.cons hframe .nil)
        · show s.client.receivedCount + 1 = UInt32.ofNat (s.client.reports ++ [_]).length
          rw [hcount, List.length_append, List.length_singleton, UInt32.ofNat_add]
          rfl
      next => cases hs
    | _ => simp [DemoClient.step, hphase] at hs

/-- What a step can do. -/
theorem step_cases {a : LinkAction} (hs : s.step a = some s') :
    (∃ action writer, s.writer.step action = some writer ∧ s' = { s with writer := writer }) ∨
      ∃ client, s.client.step s.writer.wire a = some client ∧ s' = { s with client := client } := by
  unfold step at hs
  split at hs
  next action =>
    obtain ⟨writer, hwriter, rfl⟩ := Option.map_eq_some_iff.1 hs
    exact .inl ⟨action, writer, hwriter, rfl⟩
  next =>
    obtain ⟨client, hclient, rfl⟩ := Option.map_eq_some_iff.1 hs
    exact .inr ⟨client, hclient, rfl⟩

theorem init_ok : Ok {} := by
  obtain ⟨hq, hw⟩ : ({} : Writer).Queued ∧ ({} : Writer).Writing := run_ordered [] rfl
  exact ⟨hq, hw, ⟨[], [], [], rfl, rfl, .nil, rfl⟩, Nat.le_refl 0, rfl⟩

/-- The step lemma. -/
theorem Ok.step {a : LinkAction} (hs : s.step a = some s') (h : s.Ok) : s'.Ok := by
  rcases step_cases hs with ⟨action, writer, hwriter, rfl⟩ | ⟨client, hclient, rfl⟩
  · obtain ⟨hq, hw⟩ := step_ordered hwriter h.queued h.writing
    exact ⟨hq, hw, h.reads.session hwriter⟩
  · exact ⟨h.queued, h.writing, h.client hclient⟩

/-- The run lemma. -/
theorem run_ok (actions : List LinkAction) (hrun : Machine.run step {} actions = some s) : s.Ok := by
  have hstep : ∀ (s : ReportLink) (a : LinkAction) (s' : ReportLink), True → s.step a = some s' → s.Ok → s'.Ok :=
    fun s a s' _ hs h => h.step hs
  exact Machine.run_invariant hstep actions {} s (fun _ _ => trivial) hrun init_ok

/-- Frames built of reports and read as network structs: the structs are those of the reports. -/
theorem read_of_built {reports : List ExecutionReport} {frames : List (List UInt8)} {nets : List NetExecutionReport}
    (hbuilt : List.Forall₂ (fun report bytes => ∃ net, bytes = frame net report) reports frames)
    (hread : List.Forall₂ IsFrame frames nets) :
    List.Forall₂ (fun report net => ∃ old, net = reportToNet old report) reports nets := by
  induction hbuilt generalizing nets with
  | nil =>
    cases hread
    exact .nil
  | cons hbytes _ ih =>
    obtain ⟨old, rfl⟩ := hbytes
    cases hread with
    | cons hnet hread => exact .cons ⟨old, hnet.inj rfl⟩ (ih hread)

/-- The reports that have been counted are those of the first posts. -/
theorem Ok.received (h : s.Ok) : List.Forall₂ (fun report net => ∃ old, net = reportToNet old report)
    (s.writer.calls.take s.client.reports.length) s.client.reports := by
  obtain ⟨done, rest, part, hframes, -, hreports, -⟩ := h.reads.position
  obtain ⟨handled, hcalls, hbuilt⟩ := h.queued.handled
  rw [hframes] at hbuilt
  have hshort : done.length ≤ handled.length := by
    rw [hbuilt.length_eq, List.length_append]
    omega
  rw [hcalls, ← hreports.length_eq, List.take_append_of_le_length hshort]
  exact read_of_built (List.forall₂_take_append handled done rest hbuilt) hreports

/-- Once everything has been sent and read, everything has been counted. -/
theorem Ok.all_received (h : s.Ok) (hposted : s.writer.posted = []) (hqueue : s.writer.writeQueue = [])
    (htaken : s.client.taken = s.writer.wire.length) (hphase : s.client.phase = .header []) :
    s.client.reports.length = s.writer.calls.length := by
  obtain ⟨done, rest, part, hframes, htake, hreports, hpart⟩ := h.reads.position
  obtain ⟨handled, hcalls, hbuilt⟩ := h.queued.handled
  obtain ⟨sent, hsent, hcompleted⟩ := h.queued.queued
  rw [hphase] at hpart
  obtain rfl : part = [] := hpart
  -- with an empty queue the write side is idle, so all frames are on the wire
  have hwire : s.writer.wire = s.writer.frames.flatten := by
    rw [hqueue, List.map_nil, List.append_nil] at hsent
    rw [hsent, ← hcompleted]
    cases h.writing with
    | idle _ _ hwire _ => exact hwire
    | busy b queue n _ hbusy _ _ => simp [hqueue] at hbusy
    | stopped b queue n _ hstopped _ _ => simp [hqueue] at hstopped
  rw [htaken, List.take_length, hwire, hframes, List.flatten_append, List.append_cancel_left_eq] at htake
  have hrest : rest = [] := by
    rcases rest with _ | ⟨bytes, rest⟩
    · rfl
    · obtain ⟨net, hnet⟩ := h.queued.isFrame bytes (by simp [hframes])
      have hlen := congrArg List.length htake
      rw [List.flatten_cons, List.length_append, hnet.length_eq, List.length_nil] at hlen
      omega
  rw [hrest, List.append_nil] at hframes
  rw [hcalls, hposted, List.append_nil, hbuilt.length_eq, hframes, hreports.length_eq]

/-- In every interleaving the client gets the reports of the first posts, each once and in their order, counts them, and does
not leave its loop because of a header; and when everything has been sent and read it has got all of them. -/
theorem reports_received (actions : List LinkAction) (s : ReportLink) (hrun : Machine.run step {} actions = some s) :
    List.Forall₂ (fun report net => ∃ old, net = reportToNet old report)
        (s.writer.calls.take s.client.reports.length) s.client.reports ∧
      s.client.receivedCount = UInt32.ofNat s.client.reports.length ∧ s.client.phase ≠ .unexpected ∧
      (s.writer.posted = [] → s.writer.writeQueue = [] → s.client.taken = s.writer.wire.length →
        s.client.phase = .header [] → s.client.reports.length = s.writer.calls.length) := by
  have h := run_ok actions hrun
  refine ⟨h.received, h.reads.count, ?_, h.all_received⟩
  intro hphase
  obtain ⟨_, _, _, _, _, _, hpart⟩ := h.reads.position
  rw [hphase] at hpart
  exact hpart

/-- One report is sent in two parts, between which the client reads the header; another one is posted. -/
def oneReport : List LinkAction :=
  let net : NetExecutionReport := ⟨0, .replicate 8 0, 0, 0, 0, 0, 0, 0, 0, 0, .replicate 32 0⟩
  [.session (.post { orderId := 1 }), .session (.handle net), .test, .session (.transfer 0 50), .read 4, .finish, .read 46,
    .session (.post { orderId := 2 }), .session (.transfer 0 40), .read 40, .finish, .test]

theorem reports_received_one : ∃ s, Machine.run step {} oneReport = some s ∧ s.client.receivedCount = 1 ∧
    List.Forall₂ (fun report net => ∃ old, net = reportToNet old report) (s.writer.calls.take s.client.reports.length)
      s.client.reports := by
  have hrun : (Machine.run step {} oneReport).any fun s => s.client.receivedCount = 1 := by decide
  obtain ⟨s, hs, hcount⟩ := (Option.any_eq_true _ _).1 hrun
  exact ⟨s, hs, of_decide_eq_true hcount, (reports_received oneReport s hs).1⟩

end ReportLink

end StockExchange
