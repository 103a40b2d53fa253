/-
The read side of a session (`gateway/session.hpp`): `read_header` and `read_body` cut the byte stream of a connection
into packets, and `process_packet` makes at most one request of each. Whatever frames a peer sends, the session
stays on their boundaries: it makes one request of every well-formed frame, in order, and skips the others. What the
client (`DemoClient` in `demo_main.cpp`) sends is read back.
-/
import StockExchange.Gateway.Session
import StockExchange.Lib.Machine

namespace StockExchange

open Packed BinarySerializer

/-! ## Requests -/

namespace Session

/-- The request that `process_packet` makes of a packet, before the risk check. -/
def decode (clientId : ClientID) (packet : Packet) (behind : List UInt8) : Option Request :=
  if packet.type = MsgType.order then
    if packet.body.length = NetOrder.packed.size then
      some (.submit { orderFromNet (NetOrder.packed.get packet.body) behind with clientId := clientId })
    else none
  else if packet.type = MsgType.cancel then
    if packet.body.length = NetCancel.packed.size then
      some (.cancel { cancelFromNet (NetCancel.packed.get packet.body) behind with clientId := clientId })
    else none
  else if packet.type = MsgType.modify then
    if packet.body.length = NetModify.packed.size then
      some (.modify { modifyFromNet (NetModify.packed.get packet.body) behind with clientId := clientId })
    else none
  else none

/-- What becomes of a request: an order that fails the risk check is rejected, any other request is accepted. -/
def handle (clientId : ClientID) (risk : RiskChecker) (env : Env) : Option Request → PacketResult × RiskChecker × Env
  | none => (.dropped, risk, env)
  | some (.submit order) =>
    match risk.validateOrder order with
    | .error reason =>
      let (now, env) := env.getCurrentTimeNs
      (.rejected (rejectReport order reason clientId now), risk, env)
    | .ok risk => (.accepted ⟨.submit order, order.symbol⟩, risk, env)
  | some r => (.accepted ⟨r, r.symbol⟩, risk, env)

/-- `process_packet` handles the request of the packet. -/
theorem processPacket_eq_handle (clientId : ClientID) (packet : Packet) (behind : List UInt8) (risk : RiskChecker)
    (env : Env) : processPacket clientId packet behind risk env = handle clientId risk env (decode clientId packet behind) := by
  unfold processPacket decode
  by_cases ho : packet.type = MsgType.order
  · rw [if_pos ho, if_pos ho]
    by_cases hl : packet.body.length = NetOrder.packed.size
    · rw [if_pos hl]
      exact (if_neg (not_not.2 hl)).trans rfl
    · rw [if_pos hl, if_neg hl, handle]
  rw [if_neg ho, if_neg ho]
  by_cases hc : packet.type = MsgType.cancel
  · rw [if_pos hc, if_pos hc]
    by_cases hl : packet.body.length = NetCancel.packed.size
    · rw [if_neg (not_not.2 hl), if_pos hl]
      rfl
    · rw [if_pos hl, if_neg hl, handle]
  rw [if_neg hc, if_neg hc]
  by_cases hm : packet.type = MsgType.modify
  · rw [if_pos hm, if_pos hm]
    by_cases hl : packet.body.length = NetModify.packed.size
    · rw [if_neg (not_not.2 hl), if_pos hl]
      rfl
    · rw [if_pos hl, if_neg hl, handle]
  rw [if_neg hm, if_neg hm, handle]

/-- The type is one of a request and the size is that of its struct. -/
def WellFormed (packet : Packet) : Prop :=
  (packet.type = MsgType.order ∧ packet.body.length = NetOrder.packed.size) ∨
    (packet.type = MsgType.cancel ∧ packet.body.length = NetCancel.packed.size) ∨
    (packet.type = MsgType.modify ∧ packet.body.length = NetModify.packed.size)

instance (packet : Packet) : Decidable (WellFormed packet) := inferInstanceAs (Decidable (_ ∨ _ ∨ _))

theorem decode_isSome_iff (clientId : ClientID) (packet : Packet) (behind : List UInt8) :
    (decode clientId packet behind).isSome ↔ WellFormed packet := by
  unfold decode WellFormed
  by_cases ho : packet.type = MsgType.order
  · by_cases hl : packet.body.length = NetOrder.packed.size
    · simp [ho, hl]
    · simp [ho, hl, MsgType.order, MsgType.cancel, MsgType.modify]
  by_cases hc : packet.type = MsgType.cancel
  · by_cases hl : packet.body.length = NetCancel.packed.size
    · simp [hc, hl, MsgType.order, MsgType.cancel]
    · simp [hc, hl, MsgType.order, MsgType.cancel, MsgType.modify]
  by_cases hm : packet.type = MsgType.modify
  · by_cases hl : packet.body.length = NetModify.packed.size
    · simp [hm, hl, MsgType.order, MsgType.cancel, MsgType.modify]
    · simp [hm, hl, MsgType.order, MsgType.cancel, MsgType.modify]
  simp [ho, hc, hm]

end Session

/-! ## The reading session -/

/-- What the session waits for. -/
inductive ReadPhase
  | header
  | body (header : MsgHeader)
  | closed

/-- The read side of a session. -/
structure Reader where
  /-- What the peer sends and the session has not read yet. -/
  stream : List UInt8
  phase : ReadPhase := .header
  requests : List Request := []

/-- The completion of an `async_read`: it delivers the bytes asked for, or an error. -/
inductive ReadAction
  | readHeader
  /-- `behind` is memory that the decoder may run into. -/
  | readBody (behind : List UInt8)
  | error

/-- The handlers of `read_header` and `read_body`; `none` where no such read is outstanding or not enough has been sent. -/
def Reader.step (clientId : ClientID) (s : Reader) : ReadAction → Option Reader
  | .readHeader =>
    match s.phase with
    | .header =>
      if MsgHeader.packed.size ≤ s.stream.length then
        some { s with
          stream := s.stream.drop MsgHeader.packed.size
          phase := .body (MsgHeader.packed.get (s.stream.take MsgHeader.packed.size)) }
      else none
    | _ => none
  | .readBody behind =>
    match s.phase with
    | .body header =>
      if header.length.toNat ≤ s.stream.length then
        let packet : Packet := ⟨header.type, s.stream.take header.length.toNat⟩
        some
          { stream := s.stream.drop header.length.toNat
            phase := .header
            requests := s.requests ++ (Session.decode clientId packet behind).toList }
      else none
    | _ => none
  | .error =>
    match s.phase with
    | .closed => none
    | _ => some { s with phase := .closed }

/-- A packet whose length fits the field of the header. -/
structure Frame extends Packet where
  short : body.length < 2 ^ 16

namespace Frame

def header (f : Frame) : MsgHeader := ⟨f.type, UInt16.ofNat f.body.length⟩

/-- The frame as it is sent. -/
def bytes (f : Frame) : List UInt8 := MsgHeader.packed.put f.header ++ f.body

theorem length_toNat (f : Frame) : f.header.length.toNat = f.body.length := UInt16.toNat_ofNat_of_lt' f.short

end Frame

namespace Reader

variable (clientId : ClientID)

/-- One request of every well-formed frame, in order, and none of any other. -/
def RequestsOf (frames : List Frame) (requests : List Request) : Prop :=
  List.Forall₂ (fun f r => ∃ behind, Session.decode clientId f.toPacket behind = some r)
    (frames.filter fun f => Session.WellFormed f.toPacket) requests

/-- The session has dealt with the first of the frames and stands on the boundary of the next, or behind its header. -/
def Position (frames : List Frame) (s : Reader) : Prop :=
  ∃ done later, frames = done ++ later ∧ RequestsOf clientId done s.requests ∧
    match s.phase with
    | .header => s.stream = later.flatMap Frame.bytes
    | .body header => ∃ f rest, later = f :: rest ∧ header = f.header ∧ s.stream = f.body ++ rest.flatMap Frame.bytes
    | .closed => True

variable {clientId}

theorem RequestsOf.snoc {frames : List Frame} {requests : List Request} (h : RequestsOf clientId frames requests)
    (f : Frame) (behind : List UInt8) :
    RequestsOf clientId (frames ++ [f]) (requests ++ (Session.decode clientId f.toPacket behind).toList) := by
  unfold RequestsOf at *
  rw [List.filter_append]
  refine List.rel_append h ?_
  by_cases hf : Session.WellFormed f.toPacket
  · obtain ⟨r, hr⟩ := Option.isSome_iff_exists.1 ((Session.decode_isSome_iff clientId _ behind).2 hf)
    rw [List.filter_singleton, hr]
    simp only [hf, decide_true, Option.toList_some]
    exact .cons ⟨behind, hr⟩ .nil
  · have hnone : Session.decode clientId f.toPacket behind = none := by
      rw [← Option.not_isSome_iff_eq_none, Session.decode_isSome_iff]
      exact hf
    rw [List.filter_singleton, hnone]
    simp only [hf, decide_false, Option.toList_none]
    exact .nil

/-- The handler of `read_header` on the boundary of a frame. -/
theorem step_readHeader {s : Reader} {f : Frame} {rest : List UInt8} (hp : s.phase = .header)
    (hs : s.stream = f.bytes ++ rest) :
    s.step clientId .readHeader = some { s with stream := f.body ++ rest, phase := .body f.header } := by
  have hlen := MsgHeader.packed.length_put f.header
  have hstream : s.stream = MsgHeader.packed.put f.header ++ (f.body ++ rest) := by
    rw [hs, Frame.bytes, List.append_assoc]
  simp only [step, hp, hstream]
  rw [if_pos, MsgHeader.packed.get_take, List.drop_left' hlen]
  rw [List.length_append, hlen]
  omega

/-- The handler of `read_body` behind the header of a frame. -/
theorem step_readBody {s : Reader} {f : Frame} {rest : List UInt8} (behind : List UInt8)
    (hp : s.phase = .body f.header) (hs : s.stream = f.body ++ rest) :
    s.step clientId (.readBody behind) =
      some ⟨rest, .header, s.requests ++ (Session.decode clientId f.toPacket behind).toList⟩ := by
  simp only [step, hp, hs, f.length_toNat]
  rw [if_pos, List.take_left, List.drop_left]
  · rfl
  · rw [List.length_append]
    omega

/-- The step lemma. -/
theorem Position.step {frames : List Frame} {s s' : Reader} {a : ReadAction} (h : Position clientId frames s)
    (hs : s.step clientId a = some s') : Position clientId frames s' := by
  obtain ⟨done, later, hframes, hrequests, hphase⟩ := h
  cases a with
  | readHeader =>
    cases hp : s.phase with
    | header =>
      rw [hp] at hphase
      cases later with
      | nil =>
        simp only [Reader.step, hp, hphase] at hs
        cases hs
      | cons f rest =>
        rw [List.flatMap_cons] at hphase
        rw [step_readHeader hp hphase] at hs
        cases hs
        exact ⟨done, f :: rest, hframes, hrequests, f, rest, rfl, rfl, rfl⟩
    | body header => simp [Reader.step, hp] at hs
    | closed => simp [Reader.step, hp] at hs
  | readBody behind =>
    cases hp : s.phase with
    | body header =>
      rw [hp] at hphase
      obtain ⟨f, rest, rfl, rfl, hstream⟩ := hphase
      rw [step_readBody behind hp hstream] at hs
      cases hs
      refine ⟨done ++ [f], rest, ?_, hrequests.snoc f behind, rfl⟩
      rw [hframes, List.append_assoc, List.singleton_append]
    | header => simp [Reader.step, hp] at hs
    | closed => simp [Reader.step, hp] at hs
  | error =>
    cases hp : s.phase with
    | closed => simp [Reader.step, hp] at hs
    | header =>
      simp only [Reader.step, hp] at hs
      cases hs
      exact ⟨done, later, hframes, hrequests, trivial⟩
    | body header =>
      simp only [Reader.step, hp] at hs
      cases hs
      exact ⟨done, later, hframes, hrequests, trivial⟩

/-- The run lemma: the session stands on a boundary, or behind a header, after every run. -/
theorem run_position (frames : List Frame) (actions : List ReadAction) {s : Reader}
    (hrun : Machine.run (step clientId) ⟨frames.flatMap Frame.bytes, .header, []⟩ actions = some s) :
    Position clientId frames s := by
  have hstep : ∀ (s : Reader) (a : ReadAction) (s' : Reader), True → s.step clientId a = some s' →
      Position clientId frames s → Position clientId frames s' := fun s a s' _ hs h => h.step hs
  exact Machine.run_invariant hstep actions _ s (fun _ _ => trivial) hrun ⟨[], frames, rfl, .nil, rfl⟩

/-- If no read fails, the session gets through all frames. -/
theorem run_all : ∀ (frames : List Frame) (behinds : List (List UInt8)) (requests : List Request),
    behinds.length = frames.length → ∃ new,
      Machine.run (step clientId) ⟨frames.flatMap Frame.bytes, .header, requests⟩
        (behinds.flatMap fun behind => [.readHeader, .readBody behind]) = some ⟨[], .header, requests ++ new⟩
  | [], [], requests, _ => ⟨[], by rw [List.append_nil]; rfl⟩
  | f :: frames, behind :: behinds, requests, hlen => by
    obtain ⟨new, hrun⟩ := run_all frames behinds
      (requests ++ (Session.decode clientId f.toPacket behind).toList) (Nat.succ.inj hlen)
    refine ⟨(Session.decode clientId f.toPacket behind).toList ++ new, ?_⟩
    rw [List.flatMap_cons, List.flatMap_cons, List.cons_append, List.cons_append, List.nil_append, Machine.run,
      step_readHeader rfl rfl, Option.bind_some, Machine.run, step_readBody behind rfl rfl, Option.bind_some, hrun,
      List.append_assoc]

/-- A session that has read everything has dealt with all frames. -/
theorem Position.all {frames : List Frame} {s : Reader} (h : Position clientId frames s) (hp : s.phase = .header)
    (hs : s.stream = []) : RequestsOf clientId frames s.requests := by
  obtain ⟨done, later, rfl, hrequests, hphase⟩ := h
  rw [hp, hs] at hphase
  cases later with
  | nil => rwa [List.append_nil]
  | cons f rest =>
    have hlen := congrArg List.length hphase
    rw [List.flatMap_cons, List.length_append, Frame.bytes, List.length_append, MsgHeader.packed.length_put] at hlen
    have hsize : MsgHeader.packed.size = 4 := rfl
    rw [hsize, List.length_nil] at hlen
    omega

end Reader

/-! ## The client -/

/-- The contents of the local structs of the client before they are filled in. -/
structure Locals where
  order : NetOrder
  cancel : NetCancel
  modify : NetModify

namespace DemoClient

/-- What `send_order`, `send_cancel` and `send_modify` write to the socket. -/
def sendOrder (net : NetOrder) (order : Order) : List UInt8 :=
  MsgHeader.packed.put ⟨MsgType.order, UInt16.ofNat NetOrder.packed.size⟩ ++ NetOrder.packed.put (orderToNet net order)

def sendCancel (net : NetCancel) (req : CancelRequest) : List UInt8 :=
  MsgHeader.packed.put ⟨MsgType.cancel, UInt16.ofNat NetCancel.packed.size⟩ ++ NetCancel.packed.put (cancelToNet net req)

def sendModify (net : NetModify) (req : ModifyRequest) : List UInt8 :=
  MsgHeader.packed.put ⟨MsgType.modify, UInt16.ofNat NetModify.packed.size⟩ ++ NetModify.packed.put (modifyToNet net req)

def send (locals : Locals) : Request → List UInt8
  | .submit order => sendOrder locals.order order
  | .cancel req => sendCancel locals.cancel req
  | .modify req => sendModify locals.modify req

/-- The frame that a request is sent in. -/
def frame (locals : Locals) : Request → Frame
  | .submit order => ⟨⟨MsgType.order, NetOrder.packed.put (orderToNet locals.order order)⟩, by
      rw [NetOrder.packed.length_put]
      decide⟩
  | .cancel req => ⟨⟨MsgType.cancel, NetCancel.packed.put (cancelToNet locals.cancel req)⟩, by
      rw [NetCancel.packed.length_put]
      decide⟩
  | .modify req => ⟨⟨MsgType.modify, NetModify.packed.put (modifyToNet locals.modify req)⟩, by
      rw [NetModify.packed.length_put]
      decide⟩

theorem send_eq_bytes (locals : Locals) (r : Request) : send locals r = (frame locals r).bytes := by
  unfold Frame.bytes Frame.header
  cases r with
  | submit order =>
    show sendOrder locals.order order = _
    rw [sendOrder, ← NetOrder.packed.length_put (orderToNet locals.order order)]
    rfl
  | cancel req =>
    show sendCancel locals.cancel req = _
    rw [sendCancel, ← NetCancel.packed.length_put (cancelToNet locals.cancel req)]
    rfl
  | modify req =>
    show sendModify locals.modify req = _
    rw [sendModify, ← NetModify.packed.length_put (modifyToNet locals.modify req)]
    rfl

end DemoClient

/-- A request as the session of a client takes it: its own client id, and all of an order open. -/
def Request.received (clientId : ClientID) : Request → Request
  | .submit order => .submit { order with clientId := clientId, remainingQuantity := order.quantity }
  | .cancel req => .cancel { req with clientId := clientId }
  | .modify req => .modify { req with clientId := clientId }

/-- What the client sends is decoded to the request, with the client id of the session. -/
theorem Session.decode_frame (clientId : ClientID) (locals : Locals) {r : Request} (h : Fits r.symbol)
    (behind : List UInt8) :
    decode clientId (DemoClient.frame locals r).toPacket behind = some (r.received clientId) := by
  cases r with
  | submit order =>
    show decode clientId ⟨MsgType.order, NetOrder.packed.put (orderToNet locals.order order)⟩ behind = _
    rw [decode, if_pos rfl, if_pos (NetOrder.packed.length_put _), NetOrder.packed.get_put,
      orderFromNet_toNet_open locals.order h]
    rfl
  | cancel req =>
    show decode clientId ⟨MsgType.cancel, NetCancel.packed.put (cancelToNet locals.cancel req)⟩ behind = _
    have hne : ¬ MsgType.cancel = MsgType.order := by decide
    rw [decode, if_neg hne, if_pos rfl, if_pos (NetCancel.packed.length_put _), NetCancel.packed.get_put,
      cancelFromNet_toNet locals.cancel h]
    rfl
  | modify req =>
    show decode clientId ⟨MsgType.modify, NetModify.packed.put (modifyToNet locals.modify req)⟩ behind = _
    have hne : ¬ MsgType.modify = MsgType.order := by decide
    have hne' : ¬ MsgType.modify = MsgType.cancel := by decide
    rw [decode, if_neg hne, if_neg hne', if_pos rfl, if_pos (NetModify.packed.length_put _),
      NetModify.packed.get_put, modifyFromNet_toNet locals.modify h]
    rfl

namespace Reader

/-- The requests of the frames of a client are the requests it sent. -/
theorem requestsOf_sent {clientId : ClientID} : ∀ {sent : List (Locals × Request)} {requests : List Request},
    (∀ q ∈ sent, Fits q.2.symbol) → RequestsOf clientId (sent.map fun q => DemoClient.frame q.1 q.2) requests →
      requests = sent.map fun q => q.2.received clientId
  | [], _, _, h => by
    cases h
    rfl
  | q :: sent, requests, hfits, h => by
    have hdecode := Session.decode_frame clientId q.1 (hfits q (List.mem_cons_self ..))
    have hwell : Session.WellFormed (DemoClient.frame q.1 q.2).toPacket := by
      rw [← Session.decode_isSome_iff clientId _ [], hdecode]
      rfl
    rw [RequestsOf, List.map_cons, List.filter_cons_of_pos (by simpa using hwell)] at h
    cases h with
    | cons hr hrest =>
      obtain ⟨behind, hr⟩ := hr
      rw [hdecode] at hr
      cases hr
      rw [List.map_cons, requestsOf_sent (fun q' hq' => hfits q' (List.mem_cons_of_mem _ hq')) hrest]

/-- A session that has read nothing yet of what a peer sends. -/
def start (stream : List UInt8) : Reader := { stream := stream }

/-- Whatever frames a peer sends, in whatever state of reading them: the session has made one request of every
well-formed frame among those it is past, in order, and stands on a frame boundary or behind a header; without a read
error it gets through all of them; what the client sends arrives as it was, with the client id of the session and all of
an order open; and what `process_packet` does is to handle the request of the packet, if there is one. -/
theorem framing (clientId : ClientID) :
    (∀ (frames : List Frame) (actions : List ReadAction) (s : Reader),
        Machine.run (step clientId) (start (frames.flatMap Frame.bytes)) actions = some s →
          Position clientId frames s) ∧
      (∀ (frames : List Frame) (behinds : List (List UInt8)), behinds.length = frames.length → ∃ requests,
        Machine.run (step clientId) (start (frames.flatMap Frame.bytes))
            (behinds.flatMap fun behind => [.readHeader, .readBody behind]) = some ⟨[], .header, requests⟩ ∧
          RequestsOf clientId frames requests) ∧
      (∀ (sent : List (Locals × Request)), (∀ q ∈ sent, Fits q.2.symbol) → ∀ (actions : List ReadAction) (s : Reader),
        Machine.run (step clientId) (start (sent.flatMap fun q => DemoClient.send q.1 q.2)) actions = some s →
          s.requests <+: sent.map (fun q => q.2.received clientId) ∧
            (s.phase = .header → s.stream = [] → s.requests = sent.map fun q => q.2.received clientId)) ∧
      ∀ (packet : Packet) (behind : List UInt8) (risk : RiskChecker) (env : Env),
        Session.processPacket clientId packet behind risk env =
          Session.handle clientId risk env (Session.decode clientId packet behind) := by
  refine ⟨fun frames actions s hrun => run_position frames actions hrun, fun frames behinds hlen => ?_,
    fun sent hfits actions s hrun => ?_, Session.processPacket_eq_handle clientId⟩
  · obtain ⟨new, hrun⟩ := run_all frames behinds [] hlen
    exact ⟨new, hrun, (run_position frames _ hrun).all rfl rfl⟩
  · have hbytes : (sent.flatMap fun q => DemoClient.send q.1 q.2) =
        (sent.map fun q => DemoClient.frame q.1 q.2).flatMap Frame.bytes := by
      rw [List.flatMap_map]
      simp only [DemoClient.send_eq_bytes]
    rw [hbytes] at hrun
    have hpos := run_position _ actions hrun
    refine ⟨?_, fun hp hs => requestsOf_sent hfits (hpos.all hp hs)⟩
    -- the frames dealt with are those of the first requests
    obtain ⟨done, later, hframes, hrequests, -⟩ := hpos
    obtain ⟨first, rest, rfl, rfl, rfl⟩ := List.map_eq_append_iff.1 hframes
    rw [requestsOf_sent (fun q hq => hfits q (List.mem_append_left _ hq)) hrequests, List.map_append]
    exact List.prefix_append ..

/-- Old contents of the structs, without a zero byte in the symbols. -/
def oldLocals : Locals :=
  ⟨⟨0, .replicate 8 1, 0, 0, 0, 0, 0⟩, ⟨0, .replicate 8 1, 0⟩,
    ⟨0, .replicate 8 1, 0, 0, 0⟩⟩

/-- A frame of an unknown type, a cancel and a cancel cut short. -/
def mixedFrames : List Frame :=
  [⟨⟨9, [1, 2, 3]⟩, by decide⟩,
    DemoClient.frame oldLocals (.cancel { orderId := 7, symbol := text "AAPL", timestamp := 9 }),
    ⟨⟨MsgType.cancel, []⟩, by decide⟩]

/-- The session of client 3 makes one request of them. -/
theorem framing_skips : Machine.run (step 3) (start (mixedFrames.flatMap Frame.bytes))
    ([[], [], []].flatMap fun behind => [.readHeader, .readBody behind]) =
      some ⟨[], .header, [.cancel { orderId := 7, symbol := text "AAPL", timestamp := 9, clientId := 3 }]⟩ := by
  obtain ⟨requests, hrun, hof⟩ := (framing 3).2.1 mixedFrames [[], [], []] rfl
  have hsent : RequestsOf 3 ([(oldLocals, .cancel { orderId := 7, symbol := text "AAPL", timestamp := 9 })].map fun q =>
      DemoClient.frame q.1 q.2) requests := hof
  rw [hrun, requestsOf_sent (by decide) hsent]
  rfl

end Reader

end StockExchange
