/-
Decoding a request and encoding it again. The decoder reads a symbol up to the first zero byte, wherever that is; the
encoder keeps seven bytes of it and a terminator. So a request comes out of its own encoding, and out of the log, with
the symbol it was executed with exactly if one of the eight symbol bytes on the wire is zero (`stable_iff`).
-/
import StockExchange.Gateway.Session
import StockExchange.Pipeline.Wal

namespace StockExchange

open Packed BinarySerializer

/-! ## Reading up to the first zero byte -/

theorem cString_nulFree (bytes : List UInt8) : NulFree (cString bytes) := by
  intro h
  have hall := List.all_takeWhile (p := fun b : UInt8 => decide (b ≠ 0)) (l := bytes)
  simpa using List.all_eq_true.1 hall 0 h

/-- What stands behind a zero byte is not read. -/
theorem cString_append_of_mem {bytes : List UInt8} (h : 0 ∈ bytes) (rest : List UInt8) :
    cString (bytes ++ rest) = cString bytes := by
  obtain ⟨s, t, rfl, hs⟩ := List.eq_append_cons_of_mem h
  rw [List.append_assoc, List.cons_append, cString_append hs, cString_append hs]

theorem length_cString_lt {bytes : List UInt8} (h : 0 ∈ bytes) : (cString bytes).length < bytes.length := by
  obtain ⟨s, t, rfl, hs⟩ := List.eq_append_cons_of_mem h
  rw [cString_append hs, List.length_append, List.length_cons]
  omega

/-- Bytes without a zero byte are read to their end and beyond. -/
theorem length_cString_of_nulFree {bytes : List UInt8} (h : NulFree bytes) (rest : List UInt8) :
    bytes.length ≤ (cString (bytes ++ rest)).length := by
  have hall : ∀ b ∈ bytes, decide (b ≠ 0) = true := by
    intro b hb
    refine decide_eq_true ?_
    rintro rfl
    exact h hb
  unfold cString
  rw [List.takeWhile_append_of_pos hall, List.length_append]
  omega

/-- A copied string is read back cut to the size of its array. -/
theorem length_cString_safeStrncpy {n : ℕ} (dest : Chars (n + 1)) (src : Text) (rest : List UInt8) :
    (cString ((safeStrncpy dest src).1 ++ rest)).length ≤ n := by
  have hzero : 0 ∈ (safeStrncpy dest src).1 := List.mem_append_right _ (List.mem_cons_self ..)
  have hlt := length_cString_lt hzero
  rw [(safeStrncpy dest src).2] at hlt
  rw [cString_append_of_mem hzero]
  omega

/-! ## The three requests -/

/-- The kinds of request that come in a packet. -/
inductive RequestKind
  | order
  | cancel
  | modify
  deriving DecidableEq, Repr

namespace RequestKind

/-- The size of the struct of the kind. -/
def size : RequestKind → ℕ
  | .order => NetOrder.packed.size
  | .cancel => NetCancel.packed.size
  | .modify => NetModify.packed.size

/-- `from_net` of the struct that a body is copied to; `behind` is the memory behind it. -/
def fromNet (kind : RequestKind) (body behind : List UInt8) : Request :=
  match kind with
  | .order => .submit (orderFromNet (NetOrder.packed.get body) behind)
  | .cancel => .cancel (cancelFromNet (NetCancel.packed.get body) behind)
  | .modify => .modify (modifyFromNet (NetModify.packed.get body) behind)

/-- The symbol bytes of a body. -/
def symbolBytes (body : List UInt8) : List UInt8 := (body.drop 8).take 8

end RequestKind

/-- The bytes of `to_net` of a request; `old` are the contents of the uninitialised struct. -/
def Request.toNet (old : List UInt8) : Request → List UInt8
  | .submit order => NetOrder.packed.put (orderToNet (NetOrder.packed.get old) order)
  | .cancel req => NetCancel.packed.put (cancelToNet (NetCancel.packed.get old) req)
  | .modify req => NetModify.packed.put (modifyToNet (NetModify.packed.get old) req)

/-- The request of a session's client. -/
def Request.ofClient (clientId : ClientID) : Request → Request
  | .submit order => .submit { order with clientId := clientId }
  | .cancel req => .cancel { req with clientId := clientId }
  | .modify req => .modify { req with clientId := clientId }

/-- The type of the packets of the kind. -/
def RequestKind.msgType : RequestKind → UInt16
  | .order => MsgType.order
  | .cancel => MsgType.cancel
  | .modify => MsgType.modify

/-- The packet is of the type and the size of the kind. -/
def Packet.Carries (packet : Packet) (kind : RequestKind) : Prop :=
  packet.type = kind.msgType ∧ packet.body.length = kind.size

instance (packet : Packet) (kind : RequestKind) : Decidable (packet.Carries kind) := inferInstanceAs (Decidable (_ ∧ _))

/-- A session executes what it decodes, for its own client, or rejects it. -/
theorem Session.processPacket_decodes {clientId : ClientID} {packet : Packet} {behind : List UInt8}
    {risk risk' : RiskChecker} {env env' : Env} {result : PacketResult}
    (h : processPacket clientId packet behind risk env = (result, risk', env')) :
    match result with
    | .dropped => True
    | .rejected report => packet.Carries .order ∧ ∃ order reason now,
        Request.submit order = (RequestKind.order.fromNet packet.body behind).ofClient clientId ∧
          risk.validateOrder order = .error reason ∧ report = rejectReport order reason clientId now
    | .accepted task => ∃ kind : RequestKind, packet.Carries kind ∧
        task.request = (kind.fromNet packet.body behind).ofClient clientId := by
  unfold processPacket at h
  split at h
  next htype =>
    split at h
    next =>
      cases h
      trivial
    next hlen =>
      dsimp only at h
      split at h
      next reason hr =>
        cases h
        exact ⟨⟨htype, not_not.1 hlen⟩, _, reason, _, rfl, hr, rfl⟩
      next =>
        cases h
        exact ⟨.order, ⟨htype, not_not.1 hlen⟩, rfl⟩
  next =>
  split at h
  next htype =>
    split at h
    next => cases h; trivial
    next hlen => cases h; exact ⟨.cancel, ⟨htype, not_not.1 hlen⟩, rfl⟩
  next =>
  split at h
  next htype =>
    split at h
    next => cases h; trivial
    next hlen => cases h; exact ⟨.modify, ⟨htype, not_not.1 hlen⟩, rfl⟩
  next => cases h; trivial

theorem Request.ofClient_symbol (r : Request) (clientId : ClientID) : (r.ofClient clientId).symbol = r.symbol := by
  cases r <;> rfl

namespace RequestKind

variable (kind : RequestKind)

/-- The decoded symbol depends on the symbol bytes only, the request comes back from its own encoding, and what the log
gives back of the request executed for a client names the same symbol; all that whatever else is in memory. -/
structure Stable (body : List UInt8) : Prop where
  symbol : ∀ behind body' behind', body'.length = kind.size → symbolBytes body' = symbolBytes body →
    (kind.fromNet body' behind').symbol = (kind.fromNet body behind).symbol
  reencode : ∀ behind old behind', kind.fromNet ((kind.fromNet body behind).toNet old) behind' = kind.fromNet body behind
  recovered : ∀ behind clientId entry net after,
    ∃ r, (WALEntry.ofRequest entry net ((kind.fromNet body behind).ofClient clientId)).request after = some r ∧
      r.symbol = (kind.fromNet body behind).symbol

/-- The decoder reads the symbol from its offset on, through the end of the struct. -/
theorem fromNet_symbol {body : List UInt8} (h : body.length = kind.size) (behind : List UInt8) :
    (kind.fromNet body behind).symbol = cString ((body ++ behind).drop 8) := by
  cases kind with
  | order => exact congrArg (fun bytes => cString ((bytes ++ behind).drop 8)) (NetOrder.packed.put_get body h)
  | cancel => exact congrArg (fun bytes => cString ((bytes ++ behind).drop 8)) (NetCancel.packed.put_get body h)
  | modify => exact congrArg (fun bytes => cString ((bytes ++ behind).drop 8)) (NetModify.packed.put_get body h)

theorem sixteen_le_size : 16 ≤ kind.size := by cases kind <;> decide

theorem length_symbolBytes {body : List UInt8} (h : body.length = kind.size) : (symbolBytes body).length = 8 := by
  have hsize := kind.sixteen_le_size
  unfold symbolBytes
  rw [List.length_take, List.length_drop]
  omega

/-- The symbol bytes come first in what the decoder reads. -/
theorem drop_eq {body : List UInt8} (h : body.length = kind.size) (behind : List UInt8) :
    (body ++ behind).drop 8 = symbolBytes body ++ ((body.drop 8).drop 8 ++ behind) := by
  have hsize := kind.sixteen_le_size
  rw [List.drop_append_of_le_length (by omega), ← List.append_assoc]
  unfold symbolBytes
  rw [List.take_append_drop]

/-- With a zero byte among the symbol bytes the symbol is what stands in front of it. -/
theorem fromNet_symbol_of_mem {body : List UInt8} (h : body.length = kind.size) (hzero : 0 ∈ symbolBytes body)
    (behind : List UInt8) : (kind.fromNet body behind).symbol = cString (symbolBytes body) := by
  rw [kind.fromNet_symbol h, kind.drop_eq h, cString_append_of_mem hzero]

/-- Decoding an encoded request reads the fields of the struct. -/
theorem fromNet_toNet_eq (body behind old behind' : List UInt8) :
    kind.fromNet ((kind.fromNet body behind).toNet old) behind' =
      match kind with
      | .order => .submit (orderFromNet (orderToNet (NetOrder.packed.get old)
          (orderFromNet (NetOrder.packed.get body) behind)) behind')
      | .cancel => .cancel (cancelFromNet (cancelToNet (NetCancel.packed.get old)
          (cancelFromNet (NetCancel.packed.get body) behind)) behind')
      | .modify => .modify (modifyFromNet (modifyToNet (NetModify.packed.get old)
          (modifyFromNet (NetModify.packed.get body) behind)) behind') := by
  cases kind with
  | order => simp only [fromNet, Request.toNet, NetOrder.packed.get_put]
  | cancel => simp only [fromNet, Request.toNet, NetCancel.packed.get_put]
  | modify => simp only [fromNet, Request.toNet, NetModify.packed.get_put]

/-- An encoded request names a symbol of at most seven bytes. -/
theorem length_reencoded_symbol (body behind old behind' : List UInt8) :
    (kind.fromNet ((kind.fromNet body behind).toNet old) behind').symbol.length ≤ 7 := by
  have hread : ∃ (dest : Chars 8) (src : Text) (rest : List UInt8),
      (kind.fromNet ((kind.fromNet body behind).toNet old) behind').symbol = cString ((safeStrncpy dest src).1 ++ rest) := by
    rw [kind.fromNet_toNet_eq]
    cases kind with
    | order => exact ⟨_, _, orderFromNet_symbol _ _ behind'⟩
    | cancel => exact ⟨_, _, cancelFromNet_symbol _ _ behind'⟩
    | modify => exact ⟨_, _, modifyFromNet_symbol _ _ behind'⟩
  obtain ⟨dest, src, rest, hread⟩ := hread
  rw [hread]
  exact length_cString_safeStrncpy dest src rest

/-- A request whose symbol fits the struct comes back from its encoding. -/
theorem fromNet_toNet {body behind : List UInt8} (h : Fits (kind.fromNet body behind).symbol) (old behind' : List UInt8) :
    kind.fromNet ((kind.fromNet body behind).toNet old) behind' = kind.fromNet body behind := by
  rw [kind.fromNet_toNet_eq]
  cases kind with
  | order => exact congrArg Request.submit (orderFromNet_toNet _ h rfl behind')
  | cancel => exact congrArg Request.cancel (cancelFromNet_toNet _ h behind')
  | modify => exact congrArg Request.modify (modifyFromNet_toNet _ h behind')

theorem built_ofClient {body behind : List UInt8} (h : Fits (kind.fromNet body behind).symbol) (clientId : ClientID) :
    ((kind.fromNet body behind).ofClient clientId).Built := by
  cases kind with
  | order => exact ⟨h, rfl⟩
  | cancel => exact h
  | modify => exact h

end RequestKind

/-- A body of the right size is decoded in a stable way exactly if one of its eight symbol bytes is zero. -/
theorem stable_iff (kind : RequestKind) (body : List UInt8) (h : body.length = kind.size) :
    kind.Stable body ↔ 0 ∈ RequestKind.symbolBytes body := by
  constructor
  · intro hstable
    by_contra hzero
    -- eight bytes or more are decoded, and seven come back
    have hshort := kind.length_reencoded_symbol body [] [] []
    rw [hstable.reencode [] [] [], kind.fromNet_symbol h, kind.drop_eq h] at hshort
    have hlong := length_cString_of_nulFree hzero ((body.drop 8).drop 8 ++ [])
    rw [kind.length_symbolBytes h] at hlong
    omega
  · intro hzero
    have hfits : ∀ behind, Fits (kind.fromNet body behind).symbol := by
      intro behind
      have hlt := length_cString_lt hzero
      rw [kind.length_symbolBytes h] at hlt
      rw [kind.fromNet_symbol_of_mem h hzero]
      exact ⟨cString_nulFree _, by omega⟩
    refine ⟨fun behind body' behind' h' hbytes => ?_, fun behind old behind' => ?_, fun behind clientId entry net after => ?_⟩
    · rw [kind.fromNet_symbol_of_mem h hzero, kind.fromNet_symbol_of_mem h' (hbytes ▸ hzero), hbytes]
    · exact kind.fromNet_toNet (hfits behind) old behind'
    · refine ⟨_, WALEntry.request_ofRequest entry net (kind.built_ofClient (hfits behind) clientId) after, ?_⟩
      rw [Request.anonymous_symbol, Request.ofClient_symbol]

/-- An order for `AAPL`. -/
theorem stable_iff_aapl : RequestKind.order.Stable
    ([1, 0, 0, 0, 0, 0, 0, 0] ++ text "AAPL" ++ List.replicate 26 0) :=
  (stable_iff .order _ (by decide)).2 (by decide)

/-- An order whose symbol field holds eight letters and no terminator, on the sell side: its side byte is read as the
ninth letter, and of all that its encoding keeps seven letters. -/
theorem unterminated_not_stable : ¬ RequestKind.order.Stable
    ([1, 0, 0, 0, 0, 0, 0, 0] ++ text "ABCDEFGH" ++ 1 :: List.replicate 21 0) := by
  intro h
  have hreencode := congrArg Request.symbol (h.reencode [] [] [])
  revert hreencode
  decide

end StockExchange
