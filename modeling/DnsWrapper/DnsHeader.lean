import DnsWrapper.NetCommon

/-! The twelve-byte message header: accessors of the two flag bytes, Read, Validate
and Write. -/
namespace DnsWrapper.Dns
open ByteReader ByteWriter ByteWord NetCommon

structure DnsHeader where
  id : UInt16
  hb3 : UInt8
  hb4 : UInt8
  questionCount : UInt16
  answerCount : UInt16
  authorityCount : UInt16
  additionalCount : UInt16
  deriving DecidableEq, Repr

namespace DnsHeader

def getQueryResponse (h : DnsHeader) : Bool := h.hb3 &&& ((1 : UInt8) <<< 7) != 0
def getOpCode (h : DnsHeader) : UInt8 := (h.hb3 >>> 4) &&& 0b111
def getAuthoritativeAnswer (h : DnsHeader) : Bool := h.hb3 &&& ((1 : UInt8) <<< 2) != 0
def getTruncatedMessage (h : DnsHeader) : Bool := h.hb3 &&& ((1 : UInt8) <<< 1) != 0
def getRecursionDesired (h : DnsHeader) : Bool := h.hb3 &&& 1 != 0
def getRecursionAvailable (h : DnsHeader) : Bool := h.hb4 &&& ((1 : UInt8) <<< 7) != 0
def getAuthenticData (h : DnsHeader) : Bool := h.hb4 &&& 0x20 != 0
def getCheckingDisabled (h : DnsHeader) : Bool := h.hb4 &&& 0x10 != 0
def getResponseCode (h : DnsHeader) : UInt8 := h.hb4 &&& 0b1111

def setQueryResponse (h : DnsHeader) (v : Bool) : DnsHeader :=
  { h with hb3 := h.hb3 ||| (v.toUInt8 <<< 7) }
def setOpCode (h : DnsHeader) (v : UInt8) : DnsHeader :=
  { h with hb3 := h.hb3 ||| ((v &&& 0b1111) <<< 3) }
def setAuthoritativeAnswer (h : DnsHeader) (v : Bool) : DnsHeader :=
  { h with hb3 := h.hb3 ||| (v.toUInt8 <<< 2) }
def setTruncatedMessage (h : DnsHeader) (v : Bool) : DnsHeader :=
  { h with hb3 := h.hb3 ||| (v.toUInt8 <<< 1) }
def setRecursionDesired (h : DnsHeader) (v : Bool) : DnsHeader :=
  { h with hb3 := h.hb3 ||| v.toUInt8 }
def setRecursionAvailable (h : DnsHeader) (v : Bool) : DnsHeader :=
  { h with hb4 := h.hb4 ||| (v.toUInt8 <<< 7) }
def setAuthenticData (h : DnsHeader) (v : Bool) : DnsHeader :=
  { h with hb4 := h.hb4 ||| (v.toUInt8 <<< 5) }
def setCheckingDisabled (h : DnsHeader) (v : Bool) : DnsHeader :=
  { h with hb4 := h.hb4 ||| (v.toUInt8 <<< 6) }
def setResponseCode (h : DnsHeader) (v : UInt8) : DnsHeader :=
  { h with hb4 := h.hb4 ||| (v &&& 0b1111) }

def headerSize : Nat := 12

def read : Reader Code DnsHeader := do
  validate headerSize
  let id ← vreadU16
  let hb3 ← vreadByte
  let hb4 ← vreadByte
  let questionCount ← vreadU16
  let answerCount ← vreadU16
  let authorityCount ← vreadU16
  let additionalCount ← vreadU16
  pure { id, hb3, hb4, questionCount, answerCount, authorityCount, additionalCount }

def validate (h : DnsHeader) (pt : PacketType) : Code :=
  match pt with
  | .incomingRequest =>
    if h.getQueryResponse then eFormErr
    else if h.getOpCode ≠ sQuery then eNotImp
    else if h.getTruncatedMessage then eFormErr
    else if h.getResponseCode ≠ 0 then eFormErr
    else if h.questionCount = 0 then eFormErr
    else if h.answerCount > 0 ∨ h.authorityCount > 0 then eFormErr
    else eNoError
  | .incomingResponse => if h.getQueryResponse then eNoError else eFormErr
  | .outgoingRequest | .outgoingResponse => eNoError

/- The bytes of the header on the wire. -/
def wire (h : DnsHeader) : List UInt8 :=
  bytes16 h.id ++ ([h.hb3] ++ ([h.hb4] ++ (bytes16 h.questionCount ++ (bytes16 h.answerCount ++
    (bytes16 h.authorityCount ++ bytes16 h.additionalCount)))))

def write (h : DnsHeader) : Writer :=
  andThen (writeU16 h.id) (andThen (writeByte h.hb3) (andThen (writeByte h.hb4)
    (andThen (writeU16 h.questionCount) (andThen (writeU16 h.answerCount)
      (andThen (writeU16 h.authorityCount) (writeU16 h.additionalCount))))))

theorem wire_length (h : DnsHeader) : h.wire.length = headerSize := by
  simp [wire, bytes16, headerSize]

theorem stable_read : Stable read :=
  stable_bind (stable_validate _) fun _ => stable_bind stable_vreadU16 fun _ =>
    stable_bind stable_vreadByte fun _ => stable_bind stable_vreadByte fun _ =>
      stable_bind stable_vreadU16 fun _ => stable_bind stable_vreadU16 fun _ =>
        stable_bind stable_vreadU16 fun _ => stable_bind stable_vreadU16 fun _ => stable_pure _

theorem within_read : Within read :=
  within_bind (within_validate _) fun _ => within_bind within_vreadU16 fun _ =>
    within_bind within_vreadByte fun _ => within_bind within_vreadByte fun _ =>
      within_bind within_vreadU16 fun _ => within_bind within_vreadU16 fun _ =>
        within_bind within_vreadU16 fun _ => within_bind within_vreadU16 fun _ => within_pure _

/-- Read gives back the header whose bytes stand at the cursor. -/
theorem yields_read (h : DnsHeader) : Yields read h.wire h := by
  have hbody : Yields (do
      let id ← vreadU16
      let hb3 ← vreadByte
      let hb4 ← vreadByte
      let questionCount ← vreadU16
      let answerCount ← vreadU16
      let authorityCount ← vreadU16
      let additionalCount ← vreadU16
      pure (⟨id, hb3, hb4, questionCount, answerCount, authorityCount, additionalCount⟩ :
        DnsHeader)) (h.wire ++ []) h := by
    simp only [wire, List.append_assoc]
    apply yields_bind (yields_vreadU16 h.id)
    apply yields_bind (yields_vreadByte h.hb3)
    apply yields_bind (yields_vreadByte h.hb4)
    apply yields_bind (yields_vreadU16 h.questionCount)
    apply yields_bind (yields_vreadU16 h.answerCount)
    apply yields_bind (yields_vreadU16 h.authorityCount)
    apply yields_bind (yields_vreadU16 h.additionalCount)
    exact yields_pure h
  rw [List.append_nil] at hbody
  intro pre post n hn
  rw [read, bind_of_ok (validate_ok _ (by rw [wire_length] at hn; exact hn))]
  exact hbody pre post n hn

theorem emits_write (h : DnsHeader) : Emits h.write h.wire := by
  apply emits_andThen (emits_putAll _)
  apply emits_andThen (emits_put _)
  apply emits_andThen (emits_put _)
  apply emits_andThen (emits_putAll _)
  apply emits_andThen (emits_putAll _)
  apply emits_andThen (emits_putAll _)
  exact emits_putAll _

theorem extent_write (h : DnsHeader) : Extent h.write headerSize headerSize := by
  have h₁ := extent_andThen (extent_putAll (bytes16 h.authorityCount))
    (extent_putAll (bytes16 h.additionalCount))
  have h₂ := extent_andThen (extent_putAll (bytes16 h.answerCount)) h₁
  have h₃ := extent_andThen (extent_putAll (bytes16 h.questionCount)) h₂
  have h₄ := extent_andThen (extent_put h.hb4) h₃
  have h₅ := extent_andThen (extent_put h.hb3) h₄
  exact extent_andThen (extent_putAll (bytes16 h.id)) h₅

end DnsHeader
end DnsWrapper.Dns
