import DnsWrapper.DnsRecord
import DnsWrapper.Sha256

/-! Whole messages: the four counted sections, Read, Validate, Write, the query digest
and the setters the server uses. -/
namespace DnsWrapper.Dns
open ByteReader ByteWriter ByteWord NetCommon

structure DnsPacket where
  header : DnsHeader
  questions : List DnsQuestion
  answers : List DnsRecord
  authorities : List DnsRecord
  additionals : List DnsRecord
  deriving DecidableEq, Repr

namespace DnsPacket

/- The members of the arrays that the loops over i < Count visit. -/
def questionList (p : DnsPacket) : List DnsQuestion :=
  p.questions.take p.header.questionCount.toNat
def answerList (p : DnsPacket) : List DnsRecord :=
  p.answers.take p.header.answerCount.toNat
def authorityList (p : DnsPacket) : List DnsRecord :=
  p.authorities.take p.header.authorityCount.toNat
def additionalList (p : DnsPacket) : List DnsRecord :=
  p.additionals.take p.header.additionalCount.toNat

/- DnsQuestion has a user-provided constructor that initialises nothing: before Read
   the Name of questions[i] holds whatever the memory held, here garbage i. -/
def read (garbage : Nat → CString) : Reader Code DnsPacket := do
  let header ← DnsHeader.read
  let questions ← each (fun i => DnsQuestion.read (garbage i)) 0 header.questionCount.toNat
  let answers ← each (fun _ => DnsRecord.read .answer) 0 header.answerCount.toNat
  let authorities ← each (fun _ => DnsRecord.read .authority) 0 header.authorityCount.toNat
  let additionals ← each (fun _ => DnsRecord.read .additional) 0 header.additionalCount.toNat
  pure { header, questions, answers, authorities, additionals }

/- VALIDATE_RECORD: the running code is overwritten by each element's own code, and
   the first one that is not E_NOERROR is returned at once. -/
def validateEach {α : Type} (v : α → Code) : Code → List α → Except Code Code
  | code, [] => .ok code
  | _, x :: xs => if v x ≠ eNoError then .error (v x) else validateEach v (v x) xs

def validateSections (p : DnsPacket) (pt : PacketType) (code : Code) : Except Code Code := do
  let code ← validateEach (fun q => q.validate pt) code p.questionList
  let code ← validateEach (fun r => r.validate pt) code p.answerList
  let code ← validateEach (fun r => r.validate pt) code p.authorityList
  validateEach (fun r => r.validate pt) code p.additionalList

def hasPsuedoHeader (p : DnsPacket) : Bool := p.additionalList.any fun r => r.type = qtOpt

def psuedoHeaderCount (p : DnsPacket) : Nat :=
  p.additionalList.countP fun r => r.type = qtOpt

def validate (p : DnsPacket) (pt : PacketType) : Code :=
  let code := p.header.validate pt
  if code = eNoError then code
  else
    let sections :=
      if pt = .incomingRequest ∨ pt = .incomingResponse then p.validateSections pt code
      else .ok code
    match sections with
    | .error code => code
    | .ok code => if p.psuedoHeaderCount > 1 then eFormErr else code

def write (p : DnsPacket) : Writer :=
  andThen p.header.write (andThen (all DnsQuestion.write p.questionList)
    (andThen (all DnsRecord.write p.answerList) (andThen (all DnsRecord.write p.authorityList)
      (all DnsRecord.write p.additionalList))))

/- The bytes UpdateDigest feeds to the hash; Type and Class in memory order. -/
def digestBytes (q : DnsQuestion) : List UInt8 :=
  q.name.bytes ++ (bytes16 q.type).reverse ++ (bytes16 q.cls).reverse

def hash (p : DnsPacket) : List UInt8 :=
  Sha256.final (p.questionList.foldl (fun ctx q => Sha256.update ctx (digestBytes q)) Sha256.init)

def isRequest (p : DnsPacket) : Bool := !p.header.getQueryResponse
def getId (p : DnsPacket) : UInt16 := p.header.id
def getResponseCode (p : DnsPacket) : UInt8 := p.header.getResponseCode

def setAsQueryResponse (p : DnsPacket) : DnsPacket :=
  { p with header := p.header.setQueryResponse true }
def setId (p : DnsPacket) (id : UInt16) : DnsPacket := { p with header := { p.header with id } }
def setAsAuthoritativeAnswer (p : DnsPacket) (v : Bool) : DnsPacket :=
  { p with header := p.header.setAuthoritativeAnswer v }
def setRecursionAvailable (p : DnsPacket) (v : Bool) : DnsPacket :=
  { p with header := p.header.setRecursionAvailable v }
def setResponseCode (p : DnsPacket) (v : UInt8) : DnsPacket :=
  { p with header := p.header.setResponseCode v }

def setAnswers (p : DnsPacket) (writeAnswer : DnsQuestion → DnsRecord) : DnsPacket :=
  if p.header.questionCount = 0 then p
  else { p with
    answers := p.questionList.map writeAnswer
    header := { p.header with answerCount := p.header.questionCount } }

/-- The counts in the header are the lengths of the sections. -/
structure Counted (p : DnsPacket) : Prop where
  questions : p.questions.length = p.header.questionCount.toNat
  answers : p.answers.length = p.header.answerCount.toNat
  authorities : p.authorities.length = p.header.authorityCount.toNat
  additionals : p.additionals.length = p.header.additionalCount.toNat

theorem Counted.questionList {p : DnsPacket} (h : p.Counted) : p.questionList = p.questions :=
  List.take_of_length_le h.questions.le
theorem Counted.answerList {p : DnsPacket} (h : p.Counted) : p.answerList = p.answers :=
  List.take_of_length_le h.answers.le
theorem Counted.authorityList {p : DnsPacket} (h : p.Counted) : p.authorityList = p.authorities :=
  List.take_of_length_le h.authorities.le
theorem Counted.additionalList {p : DnsPacket} (h : p.Counted) : p.additionalList = p.additionals :=
  List.take_of_length_le h.additionals.le

/-- A packet that Read accepted is counted. -/
theorem counted_of_read {garbage : Nat → CString} {buf : List UInt8} {n pos q : Nat}
    {p : DnsPacket} (h : (read garbage).run buf n pos = .ok (p, q)) : p.Counted := by
  obtain ⟨header, q₀, _, h⟩ := bind_eq_ok.mp h
  obtain ⟨questions, q₁, hq, h⟩ := bind_eq_ok.mp h
  obtain ⟨answers, q₂, ha, h⟩ := bind_eq_ok.mp h
  obtain ⟨authorities, q₃, hau, h⟩ := bind_eq_ok.mp h
  obtain ⟨additionals, q₄, had, h⟩ := bind_eq_ok.mp h
  cases h
  exact ⟨each_length hq, each_length ha, each_length hau, each_length had⟩

end DnsPacket
end DnsWrapper.Dns
