import DnsWrapper.PacketWire

/-! Read undoes Write on packets without root names: each reader returns the value whose
bytes stand at the cursor and consumes exactly these. -/
namespace DnsWrapper.Dns
open ByteReader ByteWriter ByteWord NetCommon

/- The Address agrees with the Type, and its name is one that name allows. -/
def AddressOk (name : CString → Prop) (type : UInt16) : Address → Prop
  | .zero => False
  | .ipv4 _ => type = qtA
  | .ns s => type = qtNS ∧ name s
  | .cName s => type = qtCName ∧ name s
  | .mailExchange _ s => type = qtMX ∧ name s
  | .ipv6 _ _ _ _ => type = qtAAAA
  | .opt _ => False

theorem AddressOk.type {name : CString → Prop} {type : UInt16} {address : Address}
    (h : AddressOk name type address) :
    type = qtA ∨ type = qtNS ∨ type = qtCName ∨ type = qtMX ∨ type = qtAAAA := by
  cases address with
  | zero => exact h.elim
  | opt octets => exact h.elim
  | ipv4 n => exact .inl h
  | ns s => exact .inr (.inl h.1)
  | cName s => exact .inr (.inr (.inl h.1))
  | mailExchange priority s => exact .inr (.inr (.inr (.inl h.1)))
  | ipv6 n1 n2 n3 n4 => exact .inr (.inr (.inr (.inr h)))

def RecordOk (name : CString → Prop) (r : DnsRecord) : Prop :=
  name r.name ∧ AddressOk name r.type r.address

/-- Names without the root, types with an RDATA of their own, and an encoding that leaves
a byte of the buffer free. -/
structure WellFormed (p : DnsPacket) : Prop where
  counted : p.Counted
  questions : ∀ q ∈ p.questions, Dotted q.name
  records : ∀ r ∈ p.answers ++ p.authorities ++ p.additionals, RecordOk Dotted r
  size : p.size < maxPacketSz

theorem DnsQuestion.yields_read (old : CString) {q : DnsQuestion} (h : Dotted q.name) :
    Yields (DnsQuestion.read old) q.wire q := by
  have hcls : Yields (do let cls ← vreadU16; pure (⟨q.name, q.type, cls⟩ : DnsQuestion))
      (bytes16 q.cls ++ []) q := yields_bind (yields_vreadU16 q.cls) (yields_pure q)
  rw [List.append_nil] at hcls
  exact yields_bind (yields_readLabel old h) (yields_bind (yields_vreadU16 q.type) hcls)

namespace DnsRecord

/-- The switch of Read undoes the switch of Write, one case for each Type. -/
theorem yields_readAddress (rt : DnsRecordType) {r : DnsRecord}
    (h : AddressOk Dotted r.type r.address) :
    Yields (readAddress rt r.type r.len) r.rdata r.address := by
  obtain ⟨q, ttl, len, address⟩ := r
  simp only at h ⊢
  cases address with
  | zero => exact h.elim
  | opt octets => exact h.elim
  | ipv4 n =>
    simp only [AddressOk] at h
    simp only [readAddress, rdata, h, if_true]
    exact yields_map _ (yields_vreadU32 n)
  | ns name =>
    obtain ⟨ht, hn⟩ := h
    simp only [readAddress, rdata, ht, if_true]
    exact yields_map _ (yields_readLabel _ hn)
  | cName name =>
    obtain ⟨ht, hn⟩ := h
    simp only [readAddress, rdata, ht, if_true]
    exact yields_map _ (yields_readLabel _ hn)
  | mailExchange priority host =>
    obtain ⟨ht, hn⟩ := h
    simp only [readAddress, rdata, ht, if_true]
    exact yields_bind (yields_vreadU16 priority) (yields_map _ (yields_readLabel _ hn))
  | ipv6 n1 n2 n3 n4 =>
    simp only [AddressOk] at h
    simp only [readAddress, rdata, h, if_true]
    exact yields_bind (yields_vreadU32 n1) (yields_bind (yields_vreadU32 n2)
      (yields_bind (yields_vreadU32 n3) (yields_map _ (yields_vreadU32 n4))))

theorem yields_read (rt : DnsRecordType) {r : DnsRecord} (h : RecordOk Dotted r) :
    Yields (DnsRecord.read rt) r.wire r := by
  rw [wire, fixedWire, List.append_assoc, List.append_assoc]
  apply yields_bind (DnsQuestion.yields_read _ h.1)
  apply yields_bind (yields_vreadU32 r.ttl)
  apply yields_bind (yields_vreadU16 r.len)
  exact yields_map _ (yields_readAddress rt h.2)

end DnsRecord

theorem DnsPacket.yields_read (garbage : Nat → CString) {p : DnsPacket} (h : WellFormed p) :
    Yields (DnsPacket.read garbage) p.wire p := by
  have hrec : ∀ r ∈ p.answers ++ p.authorities ++ p.additionals, RecordOk Dotted r := h.records
  simp only [List.mem_append, or_imp, forall_and] at hrec
  obtain ⟨⟨ha, hau⟩, had⟩ := hrec
  have hq := yields_each (r := fun i => DnsQuestion.read (garbage i)) p.questions
    (fun i q hq => DnsQuestion.yields_read (garbage i) (h.questions q hq)) 0
  have hans := yields_each (r := fun _ => DnsRecord.read .answer) p.answers
    (fun i r hr => DnsRecord.yields_read .answer (ha r hr)) 0
  have haut := yields_each (r := fun _ => DnsRecord.read .authority) p.authorities
    (fun i r hr => DnsRecord.yields_read .authority (hau r hr)) 0
  have hadd := yields_each (r := fun _ => DnsRecord.read .additional) p.additionals
    (fun i r hr => DnsRecord.yields_read .additional (had r hr)) 0
  rw [h.counted.questions] at hq
  rw [h.counted.answers] at hans
  rw [h.counted.authorities] at haut
  rw [h.counted.additionals] at hadd
  rw [DnsPacket.wire, DnsPacket.records, h.counted.questionList, h.counted.answerList,
    h.counted.authorityList, h.counted.additionalList, List.flatMap_append, List.flatMap_append]
  apply yields_bind (DnsHeader.yields_read p.header)
  apply yields_bind hq
  apply yields_bind hans
  apply yields_bind haut
  exact yields_map _ hadd

/-- Write into a zero-filled buffer, then Read over what was written, is the identity. -/
theorem read_write (garbage : Nat → CString) (p : DnsPacket) (h : WellFormed p) :
    ∃ out n, p.write.run zeroBuffer 0 = some (out, n) ∧
      (DnsPacket.read garbage).run out n 0 = .ok (p, n) := by
  refine ⟨_, _, DnsPacket.write_zeroBuffer h.size, ?_⟩
  have hy := DnsPacket.yields_read garbage h [] (List.replicate (maxPacketSz - p.size) 0) p.size
    (by rw [List.length_nil, Nat.zero_add, DnsPacket.wire_length])
  rw [List.nil_append, List.length_nil, Nat.zero_add, DnsPacket.wire_length] at hy
  exact hy

theorem dotted_sampleName : Dotted sampleName := ⟨[[119], [97, 98]], by decide⟩

/- A reply with an MX answer, an NS authority and the address of the mail host. -/
def sampleReply : DnsPacket where
  header := ⟨7, 0x80, 0, 1, 1, 1, 1⟩
  questions := [⟨sampleName, qtMX, qtcIn⟩]
  answers := [⟨⟨sampleName, qtMX, qtcIn⟩, 300, 9, .mailExchange 10 sampleName⟩]
  authorities := [⟨⟨sampleName, qtNS, qtcIn⟩, 300, 2, .ns sampleName⟩]
  additionals := [⟨⟨sampleName, qtA, qtcIn⟩, 300, 4, .ipv4 0x7f000001⟩]

theorem wellFormed_sampleReply : WellFormed sampleReply where
  counted := ⟨rfl, rfl, rfl, rfl⟩
  questions := by simp [sampleReply, dotted_sampleName]
  records := by simp [sampleReply, RecordOk, AddressOk, dotted_sampleName]
  size := by decide

theorem read_write_sampleReply :
    WellFormed sampleReply ∧
      ∃ out n, sampleReply.write.run zeroBuffer 0 = some (out, n) ∧
        (DnsPacket.read fun _ => CString.empty).run out n 0 = .ok (sampleReply, n) :=
  ⟨wellFormed_sampleReply, read_write _ sampleReply wellFormed_sampleReply⟩

end DnsWrapper.Dns
