import DnsWrapper.NameWire

/-! The bytes and the sizes of questions, records and messages. The sizes are those of
the encoding without compression, the only one Write knows. -/
namespace DnsWrapper.Dns
open ByteReader ByteWriter ByteWord NetCommon

namespace CString

def size (s : CString) : Nat := s.bytes.length + 2

end CString

namespace DnsQuestion

def wire (q : DnsQuestion) : List UInt8 := nameWire q.name ++ (bytes16 q.type ++ bytes16 q.cls)

def size (q : DnsQuestion) : Nat := q.name.size + 4

theorem wire_length (q : DnsQuestion) : q.wire.length = q.size := by
  simp [wire, size, CString.size, nameWire_length, bytes16]

theorem emits_write (q : DnsQuestion) : Emits q.write q.wire := by
  apply emits_andThen (emits_writeLabel q.name)
  apply emits_andThen (emits_putAll _)
  exact emits_putAll _

theorem extent_write (q : DnsQuestion) : Extent q.write q.size q.size := by
  have h := extent_andThen (extent_writeLabel q.name)
    (extent_andThen (extent_putAll (bytes16 q.type)) (extent_putAll (bytes16 q.cls)))
  have hsize : max (q.name.bytes.length + 3) (q.name.bytes.length + 2 +
      max (bytes16 q.type).length ((bytes16 q.type).length + (bytes16 q.cls).length)) = q.size := by
    simp only [bytes16, List.length_cons, List.length_nil, size, CString.size]
    omega
  rw [hsize] at h
  exact h

theorem local_write (q : DnsQuestion) : Local q.write :=
  local_andThen (local_writeLabel q.name) (local_andThen (local_putAll _) (local_putAll _))

end DnsQuestion

namespace DnsRecord

/-- The RDATA of a record as the bytes its Type and its Address stand for. -/
def rdata (r : DnsRecord) : List UInt8 :=
  if r.type = qtA then bytes32 r.address.asIpv4
  else if r.type = qtNS then nameWire r.address.asNS
  else if r.type = qtCName then nameWire r.address.asCName
  else if r.type = qtMX then
    bytes16 r.address.asMailExchange.1 ++ nameWire r.address.asMailExchange.2
  else if r.type = qtAAAA then
    let (n1, n2, n3, n4) := r.address.asIpv6
    bytes32 n1 ++ (bytes32 n2 ++ (bytes32 n3 ++ bytes32 n4))
  else []

def rdataSize (r : DnsRecord) : Nat :=
  if r.type = qtA then 4
  else if r.type = qtNS then r.address.asNS.size
  else if r.type = qtCName then r.address.asCName.size
  else if r.type = qtMX then 2 + r.address.asMailExchange.2.size
  else if r.type = qtAAAA then 16
  else 0

/- Whether the last field is a name, behind which WriteLabel stores one byte more. -/
def endsInName (r : DnsRecord) : Prop := r.type = qtNS ∨ r.type = qtCName ∨ r.type = qtMX

instance (r : DnsRecord) : Decidable r.endsInName := inferInstanceAs (Decidable (_ ∨ _ ∨ _))

def overhang (r : DnsRecord) : Nat := if r.endsInName then 1 else 0

def fixedWire (r : DnsRecord) : List UInt8 :=
  r.toDnsQuestion.wire ++ (bytes32 r.ttl ++ bytes16 r.len)

def fixedSize (r : DnsRecord) : Nat := r.toDnsQuestion.size + 6

def wire (r : DnsRecord) : List UInt8 := r.fixedWire ++ r.rdata

def size (r : DnsRecord) : Nat := r.fixedSize + r.rdataSize

theorem rdata_length (r : DnsRecord) : r.rdata.length = r.rdataSize := by
  unfold rdata rdataSize
  split
  · rfl
  split
  · exact nameWire_length _
  split
  · exact nameWire_length _
  split
  · rw [List.length_append, nameWire_length]
    rfl
  split
  · rfl
  · rfl

theorem wire_length (r : DnsRecord) : r.wire.length = r.size := by
  simp only [wire, size, fixedWire, fixedSize, List.length_append, rdata_length,
    DnsQuestion.wire_length]
  rfl

theorem emits_writeAddress (r : DnsRecord) : Emits r.writeAddress r.rdata := by
  unfold writeAddress rdata
  split
  · exact emits_putAll _
  split
  · exact emits_writeLabel _
  split
  · exact emits_writeLabel _
  split
  · exact emits_andThen (emits_putAll _) (emits_writeLabel _)
  split
  · exact emits_andThen (emits_putAll _) (emits_andThen (emits_putAll _)
      (emits_andThen (emits_putAll _) (emits_putAll _)))
  · exact emits_done

theorem emits_writeFixed (r : DnsRecord) : Emits r.writeFixed r.fixedWire := by
  apply emits_andThen r.toDnsQuestion.emits_write
  exact emits_andThen (emits_putAll _) (emits_putAll _)

theorem emits_write (r : DnsRecord) : Emits r.write r.wire :=
  emits_andThen r.emits_writeFixed r.emits_writeAddress

theorem extent_writeAddress (r : DnsRecord) :
    Extent r.writeAddress r.rdataSize (r.rdataSize + r.overhang) := by
  unfold writeAddress rdataSize overhang endsInName
  split
  · rename_i ht
    simp only [ht, qtA, qtNS, qtCName, qtMX]
    exact extent_putAll _
  split
  · rename_i ht
    simp only [ht, true_or, if_true]
    exact extent_writeLabel _
  split
  · rename_i ht
    simp only [ht, true_or, or_true, if_true]
    exact extent_writeLabel _
  split
  · rename_i ht
    simp only [ht, or_true, if_true]
    have h := extent_andThen (extent_putAll (bytes16 r.address.asMailExchange.1))
      (extent_writeLabel r.address.asMailExchange.2)
    have hhi : max (bytes16 r.address.asMailExchange.1).length
        ((bytes16 r.address.asMailExchange.1).length +
          (r.address.asMailExchange.2.bytes.length + 3)) =
        2 + r.address.asMailExchange.2.size + 1 := by
      simp only [bytes16, List.length_cons, List.length_nil, CString.size]
      omega
    rw [hhi] at h
    exact h
  · rename_i h₁ h₂ h₃ h₄
    simp only [h₂, h₃, h₄, or_false, if_false]
    split
    · exact extent_andThen (extent_putAll _) (extent_andThen (extent_putAll _)
        (extent_andThen (extent_putAll _) (extent_putAll _)))
    · exact extent_done

theorem extent_writeFixed (r : DnsRecord) : Extent r.writeFixed r.fixedSize r.fixedSize := by
  have h := extent_andThen r.toDnsQuestion.extent_write
    (extent_andThen (extent_putAll (bytes32 r.ttl)) (extent_putAll (bytes16 r.len)))
  rw [Nat.max_eq_right (by omega)] at h
  exact h

theorem extent_write (r : DnsRecord) : Extent r.write r.size (r.size + r.overhang) := by
  have h := extent_andThen r.extent_writeFixed r.extent_writeAddress
  rw [Nat.max_eq_right (by omega), ← Nat.add_assoc] at h
  exact h

theorem keeps_writeAddress (r : DnsRecord) : Keeps r.writeAddress := by
  unfold writeAddress
  split
  · exact keeps_putAll _
  split
  · exact keeps_writeLabel _
  split
  · exact keeps_writeLabel _
  split
  · exact keeps_andThen (keeps_putAll _) (keeps_writeLabel _)
  split
  · exact keeps_andThen (keeps_putAll _) (keeps_andThen (keeps_putAll _)
      (keeps_andThen (keeps_putAll _) (keeps_putAll _)))
  · exact keeps_done

theorem local_writeAddress (r : DnsRecord) : Local r.writeAddress := by
  unfold writeAddress
  split
  · exact local_putAll _
  split
  · exact local_writeLabel _
  split
  · exact local_writeLabel _
  split
  · exact local_andThen (local_putAll _) (local_writeLabel _)
  split
  · exact local_andThen (local_putAll _) (local_andThen (local_putAll _)
      (local_andThen (local_putAll _) (local_putAll _)))
  · exact local_done

theorem local_write (r : DnsRecord) : Local r.write :=
  local_andThen (local_andThen r.toDnsQuestion.local_write
    (local_andThen (local_putAll _) (local_putAll _))) r.local_writeAddress

end DnsRecord

namespace DnsPacket

/- The records of the three sections in the order they are written. -/
def records (p : DnsPacket) : List DnsRecord := p.answerList ++ (p.authorityList ++ p.additionalList)

def wire (p : DnsPacket) : List UInt8 :=
  p.header.wire ++ (p.questionList.flatMap DnsQuestion.wire ++ p.records.flatMap DnsRecord.wire)

def size (p : DnsPacket) : Nat :=
  DnsHeader.headerSize + (p.questionList.map DnsQuestion.size).sum +
    (p.records.map DnsRecord.size).sum

theorem write_eq (p : DnsPacket) : p.write = andThen p.header.write
    (andThen (all DnsQuestion.write p.questionList) (all DnsRecord.write p.records)) := by
  rw [records, all_append, all_append, write]

theorem wire_length (p : DnsPacket) : p.wire.length = p.size := by
  have hq : (fun q : DnsQuestion => q.wire.length) = DnsQuestion.size :=
    funext DnsQuestion.wire_length
  have hr : (fun r : DnsRecord => r.wire.length) = DnsRecord.size := funext DnsRecord.wire_length
  rw [wire, size, List.length_append, List.length_append, List.length_flatMap, List.length_flatMap,
    DnsHeader.wire_length, hq, hr, Nat.add_assoc]

/-- Into a zero-filled buffer Write puts the wire form of any packet. -/
theorem emits_write (p : DnsPacket) : Emits p.write p.wire := by
  rw [write_eq]
  exact emits_andThen p.header.emits_write
    (emits_andThen (emits_all _ fun q _ => q.emits_write) (emits_all _ fun r _ => r.emits_write))

theorem local_write (p : DnsPacket) : Local p.write := by
  rw [write_eq]
  have hheader : Local p.header.write :=
    local_andThen (local_putAll _) (local_andThen (local_put _) (local_andThen (local_put _)
      (local_andThen (local_putAll _) (local_andThen (local_putAll _)
        (local_andThen (local_putAll _) (local_putAll _))))))
  exact local_andThen hheader
    (local_andThen (local_all DnsQuestion.local_write _) (local_all DnsRecord.local_write _))

theorem write_zeroBuffer {p : DnsPacket} (h : p.size < maxPacketSz) :
    p.write.run zeroBuffer 0 =
      some (p.wire ++ List.replicate (maxPacketSz - p.size) 0, p.size) := by
  have hw := p.emits_write [] maxPacketSz (by rwa [wire_length])
  simpa [wire_length, zeroBuffer] using hw

end DnsPacket
end DnsWrapper.Dns
