import DnsWrapper.PacketWire

/-! How far Write stores. Write has no bounds check and expands every name that Read
followed through a compression pointer, so a small datagram can need a large buffer. -/
namespace DnsWrapper.Dns
open ByteReader ByteWriter ByteWord NetCommon

/- The byte stored behind the last record, when that record ends in a name. -/
def lastOverhang (rs : List DnsRecord) : Nat :=
  match rs.getLast? with
  | some r => r.overhang
  | none => 0

theorem DnsRecord.overhang_le_one (r : DnsRecord) : r.overhang ≤ 1 := by
  unfold overhang
  split
  · exact Nat.le_refl 1
  · exact Nat.zero_le 1

theorem lastOverhang_eq_zero {rs : List DnsRecord} (h : ∀ r ∈ rs, ¬ r.endsInName) :
    lastOverhang rs = 0 := by
  unfold lastOverhang
  split
  · rename_i r hlast
    exact if_neg (h r (List.mem_of_getLast? hlast))
  · rfl

theorem extent_questions (qs : List DnsQuestion) :
    Extent (all DnsQuestion.write qs) (qs.map DnsQuestion.size).sum
      (qs.map DnsQuestion.size).sum := by
  induction qs with
  | nil => exact extent_done
  | cons q qs ih =>
    have h := extent_andThen q.extent_write ih
    rw [Nat.max_eq_right (by omega)] at h
    exact h

theorem extent_records (rs : List DnsRecord) :
    Extent (all DnsRecord.write rs) (rs.map DnsRecord.size).sum
      ((rs.map DnsRecord.size).sum + lastOverhang rs) := by
  induction rs with
  | nil => exact extent_done
  | cons r rs ih =>
    have h := extent_andThen r.extent_write ih
    have hhi : max (r.size + r.overhang)
        (r.size + ((rs.map DnsRecord.size).sum + lastOverhang rs)) =
        ((r :: rs).map DnsRecord.size).sum + lastOverhang (r :: rs) := by
      cases rs with
      | nil => simp [lastOverhang]
      | cons s rs =>
        have hone := r.overhang_le_one
        have hpos : 0 < s.size := by
          simp only [DnsRecord.size, DnsRecord.fixedSize]
          omega
        simp only [lastOverhang, List.getLast?_cons_cons, List.map_cons, List.sum_cons]
        omega
    rw [hhi] at h
    exact h

namespace DnsPacket

/-- One more than the last index Write stores at. -/
def reach (p : DnsPacket) : Nat := p.size + lastOverhang p.records

theorem extent_write (p : DnsPacket) : Extent p.write p.size p.reach := by
  have h := extent_andThen p.header.extent_write
    (extent_andThen (extent_questions p.questionList) (extent_records p.records))
  rw [write_eq]
  have hadv : DnsHeader.headerSize + ((p.questionList.map DnsQuestion.size).sum +
      (p.records.map DnsRecord.size).sum) = p.size := by
    rw [size, Nat.add_assoc]
  have hhi : max DnsHeader.headerSize (DnsHeader.headerSize +
      max (p.questionList.map DnsQuestion.size).sum ((p.questionList.map DnsQuestion.size).sum +
        ((p.records.map DnsRecord.size).sum + lastOverhang p.records))) = p.reach := by
    rw [reach, size]
    omega
  rw [hadv, hhi] at h
  exact h

/-- Write stores only inside the buffer exactly when the expanded packet, with the byte
behind a final name, fits it. -/
theorem write_inside_iff (p : DnsPacket) (out : List UInt8) (h : out.length = maxPacketSz) :
    (p.write.run out 0).isSome = true ↔ p.reach ≤ maxPacketSz := by
  constructor
  · intro hs
    by_contra hlt
    have hnone := p.extent_write.undefined out 0 (Nat.zero_le _) (by omega)
    rw [hnone] at hs
    cases hs
  · intro hle
    obtain ⟨buf, hrun, _⟩ := p.extent_write.defined out 0 (by omega)
    rw [hrun]
    rfl

theorem reach_le (p : DnsPacket) : p.size ≤ p.reach ∧ p.reach ≤ p.size + 1 := by
  have hlast : lastOverhang p.records ≤ 1 := by
    unfold lastOverhang
    split
    · exact DnsRecord.overhang_le_one _
    · exact Nat.zero_le 1
  rw [reach]
  omega

/- What stands in the buffer before the cursor is then the encoding of the packet. -/
theorem write_fitting {p : DnsPacket} (h : p.reach ≤ maxPacketSz) :
    ∃ out, p.write.run zeroBuffer 0 = some (out, p.size) ∧ out.take p.size = p.wire := by
  have hinside := emits_inside p.emits_write p.local_write p.extent_write h
  rwa [wire_length] at hinside

/- A reply with one question, whose name has two labels of 63 bytes, and nine NS records
   that point to this name with both their owner and their RDATA. -/
def expandingReply : List UInt8 :=
  [0, 1, 0x80, 0, 0, 1, 0, 9, 0, 0, 0, 0] ++
    (63 :: List.replicate 63 97) ++ (63 :: List.replicate 63 98) ++ [0, 0, 2, 0, 1] ++
    (List.replicate 9 [0xc0, 12, 0, 2, 0, 1, 0, 0, 0, 0, 0, 2, 0xc0, 12]).flatten

def expandingBuffer : List UInt8 := expandingReply ++ List.replicate (maxPacketSz - 271) 0

theorem expandingReply_overruns :
    expandingReply.length = 271 ∧ expandingBuffer.length = maxPacketSz ∧
      ∃ p q, (read fun _ => CString.empty).run expandingBuffer 271 0 = .ok (p, q) ∧
        (p.write.run zeroBuffer 0).isSome = false := by
  refine ⟨by decide +kernel, by decide +kernel, ?_⟩
  have hread : ((read fun _ => CString.empty).run expandingBuffer 271 0).map
      (fun x => decide (maxPacketSz < x.1.reach)) = .ok true := by decide +kernel
  cases he : (read fun _ => CString.empty).run expandingBuffer 271 0 with
  | error e =>
    rw [he] at hread
    cases hread
  | ok v =>
    obtain ⟨p, q⟩ := v
    rw [he] at hread
    have hreach : maxPacketSz < p.reach := by
      simpa [Except.map] using hread
    have hlen : zeroBuffer.length = maxPacketSz := List.length_replicate
    refine ⟨p, q, rfl, ?_⟩
    rw [p.extent_write.undefined zeroBuffer 0 (Nat.zero_le _) (by omega)]
    rfl

theorem write_inside_iff_expandingBuffer :
    expandingBuffer.length = maxPacketSz ∧
      ∀ p q, (read fun _ => CString.empty).run expandingBuffer 271 0 = .ok (p, q) →
        ((p.write.run expandingBuffer 0).isSome = true ↔ p.reach ≤ maxPacketSz) :=
  have h : expandingBuffer.length = maxPacketSz := by decide +kernel
  ⟨h, fun p _ _ => write_inside_iff p expandingBuffer h⟩

end DnsPacket
end DnsWrapper.Dns
