import Mathlib.Data.List.Induction
import DnsWrapper.DnsPacket

/-! What the digest of a query is computed from. The names in the stream have no length and
no terminator; a stream can be cut into questions in one way only if the byte in front of
every name but the first is zero, which is the high byte of the Class before it. -/
namespace DnsWrapper.Dns
open ByteReader ByteWord NetCommon

namespace DnsPacket

def streamOf (qs : List DnsQuestion) : List UInt8 := qs.flatMap digestBytes

/- The bytes that Hash feeds to SHA-256. -/
def digestStream (p : DnsPacket) : List UInt8 := streamOf p.questionList

theorem hash_eq (p : DnsPacket) :
    p.hash = Sha256.final (Sha256.update Sha256.init p.digestStream) := by
  rw [hash, digestStream, streamOf, Sha256.update, List.foldl_flatMap]
  rfl

theorem streamOf_append (qs : List DnsQuestion) (q : DnsQuestion) :
    streamOf (qs ++ [q]) = streamOf qs ++ q.name.bytes ++ ((bytes16 q.type).reverse ++
      (bytes16 q.cls).reverse) := by
  simp only [streamOf, List.flatMap_append, List.flatMap_singleton, digestBytes, List.append_assoc]

/- Every question but the last has a Class below b. -/
def ClassesBelow (b : Nat) (qs : List DnsQuestion) : Prop := ∀ q ∈ qs.dropLast, q.cls.toNat < b

theorem bytes16_inj {v w : UInt16} (h : bytes16 v = bytes16 w) : v = w := by
  simp only [bytes16, List.cons.injEq, and_true] at h
  rw [← join16_bytes16 v, ← join16_bytes16 w, h.1, h.2]

theorem bytes16_small {v : UInt16} (h : v.toNat < 256) :
    (bytes16 v).reverse = [(v &&& 0xff).toUInt8, 0] := by
  have hhigh : v.toNat >>> 8 = 0 := Nat.shiftRight_eq_zero v.toNat 8 h
  have hzero : v >>> 8 = 0 := UInt16.toNat_inj.mp hhigh
  rw [bytes16, hzero]
  rfl

/- The stream of questions whose Class is below 256 is empty or ends in a zero byte. -/
theorem streamOf_ends {qs : List DnsQuestion} (h : ∀ q ∈ qs, q.cls.toNat < 256) :
    streamOf qs = [] ∨ ∃ front, streamOf qs = front ++ [0] := by
  induction qs using List.reverseRecOn with
  | nil => exact .inl rfl
  | append_singleton qs q _ =>
    right
    refine ⟨streamOf qs ++ q.name.bytes ++ ((bytes16 q.type).reverse ++
      [(q.cls &&& 0xff).toUInt8]), ?_⟩
    rw [streamOf_append, bytes16_small (h q (by simp))]
    simp only [List.append_assoc, List.cons_append, List.nil_append]

/- What is left behind the last zero byte is the longest end without one. -/
theorem eq_nil_of_ends {a m : List UInt8} (ha : a = [] ∨ ∃ front, a = front ++ [0])
    {b : List UInt8} (h : a = b ++ m) (hm : (0 : UInt8) ∉ m) : m = [] := by
  cases ha with
  | inl hnil =>
    rw [hnil] at h
    exact (List.append_eq_nil_iff.mp h.symm).2
  | inr hfront =>
    obtain ⟨front, hfront⟩ := hfront
    cases m using List.reverseRecOn with
    | nil => rfl
    | append_singleton m x =>
      rw [hfront, ← List.append_assoc] at h
      have hx := (List.append_inj_right' h rfl)
      rw [List.cons.injEq] at hx
      exact absurd (List.mem_append_right m (hx.1 ▸ List.mem_cons_self)) hm

theorem split_unique {a a' n n' : List UInt8} (ha : a = [] ∨ ∃ front, a = front ++ [0])
    (ha' : a' = [] ∨ ∃ front, a' = front ++ [0]) (hn : (0 : UInt8) ∉ n) (hn' : (0 : UInt8) ∉ n')
    (h : a ++ n = a' ++ n') : a = a' ∧ n = n' := by
  cases List.append_eq_append_iff.mp h with
  | inl hleft =>
    obtain ⟨m, hm, hnm⟩ := hleft
    have hnil := eq_nil_of_ends ha' hm fun h0 => hn (hnm ▸ List.mem_append_left _ h0)
    rw [hnil, List.append_nil] at hm
    rw [hnil, List.nil_append] at hnm
    exact ⟨hm.symm, hnm⟩
  | inr hright =>
    obtain ⟨m, hm, hnm⟩ := hright
    have hnil := eq_nil_of_ends ha hm fun h0 => hn' (hnm ▸ List.mem_append_left _ h0)
    rw [hnil, List.append_nil] at hm
    rw [hnil, List.nil_append] at hnm
    exact ⟨hm, hnm.symm⟩

/-- The induction takes the last question off: its four fixed bytes, then its name. -/
theorem streamOf_injective {qs qs' : List DnsQuestion} (hqs : ClassesBelow 256 qs)
    (hqs' : ClassesBelow 256 qs') (h : streamOf qs = streamOf qs') : qs = qs' := by
  have hlast : ∀ (qs : List DnsQuestion) (q : DnsQuestion), streamOf (qs ++ [q]) ≠ [] := by
    intro qs q hnil
    rw [streamOf_append] at hnil
    simp [bytes16] at hnil
  induction qs using List.reverseRecOn generalizing qs' with
  | nil =>
    cases qs' using List.reverseRecOn with
    | nil => rfl
    | append_singleton qs' q' => exact absurd h.symm (hlast qs' q')
  | append_singleton qs q ih =>
    cases qs' using List.reverseRecOn with
    | nil => exact absurd h (hlast qs q)
    | append_singleton qs' q' =>
      rw [ClassesBelow, List.dropLast_concat] at hqs hqs'
      rw [streamOf_append, streamOf_append] at h
      obtain ⟨hfront, htail⟩ := List.append_inj' h rfl
      obtain ⟨htype, hcls⟩ := List.append_inj' htail rfl
      obtain ⟨hstream, hname⟩ := split_unique (streamOf_ends hqs) (streamOf_ends hqs')
        q.name.noNul q'.name.noNul hfront
      have hrest := ih (fun x hx => hqs x ((List.dropLast_sublist _).subset hx))
        (fun x hx => hqs' x ((List.dropLast_sublist _).subset hx)) hstream
      have hq : q = q' := by
        obtain ⟨⟨name, hnul⟩, type, cls⟩ := q
        obtain ⟨⟨name', hnul'⟩, type', cls'⟩ := q'
        cases hname
        cases bytes16_inj (List.reverse_injective htype)
        cases bytes16_inj (List.reverse_injective hcls)
        rfl
      rw [hrest, hq]

/- A packet that Read has accepted. -/
def Produced (p : DnsPacket) : Prop :=
  ∃ garbage buf n pos q, (read garbage).run buf n pos = .ok (p, q)

/- A datagram with these questions in wire form, and what Read makes of it. -/
def datagram (count : UInt8) (questions : List UInt8) : List UInt8 :=
  [0, 7, 1, 0, 0, count, 0, 0, 0, 0, 0, 0] ++ questions

def readDatagram (bytes : List UInt8) : Option DnsPacket :=
  ((read fun _ => CString.empty).run bytes bytes.length 0).toOption.map Prod.fst

theorem produced_of_readDatagram {bytes : List UInt8} {p : DnsPacket}
    (h : readDatagram bytes = some p) : Produced p := by
  obtain ⟨⟨p', q⟩, hread, rfl⟩ := Option.map_eq_some_iff.mp h
  refine ⟨fun _ => CString.empty, bytes, bytes.length, 0, q, ?_⟩
  cases hrun : (read fun _ => CString.empty).run bytes bytes.length 0 with
  | error e =>
    rw [hrun] at hread
    cases hread
  | ok x =>
    rw [hrun] at hread
    cases hread
    rfl

/- Three questions for the root twice and for one name, with Class 256 first; and three
   questions that give the same stream, with Class 256 second. -/
def firstClass256 : List UInt8 :=
  datagram 3 [0, 1, 97, 1, 0, 0, 1, 0, 0, 1, 1, 1, 0, 0, 1, 0, 1]

def secondClass256 : List UInt8 :=
  datagram 3 [1, 97, 0, 0, 1, 0, 1, 0, 1, 1, 1, 0, 0, 0, 1, 0, 1]

/- Two datagrams that Read accepts and whose questions give one stream. -/
def Collides (b : Nat) (bytes bytes' : List UInt8) : Prop :=
  ∃ p p', readDatagram bytes = some p ∧ readDatagram bytes' = some p' ∧
    ClassesBelow b p.questionList ∧ ClassesBelow b p'.questionList ∧
    p.digestStream = p'.digestStream ∧ p.questionList ≠ p'.questionList

instance (b : Nat) (qs : List DnsQuestion) : Decidable (ClassesBelow b qs) :=
  inferInstanceAs (Decidable (∀ q ∈ _, _))

theorem collides_class256 : Collides 257 firstClass256 secondClass256 := by
  have hread : ((readDatagram firstClass256).bind fun p => (readDatagram secondClass256).map fun p' =>
      decide (ClassesBelow 257 p.questionList ∧ ClassesBelow 257 p'.questionList ∧
        p.digestStream = p'.digestStream ∧ p.questionList ≠ p'.questionList)) = some true := by
    decide +kernel
  obtain ⟨p, hp, hread⟩ := Option.bind_eq_some_iff.mp hread
  obtain ⟨p', hp', hread⟩ := Option.map_eq_some_iff.mp hread
  exact ⟨p, p', hp, hp', of_decide_eq_true hread⟩

/-- The digest tells the questions of two packets apart if every question but the last has
a Class below 256 in both, and no larger bound is enough. -/
theorem digest_separates_iff (b : Nat) :
    (∀ p p' : DnsPacket, Produced p → Produced p' → ClassesBelow b p.questionList →
      ClassesBelow b p'.questionList → p.digestStream = p'.digestStream →
      p.questionList = p'.questionList) ↔ b ≤ 256 := by
  constructor
  · intro h
    by_contra hb
    obtain ⟨p, p', hp, hp', hbelow, hbelow', hstream, hne⟩ := collides_class256
    have hmono : ∀ qs, ClassesBelow 257 qs → ClassesBelow b qs :=
      fun qs hqs q hq => (hqs q hq).trans_le (by omega)
    exact hne (h p p' (produced_of_readDatagram hp) (produced_of_readDatagram hp')
      (hmono _ hbelow) (hmono _ hbelow') hstream)
  · intro hb p p' _ _ hbelow hbelow' hstream
    exact streamOf_injective (fun q hq => (hbelow q hq).trans_le hb)
      (fun q hq => (hbelow' q hq).trans_le hb) hstream

/- One question for the address of example.com, and two questions: one for the root with
   the bytes "exam" as its Type and Class, one for ple.com. -/
def exampleCom : List UInt8 :=
  datagram 1 [7, 101, 120, 97, 109, 112, 108, 101, 3, 99, 111, 109, 0, 0, 1, 0, 1]

def pleCom : List UInt8 :=
  datagram 2 [0, 120, 101, 109, 97, 3, 112, 108, 101, 3, 99, 111, 109, 0, 0, 1, 0, 1]

/-- Two datagrams with different questions whose digests are computed from the same bytes. -/
theorem example_com_collides : ∃ p p' : DnsPacket,
    readDatagram exampleCom = some p ∧ readDatagram pleCom = some p' ∧ Produced p ∧ Produced p' ∧
      p.digestStream = p'.digestStream ∧ p.questionList.length ≠ p'.questionList.length := by
  have hread : ((readDatagram exampleCom).bind fun p => (readDatagram pleCom).map fun p' =>
      decide (p.digestStream = p'.digestStream ∧
        p.questionList.length ≠ p'.questionList.length)) = some true := by
    decide +kernel
  obtain ⟨p, hp, hread⟩ := Option.bind_eq_some_iff.mp hread
  obtain ⟨p', hp', hread⟩ := Option.map_eq_some_iff.mp hread
  exact ⟨p, p', hp, hp', produced_of_readDatagram hp, produced_of_readDatagram hp',
    of_decide_eq_true hread⟩

end DnsPacket
end DnsWrapper.Dns
