import DnsWrapper.NameDecoding
import DnsWrapper.PacketValidate

/-! Where the RDATA of each record starts and where Read leaves it. Read takes the RDATA by
the Type and the bytes; Len, which says how long it is, is compared with nothing. -/
namespace DnsWrapper.Dns
open ByteReader ByteWord NetCommon

/- A record with the positions of the cursor behind RDLENGTH and behind the record. -/
structure Span where
  record : DnsRecord
  start : Nat
  stop : Nat

/- DnsRecord::Read with the two positions. -/
def DnsRecord.readSpan (recordType : DnsRecordType) : Reader Code Span := do
  let q ← DnsQuestion.read CString.empty
  let ttl ← vreadU32
  let len ← vreadU16
  let start ← here
  let address ← readAddress recordType q.type len
  let stop ← here
  pure ⟨{ q with ttl, len, address }, start, stop⟩

/- DnsPacket::Read with the positions of all records. -/
def DnsPacket.readSpans (garbage : Nat → CString) : Reader Code (DnsPacket × List Span) := do
  let header ← DnsHeader.read
  let questions ← each (fun i => DnsQuestion.read (garbage i)) 0 header.questionCount.toNat
  let answers ← each (fun _ => DnsRecord.readSpan .answer) 0 header.answerCount.toNat
  let authorities ← each (fun _ => DnsRecord.readSpan .authority) 0 header.authorityCount.toNat
  let additionals ← each (fun _ => DnsRecord.readSpan .additional) 0 header.additionalCount.toNat
  pure ({ header, questions, answers := answers.map Span.record,
          authorities := authorities.map Span.record,
          additionals := additionals.map Span.record }, answers ++ (authorities ++ additionals))

theorem readSpan_of_read {rt : DnsRecordType} {buf : List UInt8} {n p q : Nat} {r : DnsRecord}
    (h : (DnsRecord.read rt).run buf n p = .ok (r, q)) :
    ∃ s, (DnsRecord.readSpan rt).run buf n p = .ok (s, q) ∧ s.record = r := by
  obtain ⟨question, q₁, hquestion, h⟩ := bind_eq_ok.mp h
  obtain ⟨ttl, q₂, httl, h⟩ := bind_eq_ok.mp h
  obtain ⟨len, q₃, hlen, h⟩ := bind_eq_ok.mp h
  obtain ⟨address, q₄, haddress, h⟩ := bind_eq_ok.mp h
  cases h
  refine ⟨⟨{ question with ttl, len, address }, q₃, q⟩, ?_, rfl⟩
  have hstart : (here : Reader Code Nat).run buf n q₃ = .ok (q₃, q₃) := rfl
  have hstop : (here : Reader Code Nat).run buf n q = .ok (q, q) := rfl
  rw [DnsRecord.readSpan, bind_of_ok hquestion, bind_of_ok httl, bind_of_ok hlen,
    bind_of_ok hstart, bind_of_ok haddress, bind_of_ok hstop, pure_apply]

/-- The positions come with every packet that Read accepts. -/
theorem readSpans_of_read {garbage : Nat → CString} {buf : List UInt8} {n p q : Nat}
    {packet : DnsPacket} (h : (DnsPacket.read garbage).run buf n p = .ok (packet, q)) :
    ∃ spans, (DnsPacket.readSpans garbage).run buf n p = .ok ((packet, spans), q) ∧
      spans.map Span.record = packet.answers ++ (packet.authorities ++ packet.additionals) := by
  obtain ⟨header, q₀, hheader, h⟩ := bind_eq_ok.mp h
  obtain ⟨questions, q₁, hquestions, h⟩ := bind_eq_ok.mp h
  obtain ⟨answers, q₂, hanswers, h⟩ := bind_eq_ok.mp h
  obtain ⟨authorities, q₃, hauthorities, h⟩ := bind_eq_ok.mp h
  obtain ⟨additionals, q₄, hadditionals, h⟩ := bind_eq_ok.mp h
  cases h
  have hlift : ∀ rt (i p : Nat) r q, (DnsRecord.read rt).run buf n p = .ok (r, q) →
      ∃ s, (DnsRecord.readSpan rt).run buf n p = .ok (s, q) ∧ s.record = r :=
    fun rt _ _ _ _ => readSpan_of_read
  obtain ⟨as, has, rfl⟩ := each_lift (hlift .answer) hanswers
  obtain ⟨bs, hbs, rfl⟩ := each_lift (hlift .authority) hauthorities
  obtain ⟨cs, hcs, rfl⟩ := each_lift (hlift .additional) hadditionals
  refine ⟨as ++ (bs ++ cs), ?_, by simp⟩
  rw [DnsPacket.readSpans, bind_of_ok hheader, bind_of_ok hquestions, bind_of_ok has,
    bind_of_ok hbs, bind_of_ok hcs, pure_apply]

/-- The name at p, behind the last of its pointers, ends at q. -/
def NameEndsAt (d : List UInt8) (p q : Nat) : Prop :=
  ∃ labels ends z, Decodes d p labels ends z ∧ lastEnd ends z = q

theorem readLabel_ends {old name : CString} {d stale : List UInt8} {p q : Nat}
    (h : (readLabel old).run (d ++ stale) d.length p = .ok (name, q)) (q' : Nat) :
    q = q' ↔ NameEndsAt d p q' := by
  rw [readLabel_storage] at h
  obtain ⟨bs, q₁, hrun, h⟩ := bind_eq_ok.mp h
  cases h
  rw [storage_stale] at hrun
  obtain ⟨labels, ends, z, hd, _, _, rfl⟩ := storage_ok_iff.mp hrun
  constructor
  · intro heq
    exact ⟨labels, ends, z, hd, heq⟩
  · rintro ⟨labels', ends', z', hd', rfl⟩
    obtain ⟨_, rfl, rfl⟩ := decodes_unique hd hd'
    rfl

namespace Span

/- Len is right for a record of an address. -/
def AddressLen (s : Span) : Prop :=
  (s.record.type = qtA → s.record.len = 4) ∧ (s.record.type = qtAAAA → s.record.len = 16)

/- Len leads from the RDATA to the end of the name in it. -/
def NameLen (d : List UInt8) (s : Span) : Prop :=
  (s.record.type = qtNS ∨ s.record.type = qtCName →
    NameEndsAt d s.start (s.start + s.record.len.toNat)) ∧
  (s.record.type = qtMX → NameEndsAt d (s.start + 2) (s.start + s.record.len.toNat))

/- The record ends where RDLENGTH says. -/
def Exact (s : Span) : Prop := s.stop = s.start + s.record.len.toNat

end Span

theorem len_eq_iff {p : Nat} {len v : UInt16} {k : Nat} (hv : v.toNat = k) :
    p + k = p + len.toNat ↔ len = v := by
  rw [Nat.add_left_cancel_iff, ← hv, UInt16.toNat_inj]
  exact eq_comm

/-- Where Read leaves the RDATA, for each Type. -/
theorem readAddress_stop {rt : DnsRecordType} {s : Span} {d stale : List UInt8} {a : Address}
    (h : (DnsRecord.readAddress rt s.record.type s.record.len).run (d ++ stale) d.length s.start =
      .ok (a, s.stop)) : s.Exact ↔ s.AddressLen ∧ s.NameLen d := by
  obtain ⟨record, start, stop⟩ := s
  simp only [Span.Exact, Span.AddressLen, Span.NameLen] at h ⊢
  unfold DnsRecord.readAddress at h
  by_cases ha : record.type = qtA
  · rw [if_pos ha] at h
    obtain ⟨n, q, hrun, h⟩ := bind_eq_ok.mp h
    cases h
    have hlen : (4 : UInt16).toNat = 4 := rfl
    rw [advances_vreadU32 _ _ _ _ _ hrun, len_eq_iff hlen]
    simp [ha, qtA, qtAAAA, qtNS, qtCName, qtMX]
  rw [if_neg ha] at h
  by_cases hns : record.type = qtNS
  · rw [if_pos hns] at h
    obtain ⟨name, q, hrun, h⟩ := bind_eq_ok.mp h
    cases h
    rw [readLabel_ends hrun]
    simp [hns, qtA, qtAAAA, qtNS, qtCName, qtMX]
  rw [if_neg hns] at h
  by_cases hcname : record.type = qtCName
  · rw [if_pos hcname] at h
    obtain ⟨name, q, hrun, h⟩ := bind_eq_ok.mp h
    cases h
    rw [readLabel_ends hrun]
    simp [hcname, qtA, qtAAAA, qtNS, qtCName, qtMX]
  rw [if_neg hcname] at h
  by_cases hmx : record.type = qtMX
  · rw [if_pos hmx] at h
    obtain ⟨priority, q, hfirst, h⟩ := bind_eq_ok.mp h
    obtain ⟨host, q', hrun, h⟩ := bind_eq_ok.mp h
    cases h
    rw [advances_vreadU16 _ _ _ _ _ hfirst] at hrun
    rw [readLabel_ends hrun]
    simp [hmx, qtA, qtAAAA, qtNS, qtCName, qtMX]
  rw [if_neg hmx] at h
  by_cases haaaa : record.type = qtAAAA
  · rw [if_pos haaaa] at h
    have hstop : stop = start + 16 :=
      advances_bind advances_vreadU32 (fun n1 => advances_bind advances_vreadU32 fun n2 =>
        advances_bind advances_vreadU32 fun n3 => advances_bind advances_vreadU32 fun n4 =>
          advances_pure (Address.ipv6 n1 n2 n3 n4)) _ _ _ _ _ h
    have hlen : (16 : UInt16).toNat = 16 := rfl
    rw [hstop, len_eq_iff hlen]
    simp [haaaa, qtA, qtAAAA, qtNS, qtCName, qtMX]
  rw [if_neg haaaa] at h
  by_cases hopt : record.type = qtOpt
  · rw [if_pos hopt] at h
    split at h
    · cases h
    · obtain ⟨octets, q, hrun, h⟩ := bind_eq_ok.mp h
      cases h
      rw [advances_each (fun _ => advances_vreadByte) 0 _ _ _ _ _ _ hrun, Nat.one_mul]
      simp [hopt, qtOpt, qtA, qtAAAA, qtNS, qtCName, qtMX]
  · rw [if_neg hopt] at h
    cases h

theorem readSpan_exact {rt : DnsRecordType} {d stale : List UInt8} {p q : Nat} {s : Span}
    (h : (DnsRecord.readSpan rt).run (d ++ stale) d.length p = .ok (s, q)) :
    s.Exact ↔ s.AddressLen ∧ s.NameLen d := by
  obtain ⟨question, q₁, _, h⟩ := bind_eq_ok.mp h
  obtain ⟨ttl, q₂, _, h⟩ := bind_eq_ok.mp h
  obtain ⟨len, q₃, _, h⟩ := bind_eq_ok.mp h
  obtain ⟨start, q₄, hstart, h⟩ := bind_eq_ok.mp h
  cases hstart
  obtain ⟨address, q₅, haddress, h⟩ := bind_eq_ok.mp h
  obtain ⟨stop, q₆, hstop, h⟩ := bind_eq_ok.mp h
  cases hstop
  cases h
  exact readAddress_stop haddress

theorem readSpans_exact {garbage : Nat → CString} {d stale : List UInt8} {p q : Nat}
    {packet : DnsPacket} {spans : List Span}
    (h : (DnsPacket.readSpans garbage).run (d ++ stale) d.length p = .ok ((packet, spans), q)) :
    ∀ s ∈ spans, s.Exact ↔ s.AddressLen ∧ s.NameLen d := by
  obtain ⟨header, q₀, _, h⟩ := bind_eq_ok.mp h
  obtain ⟨questions, q₁, _, h⟩ := bind_eq_ok.mp h
  obtain ⟨answers, q₂, hanswers, h⟩ := bind_eq_ok.mp h
  obtain ⟨authorities, q₃, hauthorities, h⟩ := bind_eq_ok.mp h
  obtain ⟨additionals, q₄, hadditionals, h⟩ := bind_eq_ok.mp h
  cases h
  have hspan : ∀ rt (i p : Nat) s q, (DnsRecord.readSpan rt).run (d ++ stale) d.length p = .ok (s, q) →
      (s.Exact ↔ s.AddressLen ∧ s.NameLen d) := fun _ _ _ _ _ => readSpan_exact
  rw [List.forall_mem_append, List.forall_mem_append]
  exact ⟨each_forall (hspan .answer) hanswers, each_forall (hspan .authority) hauthorities,
    each_forall (hspan .additional) hadditionals⟩

/- Validate looks at Len only if the header is not that of a response. -/
theorem addressLen_of_validate {packet : DnsPacket} (hc : packet.Counted)
    (hv : packet.validate .incomingResponse = eNoError)
    (hqr : packet.header.getQueryResponse = false) {r : DnsRecord}
    (hr : r ∈ packet.answers ++ (packet.authorities ++ packet.additionals)) :
    (r.type = qtA → r.len = 4) ∧ (r.type = qtAAAA → r.len = 16) := by
  obtain hheader | ⟨⟨hpass, _⟩, _⟩ := (DnsPacket.validate_eq_noError_iff hc (.inr rfl)).mp hv
  · rw [DnsPacket.headerValidate_response, hqr] at hheader
    cases hheader
  · have hvalid : r.validate .incomingResponse = eNoError := by
      rw [List.mem_append, List.mem_append] at hr
      rcases hr with hr | hr | hr
      · exact hpass.answers r hr
      · exact hpass.authorities r hr
      · exact hpass.additionals r hr
    constructor
    · intro ha
      by_contra hlen
      simp [DnsRecord.validate, DnsQuestion.validate, ha, hlen, eNoError, eFormErr] at hvalid
    · intro haaaa
      by_contra hlen
      simp [DnsRecord.validate, DnsQuestion.validate, haaaa, hlen, qtA, qtAAAA, eNoError,
        eFormErr] at hvalid

/-- In a datagram that Read and Validate accept, every record ends where its RDLENGTH says
exactly when the names in the RDATA do and, since a response header keeps Validate from
looking at the records, every A record has RDLENGTH 4 and every AAAA record 16. -/
theorem rdata_exact_iff (garbage : Nat → CString) (d stale : List UInt8) (packet : DnsPacket)
    (pos : Nat) (hread : (DnsPacket.read garbage).run (d ++ stale) d.length 0 = .ok (packet, pos))
    (hvalid : packet.validate .incomingResponse = eNoError) :
    ∃ spans, (DnsPacket.readSpans garbage).run (d ++ stale) d.length 0 =
        .ok ((packet, spans), pos) ∧
      spans.map Span.record = packet.answers ++ (packet.authorities ++ packet.additionals) ∧
      ((∀ s ∈ spans, s.Exact) ↔
        (packet.header.getQueryResponse = true → ∀ s ∈ spans, s.AddressLen) ∧
          ∀ s ∈ spans, s.NameLen d) := by
  obtain ⟨spans, hspans, hrecords⟩ := readSpans_of_read hread
  refine ⟨spans, hspans, hrecords, ?_⟩
  have hexact := readSpans_exact hspans
  constructor
  · intro h
    exact ⟨fun _ s hs => ((hexact s hs).mp (h s hs)).1, fun s hs => ((hexact s hs).mp (h s hs)).2⟩
  · rintro ⟨haddress, hname⟩ s hs
    refine (hexact s hs).mpr ⟨?_, hname s hs⟩
    cases hqr : packet.header.getQueryResponse with
    | true => exact haddress hqr s hs
    | false =>
      have hmem : s.record ∈ packet.answers ++ (packet.authorities ++ packet.additionals) :=
        hrecords ▸ List.mem_map_of_mem hs
      exact addressLen_of_validate (DnsPacket.counted_of_read hread) hvalid hqr hmem

/- A response to the question for a. IN A with one A record, whose RDLENGTH is 6. -/
def longAnswer : List UInt8 :=
  [0, 7, 0x81, 0x80, 0, 1, 0, 1, 0, 0, 0, 0, 1, 97, 0, 0, 1, 0, 1,
   0xc0, 12, 0, 1, 0, 1, 0, 0, 0, 60, 0, 6, 10, 0, 0, 1, 0, 0]

def longPacket : DnsPacket where
  header := ⟨7, 0x81, 0x80, 1, 1, 0, 0⟩
  questions := [⟨shortName, 1, 1⟩]
  answers := [⟨⟨shortName, 1, 1⟩, 60, 6, .ipv4 0x0a000001⟩]
  authorities := []
  additionals := []

theorem read_longAnswer :
    (DnsPacket.read fun _ => CString.empty).run longAnswer 37 0 = .ok (longPacket, 35) := by
  rfl

theorem readSpans_longAnswer :
    (DnsPacket.readSpans fun _ => CString.empty).run longAnswer 37 0 =
      .ok ((longPacket, longPacket.answers.map fun r => ⟨r, 31, 35⟩), 35) := by
  rfl

/-- The answer is accepted, and it ends two bytes before the place that RDLENGTH names. -/
theorem long_answer_accepted :
    (DnsPacket.read fun _ => CString.empty).run longAnswer 37 0 = .ok (longPacket, 35) ∧
      longPacket.validate .incomingResponse = eNoError ∧
      ∃ spans, (DnsPacket.readSpans fun _ => CString.empty).run longAnswer 37 0 =
          .ok ((longPacket, spans), 35) ∧
        ¬ ∀ s ∈ spans, s.Exact := by
  refine ⟨read_longAnswer, by decide, _, readSpans_longAnswer, ?_⟩
  intro h
  have hexact := h _ List.mem_cons_self
  exact absurd hexact (by decide : ¬ 35 = 31 + 6)

theorem rdata_exact_iff_long :
    (DnsPacket.read fun _ => CString.empty).run (longAnswer ++ [0]) 37 0 =
        .ok (longPacket, 35) ∧
      ∃ spans, (DnsPacket.readSpans fun _ => CString.empty).run (longAnswer ++ [0]) 37 0 =
          .ok ((longPacket, spans), 35) ∧
        ((∀ s ∈ spans, s.Exact) ↔
          (longPacket.header.getQueryResponse = true → ∀ s ∈ spans, s.AddressLen) ∧
            ∀ s ∈ spans, s.NameLen longAnswer) := by
  have hread : (DnsPacket.read fun _ => CString.empty).run (longAnswer ++ [0]) 37 0 =
      .ok (longPacket, 35) := by rfl
  obtain ⟨spans, hspans, _, hiff⟩ :=
    rdata_exact_iff _ longAnswer [0] longPacket 35 hread (by decide)
  exact ⟨hread, spans, hspans, hiff⟩

end DnsWrapper.Dns
