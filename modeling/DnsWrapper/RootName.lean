import DnsWrapper.RoundTrip

/-! Root names do not survive the round trip. WriteLabel gives the empty name two zero
bytes where ReadLabel consumes one, so the reader falls behind and never catches up. -/
namespace DnsWrapper.Dns
open ByteReader ByteWriter ByteWord NetCommon
variable {α : Type}

/- A name Write may be given: with labels, or the root. -/
def NameOk (name : CString) : Prop := Dotted name ∨ name = CString.empty

/- The pseudo-record of EDNS: root owner, any class and TTL, Len option bytes. -/
def OptOk (r : DnsRecord) : Prop :=
  r.name = CString.empty ∧ r.type = qtOpt ∧
    ∃ octets, r.address = .opt octets ∧ octets.length = r.len.toNat

def Address.name? : Address → Option CString
  | .ns name => some name
  | .cName name => some name
  | .mailExchange _ host => some host
  | _ => none

/- The root name as an owner or in the RDATA, or a pseudo-record. -/
def HasRoot (r : DnsRecord) : Prop :=
  r.name = CString.empty ∨ r.address.name? = some CString.empty ∨ r.type = qtOpt

/-- Packets that are well formed but for a root name or a pseudo-record somewhere. -/
structure Rooted (p : DnsPacket) : Prop where
  counted : p.Counted
  questions : ∀ q ∈ p.questions, NameOk q.name
  answers : ∀ r ∈ p.answers, RecordOk NameOk r
  authorities : ∀ r ∈ p.authorities, RecordOk NameOk r
  additionals : ∀ r ∈ p.additionals, RecordOk NameOk r ∨ OptOk r
  size : p.size < maxPacketSz
  root : (∃ q ∈ p.questions, q.name = CString.empty) ∨
    ∃ r ∈ p.answers ++ p.authorities ++ p.additionals, HasRoot r

/-- Write, then Read over the written bytes, ends at their end with the same sections. -/
def RoundTrips (garbage : Nat → CString) (p : DnsPacket) : Prop :=
  ∃ out n q, p.write.run zeroBuffer 0 = some (out, n) ∧
    (DnsPacket.read garbage).run out n 0 = .ok (q, n) ∧ q.questions = p.questions ∧
    q.answers = p.answers ∧ q.authorities = p.authorities ∧ q.additionals = p.additionals

/-- Where r reads a out of the bytes bs with m zeros left over before them, it leaves at
least m zeros over again, and none only if a is clean. -/
def Lags (r : Reader Code α) (bs : List UInt8) (a : α) (clean : Prop) : Prop :=
  ∀ pre m post n c, pre.length + m + bs.length ≤ n →
    r.run (pre ++ List.replicate m 0 ++ bs ++ post) n pre.length = .ok (a, c) →
    ∃ pre' m', pre' ++ List.replicate m' 0 = pre ++ List.replicate m 0 ++ bs ∧
      c = pre'.length ∧ m ≤ m' ∧ (m' = 0 → clean)

theorem Lags.next {r : Reader Code α} {bs rest buf pre : List UInt8} {a : α} {clean : Prop}
    {m n c : Nat} (h : Lags r bs a clean)
    (hbuf : buf = pre ++ List.replicate m 0 ++ (bs ++ rest))
    (hn : pre.length + m + bs.length ≤ n) (hrun : r.run buf n pre.length = .ok (a, c)) :
    ∃ pre' m', buf = pre' ++ List.replicate m' 0 ++ rest ∧
      pre'.length + m' = pre.length + m + bs.length ∧ c = pre'.length ∧ m ≤ m' ∧
      (m' = 0 → clean) := by
  rw [hbuf, ← List.append_assoc] at hrun
  obtain ⟨pre', m', heq, hc, hm, hclean⟩ := h pre m rest n c hn hrun
  refine ⟨pre', m', ?_, ?_, hc, hm, hclean⟩
  · rw [hbuf, heq, List.append_assoc (pre ++ List.replicate m 0)]
  · have hlen := congrArg List.length heq
    simpa only [List.length_append, List.length_replicate] using hlen

theorem lags_each {r : Nat → Reader Code α} {enc : α → List UInt8} {clean : α → Prop}
    (as : List α) (h : ∀ i, ∀ a ∈ as, Lags (r i) (enc a) a (clean a)) (i : Nat) :
    Lags (each r i as.length) (as.flatMap enc) as (∀ a ∈ as, clean a) := by
  induction as generalizing i with
  | nil =>
    intro pre m post n c _ hrun
    cases hrun
    exact ⟨pre, m, by simp, rfl, Nat.le_refl m, by simp⟩
  | cons a as ih =>
    intro pre m post n c hn hrun
    simp only [List.flatMap_cons, List.length_append] at hn
    obtain ⟨a', q, hfirst, hrun⟩ := bind_eq_ok.mp hrun
    obtain ⟨as', q', hrest, hrun⟩ := bind_eq_ok.mp hrun
    cases hrun
    have hbuf : pre ++ List.replicate m 0 ++ (a :: as).flatMap enc ++ post =
        pre ++ List.replicate m 0 ++ (enc a ++ (as.flatMap enc ++ post)) := by simp
    obtain ⟨pre₁, m₁, hbuf₁, hlen₁, rfl, hm₁, hc₁⟩ :=
      (h i a List.mem_cons_self).next hbuf (by omega) hfirst
    obtain ⟨pre₂, m₂, hbuf₂, hlen₂, rfl, hm₂, hc₂⟩ :=
      (ih (fun j b hb => h j b (List.mem_cons_of_mem a hb)) (i + 1)).next hbuf₁ (by omega) hrest
    refine ⟨pre₂, m₂, (List.append_cancel_right hbuf₂).symm, rfl, by omega, ?_⟩
    · intro hz b hb
      cases hb with
      | head => exact hc₁ (by omega)
      | tail _ hb => exact hc₂ hz b hb

theorem Dotted.ne_empty {name : CString} (h : Dotted name) : name ≠ CString.empty := by
  obtain ⟨labels, hne, hl, hname, _⟩ := h
  rintro rfl
  obtain ⟨l, rest, rfl⟩ := List.exists_cons_of_ne_nil hne
  have hpos := (hl l List.mem_cons_self).1
  have hlen := congrArg List.length hname
  cases rest with
  | nil =>
    simp [CString.empty] at hlen
    omega
  | cons m rest =>
    rw [List.intercalate_cons_of_ne_nil (by simp)] at hlen
    simp [CString.empty] at hlen

theorem nameWire_empty : nameWire CString.empty = [0, 0] := by decide

/- A word that equals its own high byte is zero. -/
theorem eq_zero_of_join16 {v : UInt16} (h : join16 0 (v >>> 8).toUInt8 = v) : v = 0 := by
  have hn := congrArg UInt16.toNat h
  rw [toNat_join16, toNat_byte16] at hn
  have hz : v.toNat = 0 := by
    simp at hn
    omega
  exact UInt16.toNat_inj.mp hz

theorem yields_question_root (old : CString) (a b c d : UInt8) :
    Yields (DnsQuestion.read old) [0, a, b, c, d] ⟨CString.empty, join16 a b, join16 c d⟩ :=
  yields_bind (yields_readLabel_root old) (yields_bind (yields_join16 a b)
    (yields_map _ (yields_join16 c d)))

/- What the reader sees when the question q with the root name follows m zeros: five
   bytes, out of which it makes the Type and the Class of q only if both are zero. -/
theorem root_stream (m : Nat) (q : DnsQuestion) (hq : q.name = CString.empty) :
    ∃ a b c d rest, List.replicate m 0 ++ q.wire = [0, a, b, c, d] ++ rest ∧
      (join16 a b = q.type → join16 c d = q.cls → q.type = 0 ∧ q.cls = 0) := by
  have hwire : q.wire = [0, 0] ++ (bytes16 q.type ++ bytes16 q.cls) := by
    rw [DnsQuestion.wire, hq, nameWire_empty]
  have hzero : join16 0 0 = 0 := by decide
  rw [hwire]
  obtain _ | _ | _ | k := m
  · refine ⟨_, _, _, _, _, rfl, ?_⟩
    intro ht hc
    have ht := eq_zero_of_join16 ht
    rw [ht] at hc
    exact ⟨ht, eq_zero_of_join16 hc⟩
  · refine ⟨_, _, _, _, _, rfl, ?_⟩
    intro ht hc
    rw [hzero] at ht
    rw [← ht] at hc
    exact ⟨ht.symm, hc.symm.trans hzero⟩
  · refine ⟨_, _, _, _, _, rfl, ?_⟩
    intro ht hc
    rw [hzero] at ht
    rw [← ht] at hc
    exact ⟨ht.symm, hc.symm.trans hzero⟩
  · refine ⟨0, 0, 0, 0, List.replicate k 0 ++ (bytes16 q.type ++ bytes16 q.cls), ?_, ?_⟩
    · have hsplit : List.replicate (k + 3) (0 : UInt8) ++ [0, 0] =
          List.replicate 5 0 ++ List.replicate k 0 := by
        have htwo : ([0, 0] : List UInt8) = List.replicate 2 0 := rfl
        rw [htwo, List.replicate_append_replicate, List.replicate_append_replicate, Nat.add_comm 5]
      rw [← List.append_assoc, hsplit, List.append_assoc]
      rfl
    · intro ht hc
      exact ⟨ht.symm.trans hzero, hc.symm.trans hzero⟩

/-- A question that comes back: it was read in step, or it is the root with zeros. -/
theorem question_cases (old : CString) {q : DnsQuestion} (hq : NameOk q.name)
    {pre post : List UInt8} {m n c : Nat} (hn : pre.length + m + q.wire.length ≤ n)
    (hrun : (DnsQuestion.read old).run (pre ++ List.replicate m 0 ++ q.wire ++ post) n pre.length =
      .ok (q, c)) :
    (m = 0 ∧ Dotted q.name ∧ c = pre.length + q.wire.length) ∨
      (q = ⟨CString.empty, 0, 0⟩ ∧ c = pre.length + 5) := by
  cases hq with
  | inl hdot =>
    cases m with
    | zero =>
      have hy := DnsQuestion.yields_read old hdot pre post n (by omega)
      simp only [List.replicate_zero, List.append_nil] at hrun
      rw [hy] at hrun
      cases hrun
      exact .inl ⟨rfl, hdot, rfl⟩
    | succ m =>
      obtain ⟨name, p₁, hname, hrun⟩ := bind_eq_ok.mp hrun
      have hbuf : pre ++ List.replicate (m + 1) 0 ++ q.wire ++ post =
          pre ++ [0] ++ (List.replicate m 0 ++ q.wire ++ post) := by
        simp [List.replicate_succ]
      have hy := yields_readLabel_root old pre (List.replicate m 0 ++ q.wire ++ post) n
        (by simp only [List.length_cons, List.length_nil]; omega)
      rw [hbuf, hy] at hname
      cases hname
      obtain ⟨type, p₂, _, hrun⟩ := bind_eq_ok.mp hrun
      obtain ⟨cls, p₃, _, hrun⟩ := bind_eq_ok.mp hrun
      cases hrun
      exact absurd rfl hdot.ne_empty
  | inr hroot =>
    obtain ⟨a, b, c', d, rest, heq, hzero⟩ := root_stream m q hroot
    have hbuf : pre ++ List.replicate m 0 ++ q.wire ++ post =
        pre ++ [0, a, b, c', d] ++ (rest ++ post) := by
      rw [List.append_assoc pre, heq]
      simp
    have hlen := congrArg List.length heq
    simp only [List.length_append, List.length_replicate, List.length_cons,
      List.length_nil] at hlen
    have hy := yields_question_root old a b c' d pre (rest ++ post) n
      (by simp only [List.length_cons, List.length_nil]; omega)
    rw [hbuf, hy] at hrun
    simp only [Except.ok.injEq, Prod.mk.injEq] at hrun
    obtain ⟨rfl, rfl⟩ := hrun
    obtain ⟨ht, hc⟩ := hzero rfl rfl
    right
    simp only at ht hc
    rw [ht, hc]
    exact ⟨rfl, rfl⟩

theorem lags_question (old : CString) {q : DnsQuestion} (hq : NameOk q.name) :
    Lags (DnsQuestion.read old) q.wire q (Dotted q.name) := by
  intro pre m post n c hn hrun
  obtain ⟨rfl, hdot, rfl⟩ | ⟨rfl, rfl⟩ := question_cases old hq hn hrun
  · exact ⟨pre ++ q.wire, 0, by simp, by simp, Nat.le_refl 0, fun _ => hdot⟩
  · refine ⟨pre ++ List.replicate 5 0, m + 1, ?_, by simp, by omega, by omega⟩
    have hwire : DnsQuestion.wire ⟨CString.empty, 0, 0⟩ = List.replicate 6 0 := by decide
    rw [hwire, List.append_assoc, List.append_assoc, List.replicate_append_replicate,
      List.replicate_append_replicate]
    congr 2
    omega

/- A record read back leaves nothing over, unless its RDATA ends in the root name. -/
theorem readAddress_lag (rt : DnsRecordType) {r : DnsRecord}
    (h : AddressOk NameOk r.type r.address) :
    AddressOk Dotted r.type r.address ∨
      ∃ bs, r.rdata = bs ++ [0] ∧
        Yields (DnsRecord.readAddress rt r.type r.len) bs r.address := by
  obtain ⟨q, ttl, len, address⟩ := r
  simp only at h ⊢
  cases address with
  | zero => exact h.elim
  | opt octets => exact h.elim
  | ipv4 n => exact .inl h
  | ipv6 n1 n2 n3 n4 => exact .inl h
  | ns name =>
    obtain ⟨ht, hdot | rfl⟩ := h
    · exact .inl ⟨ht, hdot⟩
    · refine .inr ⟨[0], ?_, ?_⟩
      · simp only [DnsRecord.rdata, ht, Address.asNS, nameWire_empty]
        rfl
      · simp only [DnsRecord.readAddress, ht]
        exact yields_map _ (yields_readLabel_root _)
  | cName name =>
    obtain ⟨ht, hdot | rfl⟩ := h
    · exact .inl ⟨ht, hdot⟩
    · refine .inr ⟨[0], ?_, ?_⟩
      · simp only [DnsRecord.rdata, ht, Address.asCName, nameWire_empty]
        rfl
      · simp only [DnsRecord.readAddress, ht]
        exact yields_map _ (yields_readLabel_root _)
  | mailExchange priority host =>
    obtain ⟨ht, hdot | rfl⟩ := h
    · exact .inl ⟨ht, hdot⟩
    · refine .inr ⟨bytes16 priority ++ [0], ?_, ?_⟩
      · simp only [DnsRecord.rdata, ht, Address.asMailExchange, nameWire_empty]
        rfl
      · simp only [DnsRecord.readAddress, ht]
        exact yields_bind (yields_vreadU16 priority) (yields_map _ (yields_readLabel_root _))

/- The Type of a record with RDATA is never zero, so a root owner is not read back. -/
theorem type_ne_zero {r : DnsRecord} (h : RecordOk NameOk r ∨ OptOk r) : r.type ≠ 0 := by
  cases h with
  | inl h =>
    obtain ht | ht | ht | ht | ht := h.2.type <;> rw [ht] <;> decide
  | inr h =>
    rw [h.2.1]
    decide

/- A record that comes back has come back with its question. -/
theorem read_question {rt : DnsRecordType} {r : DnsRecord} {buf : List UInt8} {n p c : Nat}
    (h : (DnsRecord.read rt).run buf n p = .ok (r, c)) :
    ∃ q, (DnsQuestion.read CString.empty).run buf n p = .ok (r.toDnsQuestion, q) := by
  obtain ⟨question, q, hq, h⟩ := bind_eq_ok.mp h
  obtain ⟨ttl, p₂, _, h⟩ := bind_eq_ok.mp h
  obtain ⟨len, p₃, _, h⟩ := bind_eq_ok.mp h
  obtain ⟨address, p₄, _, h⟩ := bind_eq_ok.mp h
  cases h
  exact ⟨q, hq⟩

theorem yields_record {rt : DnsRecordType} {r : DnsRecord} {bs : List UInt8} (hdot : Dotted r.name)
    (h : Yields (DnsRecord.readAddress rt r.type r.len) bs r.address) :
    Yields (DnsRecord.read rt) (r.fixedWire ++ bs) r := by
  rw [DnsRecord.fixedWire, List.append_assoc, List.append_assoc]
  apply yields_bind (DnsQuestion.yields_read _ hdot)
  apply yields_bind (yields_vreadU32 r.ttl)
  apply yields_bind (yields_vreadU16 r.len)
  exact yields_map _ h

/- Read in step, the record leaves over nothing or the last byte of a root name. -/
theorem lag_in_step (rt : DnsRecordType) {r : DnsRecord} (hdot : Dotted r.name)
    (h : AddressOk NameOk r.type r.address) {pre post : List UInt8} {n c : Nat}
    (hn : pre.length + r.wire.length ≤ n)
    (hrun : (DnsRecord.read rt).run (pre ++ r.wire ++ post) n pre.length = .ok (r, c)) :
    ∃ pre' k, pre' ++ List.replicate k 0 = pre ++ r.wire ∧ c = pre'.length ∧
      (k = 0 → RecordOk Dotted r) := by
  cases readAddress_lag rt h with
  | inl hclean =>
    have hy := DnsRecord.yields_read rt ⟨hdot, hclean⟩ pre post n hn
    rw [hy] at hrun
    cases hrun
    exact ⟨pre ++ r.wire, 0, by simp, by simp, fun _ => ⟨hdot, hclean⟩⟩
  | inr hroot =>
    obtain ⟨bs, hbs, hy⟩ := hroot
    have hsplit : r.wire = r.fixedWire ++ bs ++ [0] := by
      rw [DnsRecord.wire, hbs, List.append_assoc]
    have hrun' := yields_record hdot hy pre ([0] ++ post) n (by
      rw [hsplit, List.length_append] at hn
      omega)
    have hbuf : pre ++ r.wire ++ post = pre ++ (r.fixedWire ++ bs) ++ ([0] ++ post) := by
      rw [hsplit]
      simp only [List.append_assoc]
    rw [hbuf, hrun'] at hrun
    cases hrun
    refine ⟨pre ++ (r.fixedWire ++ bs), 1, ?_, by simp, by omega⟩
    rw [hsplit]
    simp only [List.append_assoc]
    rfl

theorem lags_record (rt : DnsRecordType) {r : DnsRecord} (h : RecordOk NameOk r ∨ OptOk r) :
    Lags (DnsRecord.read rt) r.wire r (RecordOk Dotted r) := by
  intro pre m post n c hn hrun
  have hname : NameOk r.name := by
    obtain ⟨hname, _⟩ | ⟨hname, _⟩ := h
    · exact hname
    · exact .inr hname
  have hwire : r.wire = r.toDnsQuestion.wire ++ (bytes32 r.ttl ++ bytes16 r.len ++ r.rdata) := by
    rw [DnsRecord.wire, DnsRecord.fixedWire, List.append_assoc]
  have hbuf : pre ++ List.replicate m 0 ++ r.wire ++ post = pre ++ List.replicate m 0 ++
      r.toDnsQuestion.wire ++ (bytes32 r.ttl ++ bytes16 r.len ++ r.rdata ++ post) := by
    rw [hwire]
    simp only [List.append_assoc]
  obtain ⟨q, hq⟩ := read_question hrun
  rw [hbuf] at hq
  obtain ⟨rfl, hdot, _⟩ | ⟨hzero, _⟩ := question_cases _ hname (by
    rw [hwire, List.length_append] at hn
    omega) hq
  · cases h with
    | inr hopt => exact absurd hopt.1 hdot.ne_empty
    | inl hrec =>
      simp only [List.replicate_zero, List.append_nil, Nat.add_zero] at hn hrun ⊢
      obtain ⟨pre', k, heq, hc, hclean⟩ := lag_in_step rt hdot hrec.2 hn hrun
      exact ⟨pre', k, heq, hc, Nat.zero_le k, hclean⟩
  · exact absurd (congrArg DnsQuestion.type hzero) (type_ne_zero h)

theorem lags_questions (garbage : Nat → CString) {qs : List DnsQuestion}
    (h : ∀ q ∈ qs, NameOk q.name) :
    Lags (each (fun i => DnsQuestion.read (garbage i)) 0 qs.length) (qs.flatMap DnsQuestion.wire) qs
      (∀ q ∈ qs, Dotted q.name) :=
  lags_each qs (fun i q hq => lags_question (garbage i) (h q hq)) 0

theorem lags_records (rt : DnsRecordType) {rs : List DnsRecord}
    (h : ∀ r ∈ rs, RecordOk NameOk r ∨ OptOk r) :
    Lags (each (fun _ => DnsRecord.read rt) 0 rs.length) (rs.flatMap DnsRecord.wire) rs
      (∀ r ∈ rs, RecordOk Dotted r) :=
  lags_each rs (fun _ r hr => lags_record rt (h r hr)) 0

theorem not_hasRoot_of_clean {r : DnsRecord} (h : RecordOk Dotted r) : ¬ HasRoot r := by
  rintro (hname | haddr | ht)
  · exact h.1.ne_empty hname
  · have hok := h.2
    cases ha : r.address with
    | ns s =>
      rw [ha] at haddr hok
      exact hok.2.ne_empty (Option.some.inj haddr)
    | cName s =>
      rw [ha] at haddr hok
      exact hok.2.ne_empty (Option.some.inj haddr)
    | mailExchange priority s =>
      rw [ha] at haddr hok
      exact hok.2.ne_empty (Option.some.inj haddr)
    | zero =>
      rw [ha] at haddr
      cases haddr
    | opt octets =>
      rw [ha] at haddr
      cases haddr
    | ipv4 n =>
      rw [ha] at haddr
      cases haddr
    | ipv6 n1 n2 n3 n4 =>
      rw [ha] at haddr
      cases haddr
  · obtain hok | hok | hok | hok | hok := h.2.type <;> rw [hok] at ht <;> exact absurd ht (by decide)

/- The sections of a packet whose lists have the lengths that its header says. -/
theorem wire_of_counted {p : DnsPacket} (h : p.Counted) :
    p.wire = p.header.wire ++ (p.questions.flatMap DnsQuestion.wire ++
      (p.answers.flatMap DnsRecord.wire ++ (p.authorities.flatMap DnsRecord.wire ++
        p.additionals.flatMap DnsRecord.wire))) := by
  rw [DnsPacket.wire, DnsPacket.records, h.questionList, h.answerList, h.authorityList,
    h.additionalList, List.flatMap_append, List.flatMap_append]

/- The header is read in step, whatever follows it. -/
theorem read_header_wire (h : DnsHeader) (rest : List UInt8) {n : Nat} (hn : h.wire.length ≤ n) :
    DnsHeader.read.run (h.wire ++ rest) n 0 = .ok (h, h.wire.length) := by
  have hheader := DnsHeader.yields_read h [] rest n (by rw [List.length_nil, Nat.zero_add]; exact hn)
  rw [List.nil_append, List.length_nil, Nat.zero_add] at hheader
  exact hheader

/-- No packet with a root name or a pseudo-record survives Write and Read. -/
theorem rooted_not_roundTrips (garbage : Nat → CString) (p : DnsPacket) (h : Rooted p) :
    ¬ RoundTrips garbage p := by
  rintro ⟨out, n, q, hwrite, hread, hqs, has, haus, hads⟩
  rw [DnsPacket.write_zeroBuffer h.size] at hwrite
  cases hwrite
  have hwire := wire_of_counted h.counted
  have hlen := p.wire_length
  rw [hwire] at hlen
  simp only [List.length_append] at hlen
  obtain ⟨header, q₀, hh, hread⟩ := bind_eq_ok.mp hread
  obtain ⟨questions, q₁, hq, hread⟩ := bind_eq_ok.mp hread
  obtain ⟨answers, q₂, ha, hread⟩ := bind_eq_ok.mp hread
  obtain ⟨authorities, q₃, hau, hread⟩ := bind_eq_ok.mp hread
  obtain ⟨additionals, q₄, had, hread⟩ := bind_eq_ok.mp hread
  cases hread
  simp only at hqs has haus hads
  subst hqs has haus hads
  rw [hwire, List.append_assoc, read_header_wire p.header _ (by omega)] at hh
  cases hh
  rw [← h.counted.questions] at hq
  rw [← h.counted.answers] at ha
  rw [← h.counted.authorities] at hau
  rw [← h.counted.additionals] at had
  -- each section leaves at least as much over as the one before it
  have hbuf : p.wire ++ List.replicate (maxPacketSz - p.size) 0 =
      p.header.wire ++ List.replicate 0 0 ++ (p.questions.flatMap DnsQuestion.wire ++
      (p.answers.flatMap DnsRecord.wire ++ (p.authorities.flatMap DnsRecord.wire ++
        (p.additionals.flatMap DnsRecord.wire ++ List.replicate (maxPacketSz - p.size) 0)))) := by
    rw [hwire]
    simp
  obtain ⟨pre₁, m₁, hbuf₁, hlen₁, rfl, hm₁, hc₁⟩ :=
    (lags_questions garbage h.questions).next hbuf (by omega) hq
  obtain ⟨pre₂, m₂, hbuf₂, hlen₂, rfl, hm₂, hc₂⟩ :=
    (lags_records .answer fun r hr => .inl (h.answers r hr)).next hbuf₁ (by omega) ha
  obtain ⟨pre₃, m₃, hbuf₃, hlen₃, rfl, hm₃, hc₃⟩ :=
    (lags_records .authority fun r hr => .inl (h.authorities r hr)).next hbuf₂ (by omega) hau
  obtain ⟨pre₄, m₄, hbuf₄, hlen₄, hend, hm₄, hc₄⟩ :=
    (lags_records .additional h.additionals).next hbuf₃ (by omega) had
  have hzero : m₄ = 0 := by omega
  obtain ⟨q, hq, hroot⟩ | ⟨r, hr, hroot⟩ := h.root
  · exact (hc₁ (by omega) q hq).ne_empty hroot
  · simp only [List.mem_append] at hr
    obtain (hr | hr) | hr := hr
    · exact not_hasRoot_of_clean (hc₂ (by omega) r hr) hroot
    · exact not_hasRoot_of_clean (hc₃ (by omega) r hr) hroot
    · exact not_hasRoot_of_clean (hc₄ (by omega) r hr) hroot

/- A query for the address of w.ab with an EDNS pseudo-record of two option bytes. -/
def ednsQuery : DnsPacket where
  header := ⟨7, 1, 0, 1, 0, 0, 1⟩
  questions := [⟨sampleName, qtA, qtcIn⟩]
  answers := []
  authorities := []
  additionals := [⟨⟨CString.empty, qtOpt, 1232⟩, 0, 2, .opt [1, 2]⟩]

theorem rooted_ednsQuery : Rooted ednsQuery where
  counted := ⟨rfl, rfl, rfl, rfl⟩
  questions := by simp [ednsQuery, NameOk, dotted_sampleName]
  answers := by simp [ednsQuery]
  authorities := by simp [ednsQuery]
  additionals := by
    intro r hr
    cases hr with
    | head => exact .inr ⟨rfl, rfl, [1, 2], rfl, rfl⟩
    | tail _ hr => cases hr
  size := by decide
  root := .inr ⟨⟨⟨CString.empty, qtOpt, 1232⟩, 0, 2, .opt [1, 2]⟩, by simp [ednsQuery], .inl rfl⟩

/-- The pseudo-record's name is written as two zero bytes, and behind the first of them Read finds
the Type 0. -/
theorem ednsQuery_lost : Rooted ednsQuery ∧
    ∃ out n, ednsQuery.write.run zeroBuffer 0 = some (out, n) ∧
      (DnsPacket.read fun _ => CString.empty).run out n 0 = .error (.failed eServFail) ∧
      ¬ RoundTrips (fun _ => CString.empty) ednsQuery := by
  have hwrite := DnsPacket.write_zeroBuffer rooted_ednsQuery.size
  have hread : (DnsPacket.read fun _ => CString.empty).run
      (ednsQuery.wire ++ List.replicate (maxPacketSz - ednsQuery.size) 0) ednsQuery.size 0 =
        .error (.failed eServFail) := by decide +kernel
  refine ⟨rooted_ednsQuery, _, _, hwrite, hread, ?_⟩
  rintro ⟨out, n, q, hwrite', hread', _⟩
  rw [hwrite] at hwrite'
  cases hwrite'
  rw [hread] at hread'
  cases hread'

theorem rooted_not_roundTrips_ednsQuery :
    Rooted ednsQuery ∧ ¬ RoundTrips (fun _ => CString.empty) ednsQuery :=
  ⟨rooted_ednsQuery, rooted_not_roundTrips _ ednsQuery rooted_ednsQuery⟩

end DnsWrapper.Dns
