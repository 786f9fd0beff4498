import DnsWrapper.PacketWire
import DnsWrapper.ServerSteps

/-! RDLENGTH and the RDATA behind it. Write copies Len from the received message, or from
what Redirect filled in, and encodes the RDATA anew without compression. -/
namespace DnsWrapper.Dns
open ByteReader ByteWriter ByteWord NetCommon Bookkeeping
open scoped List
variable {E : Type}

/-- Wherever Write puts the record, the two bytes before its RDATA count the bytes by which
the RDATA moves the cursor. -/
def RdlengthAgrees (r : DnsRecord) : Prop :=
  ∀ buf p buf₁ p₁ buf₂ p₂, p ≤ buf.length → r.writeFixed.run buf p = some (buf₁, p₁) →
    r.writeAddress.run buf₁ p₁ = some (buf₂, p₂) →
    ∃ a b, buf₂[p₁ - 2]? = some a ∧ buf₂[p₁ - 1]? = some b ∧ (join16 a b).toNat = p₂ - p₁

theorem writeU16_stored {v : UInt16} {buf buf' : List UInt8} {p q : Nat}
    (h : (writeU16 v).run buf p = some (buf', q)) :
    q = p + 2 ∧ ∃ a b, buf'[p]? = some a ∧ buf'[p + 1]? = some b ∧ join16 a b = v := by
  obtain ⟨buf₁, p₁, h₁, h⟩ := andThen_eq_some h
  obtain ⟨hp, rfl, rfl⟩ := put_eq_some h₁
  obtain ⟨buf₂, p₂, h₂, h⟩ := andThen_eq_some h
  obtain ⟨hp₂, rfl, rfl⟩ := put_eq_some h₂
  cases h
  rw [List.length_set] at hp₂
  refine ⟨rfl, (v >>> 8).toUInt8, (v &&& 0xff).toUInt8, ?_, ?_, join16_bytes16 v⟩
  · rw [List.getElem?_set_ne (by omega), List.getElem?_set_self hp]
  · rw [List.getElem?_set_self (by rwa [List.length_set])]

/- The last thing Write does before the RDATA is to write Len. -/
theorem writeFixed_stored {r : DnsRecord} {buf buf₁ : List UInt8} {p p₁ : Nat}
    (h : r.writeFixed.run buf p = some (buf₁, p₁)) :
    2 ≤ p₁ ∧ ∃ a b, buf₁[p₁ - 2]? = some a ∧ buf₁[p₁ - 1]? = some b ∧ join16 a b = r.len := by
  obtain ⟨bufq, q, _, h⟩ := andThen_eq_some h
  obtain ⟨buft, t, _, h⟩ := andThen_eq_some h
  obtain ⟨rfl, a, b, ha, hb, hlen⟩ := writeU16_stored h
  exact ⟨by omega, a, b, ha, hb, hlen⟩

theorem getElem?_of_take {bs cs : List UInt8} {p i : Nat} (h : bs.take p = cs.take p)
    (hi : i < p) : bs[i]? = cs[i]? := by
  rw [← List.getElem?_take_of_lt hi, h, List.getElem?_take_of_lt hi]

/-- RDLENGTH is right exactly when Len is the uncompressed size of the RDATA. -/
theorem rdlengthAgrees_iff (r : DnsRecord) : RdlengthAgrees r ↔ r.len.toNat = r.rdataSize := by
  have hbytes : ∀ {buf p buf₁ p₁ buf₂ p₂}, p ≤ buf.length →
      r.writeFixed.run buf p = some (buf₁, p₁) → r.writeAddress.run buf₁ p₁ = some (buf₂, p₂) →
      p₂ - p₁ = r.rdataSize ∧
        ∃ a b, buf₂[p₁ - 2]? = some a ∧ buf₂[p₁ - 1]? = some b ∧ join16 a b = r.len := by
    intro buf p buf₁ p₁ buf₂ p₂ hp h₁ h₂
    obtain ⟨hpos, hfit, hlen⟩ := r.extent_writeFixed.of_run hp h₁
    obtain ⟨hpos₂, _, _⟩ := r.extent_writeAddress.of_run (by omega) h₂
    obtain ⟨htwo, a, b, ha, hb, hval⟩ := writeFixed_stored h₁
    obtain ⟨_, htake⟩ := r.keeps_writeAddress buf₁ p₁ buf₂ p₂ h₂
    rw [← getElem?_of_take htake (by omega)] at ha hb
    exact ⟨by omega, a, b, ha, hb, hval⟩
  constructor
  · intro h
    obtain ⟨buf₁, h₁, hlen₁⟩ := r.extent_writeFixed.defined
      (List.replicate (r.size + r.overhang) 0) 0 (by
        rw [List.length_replicate, DnsRecord.size]
        omega)
    obtain ⟨buf₂, h₂, _⟩ := r.extent_writeAddress.defined buf₁ (0 + r.fixedSize) (by
      rw [hlen₁, List.length_replicate, DnsRecord.size]
      omega)
    obtain ⟨hsize, a, b, ha, hb, hval⟩ := hbytes (Nat.zero_le _) h₁ h₂
    obtain ⟨a', b', ha', hb', hagree⟩ := h _ _ _ _ _ _ (Nat.zero_le _) h₁ h₂
    rw [ha] at ha'
    rw [hb] at hb'
    cases ha'
    cases hb'
    rw [← hval, hagree, hsize]
  · intro h buf p buf₁ p₁ buf₂ p₂ hp h₁ h₂
    obtain ⟨hsize, a, b, ha, hb, hval⟩ := hbytes hp h₁ h₂
    exact ⟨a, b, ha, hb, by rw [hval, hsize, h]⟩

/- Len is the size of the RDATA without compression. -/
def LenOk (r : DnsRecord) : Prop := r.len.toNat = r.rdataSize

instance (r : DnsRecord) : Decidable (LenOk r) := inferInstanceAs (Decidable (_ = _))

/-- Every record of the received message has the Len of its uncompressed RDATA; Redirect
replaces the answers, and does it right for no question of type NS, CNAME or MX. -/
def Event.LensOk : Event E → Prop
  | .resolve packet _ _ _ _ _ => ∀ r ∈ packet.records, LenOk r
  | .response packet _ _ => ∀ r ∈ packet.records, LenOk r
  | .redirect packet _ _ _ =>
    (packet.header.questionCount = 0 → ∀ r ∈ packet.answerList, LenOk r) ∧
    (∀ q ∈ packet.questionList, q.type ≠ qtNS ∧ q.type ≠ qtCName ∧ q.type ≠ qtMX) ∧
    ∀ r ∈ packet.authorityList ++ packet.additionalList, LenOk r

/- An answer that Redirect leaves as UpdateFromQuestion made it. -/
theorem lenOk_unfilled {q : DnsQuestion} (h₁ : q.type ≠ qtA) (h₂ : q.type ≠ qtAAAA)
    (ttl : UInt32) : LenOk { DnsRecord.updateFromQuestion q with ttl } ↔
      q.type ≠ qtNS ∧ q.type ≠ qtCName ∧ q.type ≠ qtMX := by
  simp only [LenOk, DnsRecord.rdataSize, DnsRecord.updateFromQuestion, h₁, h₂, if_false,
    Address.asNS, Address.asCName, Address.asMailExchange, CString.size, CString.empty,
    List.length_nil]
  by_cases h₃ : q.type = qtNS
  · rw [if_pos h₃]
    exact iff_of_false (by decide) fun h => h.1 h₃
  rw [if_neg h₃]
  by_cases h₄ : q.type = qtCName
  · rw [if_pos h₄]
    exact iff_of_false (by decide) fun h => h.2.1 h₄
  rw [if_neg h₄]
  by_cases h₅ : q.type = qtMX
  · rw [if_pos h₅]
    exact iff_of_false (by decide) fun h => h.2.2 h₅
  · rw [if_neg h₅]
    exact iff_of_true rfl ⟨h₃, h₄, h₅⟩

theorem lenOk_redirectAnswer (target : IpAddress) (q : DnsQuestion) :
    LenOk (redirectAnswer target q) ↔ q.type ≠ qtNS ∧ q.type ≠ qtCName ∧ q.type ≠ qtMX := by
  unfold redirectAnswer
  by_cases h₁ : q.type = qtA
  · rw [if_pos h₁, h₁]
    refine iff_of_true ?_ (by decide)
    simp only [LenOk, DnsRecord.rdataSize, DnsRecord.updateFromQuestion, h₁, if_true]
    rfl
  rw [if_neg h₁]
  by_cases h₂ : q.type = qtAAAA
  · rw [if_pos h₂, h₂]
    refine iff_of_true ?_ (by decide)
    simp only [LenOk, DnsRecord.rdataSize, DnsRecord.updateFromQuestion, h₂]
    rfl
  · rw [if_neg h₂]
    exact lenOk_unfilled h₁ h₂ oneHour

theorem records_setAnswers (p : DnsPacket) (writeAnswer : DnsQuestion → DnsRecord) :
    (p.setAnswers writeAnswer).records =
      (if p.header.questionCount = 0 then p.answerList else p.questionList.map writeAnswer) ++
        (p.authorityList ++ p.additionalList) := by
  by_cases h : p.header.questionCount = 0
  · rw [if_pos h, DnsPacket.setAnswers, if_pos h]
    rfl
  · rw [if_neg h, DnsPacket.setAnswers, if_neg h]
    have hall : (p.questionList.map writeAnswer).take p.header.questionCount.toNat =
        p.questionList.map writeAnswer := by
      refine List.take_of_length_le ?_
      rw [List.length_map, DnsPacket.questionList, List.length_take]
      exact Nat.min_le_left _ _
    exact congrArg (· ++ (p.authorityList ++ p.additionalList)) hall

theorem records_redirect (packet : DnsPacket) (target : IpAddress) :
    (updateRedirectResponse packet target).records =
      (if packet.header.questionCount = 0 then packet.answerList
        else packet.questionList.map (redirectAnswer target)) ++
      (packet.authorityList ++ packet.additionalList) :=
  records_setAnswers
    (((packet.setAsQueryResponse).setAsAuthoritativeAnswer true).setRecursionAvailable true) _

theorem lensOk_redirect (packet : DnsPacket) (endpoint : E) (ipv4 : Bool) (target : IpAddress) :
    (∀ r ∈ (updateRedirectResponse packet target).records, LenOk r) ↔
      (Event.redirect packet endpoint ipv4 target).LensOk := by
  simp only [records_redirect, Event.LensOk]
  by_cases h : packet.header.questionCount = 0
  · have hnone : packet.questionList = [] := by
      rw [DnsPacket.questionList, h]
      rfl
    simp [h, hnone, or_imp, forall_and]
  · simp [h, or_imp, forall_and, lenOk_redirectAnswer]

/- Each datagram holds the records of the message it was made from. -/
def Event.sentRecords : Event E → List DnsRecord
  | .resolve packet _ _ _ _ _ => packet.records
  | .response packet _ _ => packet.records
  | .redirect packet _ _ target => (updateRedirectResponse packet target).records

namespace DnsServer

theorem sentRecords_resolved {s s' : DnsServer E} {packet : DnsPacket} {endpoint : E}
    {ipv4 : Bool} {sent : List (Sent E)} (h : Resolved s packet endpoint ipv4 s' sent) :
    ∀ d ∈ sent, d.packet.records = packet.records := by
  intro d hd
  cases h with
  | unconfigured h => cases hd
  | waiting h ht hc => cases hd
  | joined h ht hc hr => cases hd
  | refused hin htidy hlen =>
    rw [List.mem_singleton.mp hd]
    rfl
  | rearmed h ht hr hsent =>
    rw [hsent] at hd
    obtain ⟨server, _, rfl⟩ := List.mem_map.mp hd
    rfl
  | opened hnone hnew hpr hin hid hr hsent =>
    rw [hsent] at hd
    obtain ⟨server, _, rfl⟩ := List.mem_map.mp hd
    rfl

theorem sentRecords_responded {s s' : DnsServer E} {packet : DnsPacket} {sent : List (Sent E)}
    (h : Responded s packet s' sent) : ∀ d ∈ sent, d.packet.records = packet.records := by
  intro d hd
  cases h with
  | dropped h => cases hd
  | relayed hsplit huse hid hhash hr =>
    obtain ⟨c, _, rfl⟩ := List.mem_map.mp hd
    rfl

variable [DecidableEq E]

theorem sentRecords_step {s t : DnsServer E} {e : Event E} {sent : List (Sent E)}
    (h : s.step e = some (t, sent)) : ∀ d ∈ sent, d.packet.records = e.sentRecords := by
  cases e with
  | resolve packet endpoint ipv4 now draws fresh => exact sentRecords_resolved (resolve_resolved h)
  | response packet endpoint now =>
    exact sentRecords_responded (response_responded (Option.some.inj h))
  | redirect packet endpoint ipv4 target =>
    cases h
    intro d hd
    rw [List.mem_singleton.mp hd]
    rfl

/-- In a datagram the server sends, from any state, every RDLENGTH counts its RDATA
exactly when the message it was made from has only uncompressed lengths and, for Redirect,
no question whose answer Redirect leaves unfilled. -/
theorem rdlength_sent_iff (s t : DnsServer E) (e : Event E) (sent : List (Sent E))
    (h : s.step e = some (t, sent)) (d : Sent E) (hd : d ∈ sent) :
    (∀ r ∈ d.packet.records, RdlengthAgrees r) ↔ e.LensOk := by
  have hlen : (∀ r ∈ d.packet.records, RdlengthAgrees r) ↔ ∀ r ∈ e.sentRecords, LenOk r := by
    rw [sentRecords_step h d hd]
    exact forall₂_congr fun r _ => rdlengthAgrees_iff r
  rw [hlen]
  cases e with
  | resolve packet endpoint ipv4 now draws fresh => exact Iff.rfl
  | response packet endpoint now => exact Iff.rfl
  | redirect packet endpoint ipv4 target => exact lensOk_redirect packet endpoint ipv4 target

end DnsServer

/- A reply to w.ab CNAME whose answer points to the question with its owner and its RDATA. -/
def compressedReply : List UInt8 :=
  [0, 1, 0x80, 0, 0, 1, 0, 1, 0, 0, 0, 0, 1, 119, 2, 97, 98, 0, 0, 5, 0, 1,
    0xc0, 12, 0, 5, 0, 1, 0, 0, 0, 60, 0, 2, 0xc0, 12]

def compressedPacket : DnsPacket where
  header := ⟨1, 0x80, 0, 1, 1, 0, 0⟩
  questions := [⟨sampleName, qtCName, qtcIn⟩]
  answers := [⟨⟨sampleName, qtCName, qtcIn⟩, 60, 2, .cName sampleName⟩]
  authorities := []
  additionals := []

def compressedQuery : DnsPacket :=
  { compressedPacket with header := ⟨7, 1, 0, 1, 0, 0, 0⟩, answers := [] }

def compressedEvents : List (Event Nat) :=
  [.resolve compressedQuery 1 true 5 [firstDraw] freshRecord, .response compressedPacket 0 6]

theorem read_compressedReply :
    (DnsPacket.read fun _ => CString.empty).run compressedReply 36 0 = .ok (compressedPacket, 36) := by
  rfl

/-- The relayed answer says two RDATA bytes and carries six. -/
theorem compressed_rdlength_wrong :
    (DnsPacket.read fun _ => CString.empty).run compressedReply 36 0 =
        .ok (compressedPacket, 36) ∧
      ∃ s os, DnsServer.run sampleServers compressedEvents = some (s, os) ∧
        ∃ sent ∈ os, ∃ d ∈ sent, d.kind = .relayed ∧
          ¬ ∀ r ∈ d.packet.records, RdlengthAgrees r := by
  refine ⟨read_compressedReply, ?_⟩
  have hrun : (DnsServer.run sampleServers compressedEvents).map (fun x => decide
      (∃ sent ∈ x.2, ∃ d ∈ sent, d.kind = .relayed ∧ ¬ ∀ r ∈ d.packet.records, LenOk r)) =
        some true := by
    decide +kernel
  obtain ⟨⟨s, os⟩, hs, hdec⟩ := Option.map_eq_some_iff.mp hrun
  obtain ⟨sent, hsent, d, hd, hkind, hbad⟩ := of_decide_eq_true hdec
  refine ⟨s, os, hs, sent, hsent, d, hd, hkind, ?_⟩
  intro h
  exact hbad fun r hr => (rdlengthAgrees_iff r).mp (h r hr)

/- A Redirect answer to an address query. -/
def redirectedEvent : Event Nat := .redirect (sampleQuery 7) 1 true ⟨Vector.replicate 16 1⟩

theorem rdlength_redirected :
    ∃ d, (DnsServer.start sampleServers).step redirectedEvent =
        some (DnsServer.start sampleServers, [d]) ∧ redirectedEvent.LensOk ∧
      ∀ r ∈ d.packet.records, RdlengthAgrees r := by
  have hok : redirectedEvent.LensOk := by
    refine ⟨nofun, ?_, nofun⟩
    intro q hq
    have hq : q = ⟨sampleName, qtA, qtcIn⟩ := List.mem_singleton.mp hq
    rw [hq]
    decide
  refine ⟨_, rfl, hok, ?_⟩
  exact (DnsServer.rdlength_sent_iff (DnsServer.start sampleServers)
    (DnsServer.start sampleServers) redirectedEvent _ rfl _ List.mem_cons_self).mpr hok

end DnsWrapper.Dns
