import DnsWrapper.PacketWire
import DnsWrapper.SaveLoad
import DnsWrapper.ServerSteps

/-! The octets of a redirect target on the wire. inet_pton leaves them in memory in the order
of the text, updateRedirectResponse reads them as words of the host, WRITE_U32 writes a word
from its high byte down: on a little-endian host every word comes out backwards. -/
namespace DnsWrapper.Dns
open ByteWriter ByteWord NetCommon Util
variable {E : Type}

/- What inet_pton makes of the text of a target. -/
def targetOctets (inet : Inet) (text : List Char) (ipv4 : Bool) : Option (List UInt8) :=
  if ipv4 then (inet.pton4 (cStr text)).map Vector.toList
  else (inet.pton6 (cStr text)).map Vector.toList

/- The questions that a target of the family answers. -/
def addressType (ipv4 : Bool) : UInt16 := if ipv4 then qtA else qtAAAA

/-- The answer to every question for an address of this family is written as the octets. -/
def AnsweredInOrder (ipv4 : Bool) (octets : List UInt8) (request reply : DnsPacket) : Prop :=
  ∀ (i : Nat) (q : DnsQuestion), request.questionList[i]? = some q → q.type = addressType ipv4 →
    ∃ r : DnsRecord, reply.answerList[i]? = some r ∧ r.toDnsQuestion = q ∧ Emits r.writeAddress octets

/- Each group of four octets backwards. -/
def swapWords : List UInt8 → List UInt8
  | a :: b :: c :: d :: rest => d :: c :: b :: a :: swapWords rest
  | rest => rest

/-- Each group of four octets reads the same backwards. -/
def Mirrored : List UInt8 → Prop
  | a :: b :: c :: d :: rest => a = d ∧ b = c ∧ Mirrored rest
  | _ => True

theorem swapWords_eq_iff (octets : List UInt8) : swapWords octets = octets ↔ Mirrored octets := by
  induction octets using swapWords.induct with
  | case1 a b c d rest ih =>
    simp only [swapWords, Mirrored, List.cons.injEq, ih]
    constructor
    · rintro ⟨hd, hc, _, _, hrest⟩
      exact ⟨hd.symm, hc.symm, hrest⟩
    · rintro ⟨rfl, rfl, hrest⟩
      exact ⟨rfl, rfl, rfl, rfl, hrest⟩
  | case2 rest h =>
    rw [swapWords, Mirrored]
    · simp
    · exact h
    · exact h

/- The answer written for one question. -/
theorem rdata_redirectAnswer {inet : Inet} {text : List Char} {ipv4 : Bool}
    {before target : IpAddress} {octets : List UInt8}
    (hoctets : targetOctets inet text ipv4 = some octets)
    (htarget : toIpAddress inet text ipv4 before = some target) {q : DnsQuestion}
    (hq : q.type = addressType ipv4) :
    (redirectAnswer target q).rdata = swapWords octets := by
  cases ipv4 with
  | true =>
    obtain ⟨v, hv, rfl⟩ := Option.map_eq_some_iff.mp hoctets
    obtain ⟨w, hw, rfl⟩ := Option.map_eq_some_iff.mp htarget
    rw [hv] at hw
    cases hw
    have ha : q.type = qtA := hq
    have hrdata : (redirectAnswer (before.setWord 0 v) q).rdata =
        bytes32 (before.setWord 0 v).ipv4 := by
      simp [redirectAnswer, DnsRecord.rdata, DnsRecord.updateFromQuestion, ha, Address.asIpv4]
    obtain ⟨a, b, c, d, rfl⟩ := exists_four v
    rw [hrdata, IpAddress.ipv4_setWord, bytes32_join32]
    rfl
  | false =>
    obtain ⟨v, hv, rfl⟩ := Option.map_eq_some_iff.mp hoctets
    obtain ⟨w, hw, rfl⟩ := Option.map_eq_some_iff.mp htarget
    rw [hv] at hw
    cases hw
    have haaaa : q.type = qtAAAA := hq
    have hrdata : (redirectAnswer ⟨v⟩ q).rdata =
        bytes32 (join32 v[3] v[2] v[1] v[0]) ++ (bytes32 (join32 v[7] v[6] v[5] v[4]) ++
          (bytes32 (join32 v[11] v[10] v[9] v[8]) ++
            bytes32 (join32 v[15] v[14] v[13] v[12]))) := by
      simp [redirectAnswer, DnsRecord.rdata, DnsRecord.updateFromQuestion, haaaa, Address.asIpv6,
        IpAddress.ipv6, qtA, qtNS, qtCName, qtMX, qtAAAA]
    rw [hrdata, bytes32_join32, bytes32_join32, bytes32_join32, bytes32_join32, toList_sixteen]
    rfl

/- The answers stand in the order of the questions. -/
theorem answerList_redirect {packet : DnsPacket} {i : Nat} {q : DnsQuestion}
    (hq : packet.questionList[i]? = some q) (target : IpAddress) :
    (updateRedirectResponse packet target).answerList[i]? = some (redirectAnswer target q) := by
  have hcount : packet.header.questionCount ≠ 0 := by
    intro h0
    rw [DnsPacket.questionList, h0] at hq
    simp at hq
  have hlist : (updateRedirectResponse packet target).answerList =
      (packet.questionList.map (redirectAnswer target)).take
        packet.header.questionCount.toNat := by
    rw [updateRedirectResponse_eq, if_neg hcount]
    rfl
  have hlength : packet.questionList.length ≤ packet.header.questionCount.toNat := by
    rw [DnsPacket.questionList, List.length_take]
    exact Nat.min_le_left _ _
  rw [hlist, List.take_of_length_le (by rwa [List.length_map]), List.getElem?_map, hq,
    Option.map_some]

/-- In the packet that Redirect sends, the questions for an address of the target's family are
answered by its octets in order exactly when there is no such question or each group of four
octets reads the same backwards. -/
theorem redirect_octets_iff (inet : Inet) (text : List Char) (ipv4 : Bool)
    (before target : IpAddress) (octets : List UInt8)
    (hoctets : targetOctets inet text ipv4 = some octets)
    (htarget : toIpAddress inet text ipv4 before = some target) (packet : DnsPacket)
    (endpoint : E) (overIpv4 : Bool) :
    ∃ reply, DnsServer.redirect packet endpoint overIpv4 target =
        [⟨.redirected, reply, endpoint, overIpv4⟩] ∧
      (AnsweredInOrder ipv4 octets packet reply ↔
        ((∃ q ∈ packet.questionList, q.type = addressType ipv4) → Mirrored octets)) := by
  refine ⟨updateRedirectResponse packet target, rfl, ?_⟩
  have hwrites : ∀ q : DnsQuestion, q.type = addressType ipv4 →
      Emits (redirectAnswer target q).writeAddress (swapWords octets) := by
    intro q hq
    rw [← rdata_redirectAnswer hoctets htarget hq]
    exact (redirectAnswer target q).emits_writeAddress
  constructor
  · rintro h ⟨q, hmem, hq⟩
    obtain ⟨i, hi⟩ := List.mem_iff_getElem?.mp hmem
    obtain ⟨r, hr, _, hemits⟩ := h i q hi hq
    rw [answerList_redirect hi target] at hr
    cases hr
    exact (swapWords_eq_iff octets).mp (emits_unique (hwrites q hq) hemits)
  · intro h i q hi hq
    refine ⟨redirectAnswer target q, answerList_redirect hi target,
      (redirectAnswer_question target q).1, ?_⟩
    have hswap : swapWords octets = octets :=
      (swapWords_eq_iff octets).mpr (h ⟨q, List.mem_of_getElem? hi, hq⟩)
    rw [← hswap]
    exact hwrites q hq

def targetText : List Char := "192.168.0.7".toList

def targetUnion : IpAddress := Shm.sampleIp.ipaddr

theorem pton_targetText : Shm.plainInet.pton4 (cStr targetText) = some #v[192, 168, 0, 7] := by
  decide +kernel

theorem targetText_octets : targetOctets Shm.plainInet targetText true = some [192, 168, 0, 7] := by
  rw [targetOctets, if_pos rfl, pton_targetText]
  rfl

theorem targetText_stored :
    toIpAddress Shm.plainInet targetText true ⟨Vector.replicate 16 0⟩ = some targetUnion := by
  rw [toIpAddress, if_pos rfl, pton_targetText]
  rfl

/-- The client that asks for w.ab and is redirected to 192.168.0.7 reads 7.0.168.192. -/
theorem redirected_backwards :
    (sampleQuery 7).validate .incomingRequest = eNoError ∧
      targetOctets Shm.plainInet targetText true = some [192, 168, 0, 7] ∧
      toIpAddress Shm.plainInet targetText true ⟨Vector.replicate 16 0⟩ = some targetUnion ∧
      (∃ r, (updateRedirectResponse (sampleQuery 7) targetUnion).answerList = [r] ∧
        Emits r.writeAddress [7, 0, 168, 192]) ∧
      DnsServer.redirect (sampleQuery 7) () true targetUnion =
        [⟨.redirected, updateRedirectResponse (sampleQuery 7) targetUnion, (), true⟩] ∧
      ¬ AnsweredInOrder true [192, 168, 0, 7] (sampleQuery 7)
        (updateRedirectResponse (sampleQuery 7) targetUnion) := by
  let r := redirectAnswer targetUnion ⟨⟨[119, 46, 97, 98], by decide⟩, qtA, qtcIn⟩
  have hrdata : r.rdata = [7, 0, 168, 192] := rdata_redirectAnswer targetText_octets
    targetText_stored rfl
  have hwrites : Emits r.writeAddress [7, 0, 168, 192] := hrdata ▸ r.emits_writeAddress
  refine ⟨by decide, targetText_octets, targetText_stored, ⟨r, rfl, hwrites⟩, rfl, ?_⟩
  intro h
  obtain ⟨r', hr', _, hemits⟩ := h 0 _ rfl rfl
  cases hr'
  cases emits_unique hwrites hemits

theorem redirect_octets_iff_target :
    ∃ reply, DnsServer.redirect (sampleQuery 7) () true targetUnion =
        [⟨.redirected, reply, (), true⟩] ∧
      (AnsweredInOrder true [192, 168, 0, 7] (sampleQuery 7) reply ↔
        ((∃ q ∈ (sampleQuery 7).questionList, q.type = addressType true) →
          Mirrored [192, 168, 0, 7])) :=
  redirect_octets_iff Shm.plainInet targetText true ⟨Vector.replicate 16 0⟩ targetUnion
    [192, 168, 0, 7] targetText_octets targetText_stored (sampleQuery 7) () true

end DnsWrapper.Dns
