import DnsWrapper.Direction
import DnsWrapper.PacketValidate

/-! The packet that Redirect sends: the request with the flags of an answer and one record for
each question. Whether it leaves as bytes is redirect_bytes. -/
namespace DnsWrapper.Dns
open NetCommon
variable {E : Type}

/-- The reply is the request but for the flags QR, AA and RA and the answers, of which there is
one for each question in the order of the questions. -/
structure Redirected (request reply : DnsPacket) : Prop where
  id : reply.getId = request.getId
  opcode : DnsPacket.opcode reply.header = DnsPacket.opcode request.header
  recursionDesired : reply.header.getRecursionDesired = request.header.getRecursionDesired
  questionCount : reply.header.questionCount = request.header.questionCount
  questions : reply.questionList = request.questionList
  authorityCount : reply.header.authorityCount = request.header.authorityCount
  authorities : reply.authorityList = request.authorityList
  additionalCount : reply.header.additionalCount = request.header.additionalCount
  additionals : reply.additionalList = request.additionalList
  queryResponse : reply.header.getQueryResponse = true
  authoritativeAnswer : reply.header.getAuthoritativeAnswer = true
  recursionAvailable : reply.header.getRecursionAvailable = true
  answerCount : reply.header.answerCount = request.header.questionCount
  answers : reply.answerList.length = request.header.questionCount.toNat ∧
    List.Forall₂ (fun (r : DnsRecord) (q : DnsQuestion) => r.name = q.name ∧ r.type = q.type ∧
      r.cls = q.cls ∧ r.ttl = 3600) reply.answerList request.questionList

/- The first flag byte with QR and AA set. -/
def answering (x : UInt8) : UInt8 := x ||| 128 ||| 4

theorem answering_bits (x : UInt8) :
    (answering x >>> 3) &&& (0b1111 : UInt8) = (x >>> 3) &&& 0b1111 ∧ answering x &&& 1 = x &&& 1 ∧
      answering x &&& 128 = 128 ∧ answering x &&& 4 = 4 := by
  have h : ∀ b : BitVec 8, ((b ||| 128#8 ||| 4#8) >>> 3) &&& 15#8 = (b >>> 3) &&& 15#8 ∧
      (b ||| 128#8 ||| 4#8) &&& 1#8 = b &&& 1#8 ∧ (b ||| 128#8 ||| 4#8) &&& 128#8 = 128#8 ∧
      (b ||| 128#8 ||| 4#8) &&& 4#8 = 4#8 := by
    decide +kernel
  obtain ⟨hop, hrd, hqr, haa⟩ := h x.toBitVec
  refine ⟨?_, UInt8.eq_of_toBitVec_eq hrd, UInt8.eq_of_toBitVec_eq hqr, UInt8.eq_of_toBitVec_eq haa⟩
  apply UInt8.eq_of_toBitVec_eq
  simpa [answering] using hop

/- The packet after updateRedirectResponse, field by field. -/
theorem updateRedirectResponse_packet {packet : DnsPacket} (hq : packet.header.questionCount ≠ 0)
    (target : IpAddress) :
    updateRedirectResponse packet target =
      ⟨⟨packet.header.id, answering packet.header.hb3, packet.header.hb4 ||| 128,
          packet.header.questionCount, packet.header.questionCount, packet.header.authorityCount,
          packet.header.additionalCount⟩,
        packet.questions, packet.questionList.map (redirectAnswer target), packet.authorities,
        packet.additionals⟩ := by
  rw [updateRedirectResponse_eq]
  simp only [if_neg hq]
  rfl

theorem answerList_redirected {packet : DnsPacket} (hc : packet.Counted)
    (hq : packet.header.questionCount ≠ 0) (target : IpAddress) :
    (updateRedirectResponse packet target).answerList =
      packet.questionList.map (redirectAnswer target) := by
  rw [updateRedirectResponse_packet hq]
  apply List.take_of_length_le
  rw [List.length_map, hc.questionList, hc.questions]

theorem redirected_update {packet : DnsPacket} (hc : packet.Counted)
    (hq : packet.header.questionCount ≠ 0) (target : IpAddress) :
    Redirected packet (updateRedirectResponse packet target) := by
  have hanswers := answerList_redirected hc hq target
  have hpacket := updateRedirectResponse_packet hq target
  obtain ⟨hop, hrd, hqr, haa⟩ := answering_bits packet.header.hb3
  refine ⟨?_, ?_, ?_, ?_, ?_, ?_, ?_, ?_, ?_, ?_, ?_, ?_, ?_, ?_, ?_⟩
  · rw [hpacket]
    rfl
  · rw [hpacket]
    exact hop
  · rw [hpacket]
    exact congrArg (· != 0) hrd
  · rw [hpacket]
  · rw [hpacket]
    rfl
  · rw [hpacket]
  · rw [hpacket]
    rfl
  · rw [hpacket]
  · rw [hpacket]
    rfl
  · rw [hpacket]
    exact congrArg (· != 0) hqr
  · rw [hpacket]
    exact congrArg (· != 0) haa
  · rw [hpacket]
    exact congrArg (· != 0) (or_bit7 packet.header.hb4)
  · rw [hpacket]
  · rw [hanswers, List.length_map, hc.questionList, hc.questions]
  · rw [hanswers, List.forall₂_map_left_iff, List.forall₂_same]
    intro q _
    obtain ⟨hquestion, httl⟩ := redirectAnswer_question target q
    rw [hquestion]
    exact ⟨rfl, rfl, rfl, httl⟩

theorem questionCount_ne {packet : DnsPacket} (hq : 0 < packet.header.questionCount.toNat) :
    packet.header.questionCount ≠ 0 := by
  intro hzero
  rw [hzero] at hq
  exact absurd hq (by decide)

/-- Redirect sends one packet, to the client that asked, and it is the reply described above:
for every mix of questions, and whatever answers came with the request. -/
theorem redirect_reply (packet : DnsPacket) (hc : packet.Counted)
    (hq : 0 < packet.header.questionCount.toNat) (endpoint : E) (ipv4 : Bool) (target : IpAddress) :
    ∃ reply, DnsServer.redirect packet endpoint ipv4 target = [reply] ∧
      reply.endpoint = endpoint ∧ reply.ipv4 = ipv4 ∧ Redirected packet reply.packet :=
  ⟨_, rfl, rfl, rfl, redirected_update hc (questionCount_ne hq) target⟩

/- A request with two questions, for an address and for a name server, that carries an answer. -/
def mixedRequest : DnsPacket where
  header := ⟨7, 1, 0, 2, 1, 0, 0⟩
  questions := [⟨sampleName, qtA, 1⟩, ⟨⟨[97, 98], by decide⟩, qtNS, 1⟩]
  answers := [⟨⟨⟨[97, 98], by decide⟩, qtA, 1⟩, 60, 4, .ipv4 0⟩]
  authorities := []
  additionals := []

theorem redirect_reply_mixedRequest : mixedRequest.Counted ∧
    ∃ reply, DnsServer.redirect mixedRequest (1 : Nat) true ⟨Vector.replicate 16 0⟩ = [reply] ∧
      reply.endpoint = 1 ∧ reply.ipv4 = true ∧ Redirected mixedRequest reply.packet := by
  have hc : mixedRequest.Counted := ⟨rfl, rfl, rfl, rfl⟩
  exact ⟨hc, redirect_reply mixedRequest hc (by decide) 1 true _⟩

end DnsWrapper.Dns
