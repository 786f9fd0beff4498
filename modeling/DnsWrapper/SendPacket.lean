import DnsWrapper.ClientAnswers
import DnsWrapper.RedirectReply
import DnsWrapper.RoundTrip
import DnsWrapper.UpstreamReply
import DnsWrapper.WriteBounds

/-! What leaves the daemon as bytes: the encoding of every packet that fits the buffer without
compression. Of one that is forwarded, relayed or refused only the first four bytes differ from
the encoding of what was received. -/
namespace DnsWrapper.Dns
open ByteReader ByteWriter ByteWord NetCommon Net Bookkeeping Shm

/- sendPacket writes into a fresh buffer and sends the bytes before the cursor. -/
def sendPacket {E : Type} (d : Sent E) : Option (List UInt8) :=
  (d.packet.write.run zeroBuffer 0).map fun x => x.1.take x.2

/- Whoever receives the bytes reads the packet, whatever stands behind them. -/
def ReadsAs (bytes : List UInt8) (p : DnsPacket) : Prop :=
  ∀ garbage stale, (DnsPacket.read garbage).run (bytes ++ stale) bytes.length 0 = .ok (p, bytes.length)

/- The packets differ in the ID and in the two bytes of flags. -/
structure SameBody (p p' : DnsPacket) : Prop where
  questionCount : p'.header.questionCount = p.header.questionCount
  answerCount : p'.header.answerCount = p.header.answerCount
  authorityCount : p'.header.authorityCount = p.header.authorityCount
  additionalCount : p'.header.additionalCount = p.header.additionalCount
  questions : p'.questions = p.questions
  answers : p'.answers = p.answers
  authorities : p'.authorities = p.authorities
  additionals : p'.additionals = p.additionals

/-- Of a packet that fits the buffer without compression, with the byte Write stores behind a
final name, sendPacket sends the encoding; on every other packet Write leaves the buffer. -/
theorem sendPacket_eq {E : Type} (d : Sent E) :
    sendPacket d = if d.packet.reach ≤ maxPacketSz then some d.packet.wire else none := by
  by_cases hfit : d.packet.reach ≤ maxPacketSz
  · obtain ⟨out, hrun, htake⟩ := DnsPacket.write_fitting hfit
    rw [if_pos hfit, sendPacket, hrun, Option.map_some, htake]
  · have hlen : zeroBuffer.length = maxPacketSz := List.length_replicate
    rw [if_neg hfit, sendPacket,
      d.packet.extent_write.undefined zeroBuffer 0 (Nat.zero_le _) (by omega), Option.map_none]

theorem sendPacket_iff {E : Type} (d : Sent E) :
    sendPacket d = some d.packet.wire ↔ d.packet.reach ≤ maxPacketSz := by
  rw [sendPacket_eq]
  split_ifs with hfit
  · exact iff_of_true rfl hfit
  · exact iff_of_false nofun hfit

theorem sendPacket_wire {E : Type} {d : Sent E} (h : d.packet.size < maxPacketSz) :
    sendPacket d = some d.packet.wire :=
  (sendPacket_iff d).mpr (Nat.le_trans d.packet.reach_le.2 h)

theorem readsAs_wire {p : DnsPacket} (h : WellFormed p) : ReadsAs p.wire p := by
  intro garbage stale
  have hyields := DnsPacket.yields_read garbage h [] stale p.wire.length (by simp)
  simpa using hyields

namespace SameBody
variable {p p' : DnsPacket}

theorem of_flags (p : DnsPacket) (id : UInt16) (hb3 hb4 : UInt8) :
    SameBody p { p with header := { p.header with id, hb3, hb4 } } :=
  ⟨rfl, rfl, rfl, rfl, rfl, rfl, rfl, rfl⟩

theorem sections (h : SameBody p p') :
    p'.questionList = p.questionList ∧ p'.records = p.records := by
  simp only [DnsPacket.questionList, DnsPacket.records, DnsPacket.answerList,
    DnsPacket.authorityList, DnsPacket.additionalList, h.questionCount, h.answerCount,
    h.authorityCount, h.additionalCount, h.questions, h.answers, h.authorities, h.additionals,
    and_self]

theorem size (h : SameBody p p') : p'.size = p.size := by
  rw [DnsPacket.size, DnsPacket.size, h.sections.1, h.sections.2]

theorem reach (h : SameBody p p') : p'.reach = p.reach := by
  rw [DnsPacket.reach, DnsPacket.reach, h.size, h.sections.2]

theorem wire (h : SameBody p p') : p'.wire.drop 4 = p.wire.drop 4 := by
  simp only [DnsPacket.wire, DnsHeader.wire, bytes16, h.sections.1, h.sections.2, h.questionCount,
    h.answerCount, h.authorityCount, h.additionalCount, List.cons_append, List.nil_append,
    List.drop_succ_cons, List.drop_zero]

theorem wellFormed (h : SameBody p p') (hp : WellFormed p) : WellFormed p' where
  counted := by
    obtain ⟨hq, ha, hau, had⟩ := hp.counted
    refine ⟨?_, ?_, ?_, ?_⟩
    · rw [h.questions, h.questionCount, hq]
    · rw [h.answers, h.answerCount, ha]
    · rw [h.authorities, h.authorityCount, hau]
    · rw [h.additionals, h.additionalCount, had]
  questions := by
    rw [h.questions]
    exact hp.questions
  records := by
    rw [h.answers, h.authorities, h.additionals]
    exact hp.records
  size := by
    rw [h.size]
    exact hp.size

end SameBody

def Event.packet {E : Type} : Event E → DnsPacket
  | .resolve packet _ _ _ _ _ => packet
  | .response packet _ _ => packet
  | .redirect packet _ _ _ => packet

/-- Nothing but a redirection changes more of a packet than its ID and flags. -/
theorem sent_sameBody {E : Type} [DecidableEq E] {s t : DnsServer E} {e : Event E}
    {sent : List (Sent E)} (h : s.step e = some (t, sent)) {a : Sent E} (ha : a ∈ sent)
    (hkind : a.kind ≠ .redirected) : SameBody e.packet a.packet := by
  cases e with
  | resolve packet endpoint ipv4 now draws fresh =>
    cases DnsServer.resolve_resolved h with
    | unconfigured h => cases ha
    | waiting h ht hc => cases ha
    | refused hin htidy hlen =>
      rw [List.mem_singleton.mp ha]
      exact .of_flags _ _ _ _
    | joined h ht hc hr => cases ha
    | rearmed h ht hr hsent =>
      rw [hsent] at ha
      obtain ⟨server, _, rfl⟩ := List.mem_map.mp ha
      exact .of_flags _ _ _ _
    | opened hnone hnew hpr hin hid hr hsent =>
      rw [hsent] at ha
      obtain ⟨server, _, rfl⟩ := List.mem_map.mp ha
      exact .of_flags _ _ _ _
  | response packet endpoint now =>
    cases DnsServer.response_responded (Option.some.inj h) with
    | dropped h => cases ha
    | relayed hsplit huse hid hhash hr =>
      obtain ⟨c, _, rfl⟩ := List.mem_map.mp ha
      exact .of_flags _ _ _ _
  | redirect packet endpoint ipv4 target =>
    cases h
    rw [List.mem_singleton.mp ha] at hkind
    exact absurd rfl hkind

/-- Whether such a datagram leaves as its bytes depends on the packet that came in only. -/
theorem sent_fits_iff {E : Type} [DecidableEq E] {s t : DnsServer E} {e : Event E}
    {sent : List (Sent E)} (h : s.step e = some (t, sent)) {a : Sent E} (ha : a ∈ sent)
    (hkind : a.kind ≠ .redirected) :
    sendPacket a = some a.packet.wire ↔ e.packet.reach ≤ maxPacketSz := by
  rw [sendPacket_iff, (sent_sameBody h ha hkind).reach]

/-- A reply goes out to every source it is relayed to or, when it does not fit without
compression, to none. -/
theorem replyTo_fits_iff {E : Type} (packet : DnsPacket) (source : PeerSource E) :
    sendPacket (replyTo packet source) = some (replyTo packet source).packet.wire ↔
      packet.reach ≤ maxPacketSz := by
  have hbody : SameBody packet (replyTo packet source).packet := .of_flags _ _ _ _
  rw [sendPacket_iff, hbody.reach]

/- The RDATA of the answer of Redirect to a question. A question for a name leaves the address
   zero, and Write makes the root of it. -/
def redirectedSize (q : DnsQuestion) : Nat :=
  if q.type = qtA then 4
  else if q.type = qtNS then 2
  else if q.type = qtCName then 2
  else if q.type = qtMX then 4
  else if q.type = qtAAAA then 16
  else 0

theorem redirectAnswer_rdataSize (target : IpAddress) (q : DnsQuestion) :
    (redirectAnswer target q).rdataSize = redirectedSize q := by
  have htype : (redirectAnswer target q).type = q.type := by
    rw [(redirectAnswer_question target q).1]
  by_cases ha : q.type = qtA
  · rw [DnsRecord.rdataSize, htype, if_pos ha, redirectedSize, if_pos ha]
  by_cases haaaa : q.type = qtAAAA
  · simp only [DnsRecord.rdataSize, htype, redirectedSize, haaaa]
    rfl
  have hzero : (redirectAnswer target q).address = .zero := by
    rw [redirectAnswer, if_neg ha, if_neg haaaa]
    rfl
  simp only [DnsRecord.rdataSize, htype, hzero, redirectedSize, if_neg ha, if_neg haaaa]
  rfl

/- The uncompressed size of what Redirect makes of a request: each question a second time as the
   owner of its answer, with TTL, length and RDATA behind it. -/
theorem size_redirected {packet : DnsPacket} (hc : packet.Counted)
    (hq : packet.header.questionCount ≠ 0) (target : IpAddress) :
    (updateRedirectResponse packet target).size =
      DnsHeader.headerSize + (packet.questionList.map DnsQuestion.size).sum +
        (packet.questionList.map fun q => q.size + 6 + redirectedSize q).sum +
        ((packet.authorityList ++ packet.additionalList).map DnsRecord.size).sum := by
  have hanswer : DnsRecord.size ∘ redirectAnswer target =
      fun q => q.size + 6 + redirectedSize q := by
    funext q
    rw [Function.comp_apply, DnsRecord.size, DnsRecord.fixedSize, redirectAnswer_rdataSize,
      (redirectAnswer_question target q).1]
  have hreply := redirected_update hc hq target
  rw [DnsPacket.size, DnsPacket.records, answerList_redirected hc hq, hreply.questions,
    hreply.authorities, hreply.additionals, List.map_append, List.map_map, hanswer,
    List.sum_append, ← Nat.add_assoc]

/-- The reply of Redirect leaves as its encoding if this fits the buffer without compression, and
otherwise Write leaves the buffer: the size is fixed by the request, and one byte more is needed
behind a name. -/
theorem redirect_bytes {E : Type} (packet : DnsPacket) (hc : packet.Counted)
    (hq : 0 < packet.header.questionCount.toNat) (endpoint : E) (ipv4 : Bool) (target : IpAddress) :
    ∃ reply, DnsServer.redirect packet endpoint ipv4 target = [reply] ∧
      sendPacket reply =
        if DnsHeader.headerSize + (packet.questionList.map DnsQuestion.size).sum +
          (packet.questionList.map fun q => q.size + 6 + redirectedSize q).sum +
          ((packet.authorityList ++ packet.additionalList).map DnsRecord.size).sum +
          lastOverhang reply.packet.records ≤ maxPacketSz
        then some reply.packet.wire else none := by
  refine ⟨_, rfl, ?_⟩
  rw [sendPacket_eq, DnsPacket.reach, size_redirected hc (questionCount_ne hq) target]

/- The second answer is for a name server, with the byte behind it. -/
theorem redirect_bytes_mixedRequest : mixedRequest.Counted ∧
    ∃ reply, DnsServer.redirect mixedRequest (1 : Nat) true ⟨Vector.replicate 16 0⟩ = [reply] ∧
      lastOverhang reply.packet.records = 1 ∧ sendPacket reply = some reply.packet.wire := by
  have hc : mixedRequest.Counted := ⟨rfl, rfl, rfl, rfl⟩
  obtain ⟨reply, hreply, hbytes⟩ :=
    redirect_bytes mixedRequest hc (by decide) 1 true ⟨Vector.replicate 16 0⟩
  have hlast : lastOverhang reply.packet.records = 1 := by
    rw [List.singleton_inj.mp hreply.symm]
    decide
  rw [hlast, if_pos (by decide)] at hbytes
  exact ⟨hc, reply, hreply, hlast, hbytes⟩

/- A request with k questions for the address of the root. -/
def rootQuestions (k : Nat) : DnsPacket where
  header := ⟨7, 1, 0, UInt16.ofNat k, 0, 0, 0⟩
  questions := List.replicate k ⟨CString.empty, qtA, qtcIn⟩
  answers := []
  authorities := []
  additionals := []

theorem counted_rootQuestions {k : Nat} (hk : k < 2 ^ 16) : (rootQuestions k).Counted := by
  refine ⟨?_, rfl, rfl, rfl⟩
  rw [rootQuestions, List.length_replicate, UInt16.toNat_ofNat_of_lt' hk]

/- 6 bytes for the question and 16 for its answer. -/
theorem reach_rootQuestions {k : Nat} (hk : k < 2 ^ 16)
    (hq : 0 < (rootQuestions k).header.questionCount.toNat) (target : IpAddress) :
    (updateRedirectResponse (rootQuestions k) target).reach = DnsHeader.headerSize + k * 22 := by
  have hc := counted_rootQuestions hk
  have hquestions : (rootQuestions k).questionList =
      List.replicate k ⟨CString.empty, qtA, qtcIn⟩ := hc.questionList
  have hreplied := redirected_update hc (questionCount_ne hq) target
  have hrecords : (updateRedirectResponse (rootQuestions k) target).records =
      List.replicate k (redirectAnswer target ⟨CString.empty, qtA, qtcIn⟩) := by
    rw [DnsPacket.records, hreplied.authorities, hreplied.additionals,
      answerList_redirected hc (questionCount_ne hq), hquestions, List.map_replicate]
    exact List.append_nil _
  have hlast : lastOverhang (updateRedirectResponse (rootQuestions k) target).records = 0 := by
    apply lastOverhang_eq_zero
    intro r hr
    rw [hrecords] at hr
    rw [List.eq_of_mem_replicate hr]
    exact (by decide : ¬ (qtA = qtNS ∨ qtA = qtCName ∨ qtA = qtMX))
  have hsize : ((rootQuestions k).questionList.map DnsQuestion.size).sum = k * 6 := by
    rw [hquestions, List.map_replicate, List.sum_replicate_nat]
    rfl
  have hanswers : ((rootQuestions k).questionList.map
      fun q => q.size + 6 + redirectedSize q).sum = k * 16 := by
    rw [hquestions, List.map_replicate, List.sum_replicate_nat]
    rfl
  rw [DnsPacket.reach, hlast, size_redirected hc (questionCount_ne hq), hsize, hanswers]
  simp only [rootQuestions, DnsPacket.authorityList, DnsPacket.additionalList, List.take_nil,
    List.append_nil, List.map_nil, List.sum_nil]
  omega

/-- Of such a request, 5 bytes a question, the reply leaves for at most 102 questions; with more
of them Write leaves its buffer. -/
theorem redirect_rootQuestions {E : Type} {k : Nat} (hpos : 0 < k) (hk : k < 2 ^ 16)
    (endpoint : E) (ipv4 : Bool) (target : IpAddress) :
    ∃ reply, DnsServer.redirect (rootQuestions k) endpoint ipv4 target = [reply] ∧
      sendPacket reply = if k ≤ 102 then some reply.packet.wire else none := by
  have hq : 0 < (rootQuestions k).header.questionCount.toNat := by
    rwa [rootQuestions, UInt16.toNat_ofNat_of_lt' hk]
  refine ⟨_, rfl, ?_⟩
  rw [sendPacket_eq, reach_rootQuestions hk hq]
  refine if_congr ?_ rfl rfl
  simp only [DnsHeader.headerSize, maxPacketSz, ednsPktSz, maxDName, rrFixedSz]
  omega

/- The packet that reaches a handler. -/
def Datagram.handed (d : Datagram) : Option DnsPacket :=
  match route d with
  | some (.request packet) => some packet
  | some (.response packet) => some packet
  | _ => none

theorem dotted_namedQuery : Dotted ⟨[101, 120, 97, 109, 112, 108, 101], by decide⟩ :=
  ⟨[[101, 120, 97, 109, 112, 108, 101]], by decide⟩

theorem wellFormed_namedPacket : WellFormed namedPacket where
  counted := ⟨rfl, rfl, rfl, rfl⟩
  questions := by
    rw [namedPacket, List.forall_mem_singleton]
    exact dotted_namedQuery
  records := fun r hr => by cases hr
  size := by decide

end DnsWrapper.Dns
