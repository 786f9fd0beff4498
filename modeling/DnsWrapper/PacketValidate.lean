import DnsWrapper.DnsPacket

/-! When Validate accepts a packet, compared with what the header and section checks
are for. The early return in Validate has the wrong sign: a good header skips the
sections, and a bad one is forgiven as soon as one section element is good. -/
namespace DnsWrapper.Dns
open NetCommon

namespace DnsPacket
variable {α : Type}

theorem validateEach_pass {v : α → Code} (xs : List α) (code : Code)
    (h : ∀ x ∈ xs, v x = eNoError) :
    validateEach v code xs = .ok (if xs = [] then code else eNoError) := by
  induction xs generalizing code with
  | nil => rfl
  | cons x xs ih =>
    have hx : v x = eNoError := h x List.mem_cons_self
    have hxs := ih (v x) fun y hy => h y (List.mem_cons_of_mem x hy)
    rw [validateEach, if_neg (by simp [hx]), hxs, hx]
    simp

theorem validateEach_stop {v : α → Code} (xs : List α) (code : Code)
    (h : ¬ ∀ x ∈ xs, v x = eNoError) :
    ∃ c, c ≠ eNoError ∧ validateEach v code xs = .error c := by
  induction xs generalizing code with
  | nil => simp at h
  | cons x xs ih =>
    by_cases hx : v x = eNoError
    · have hxs : ¬ ∀ y ∈ xs, v y = eNoError := by
        intro hall
        apply h
        intro y hy
        cases hy with
        | head => exact hx
        | tail _ hy => exact hall y hy
      obtain ⟨c, hc, he⟩ := ih (v x) hxs
      exact ⟨c, hc, by rw [validateEach, if_neg (by simp [hx]), he]⟩
    · exact ⟨v x, hx, by rw [validateEach, if_pos hx]⟩

/-- Every question and record passes its own Validate. -/
structure SectionsPass (p : DnsPacket) (pt : PacketType) : Prop where
  questions : ∀ q ∈ p.questions, q.validate pt = eNoError
  answers : ∀ r ∈ p.answers, r.validate pt = eNoError
  authorities : ∀ r ∈ p.authorities, r.validate pt = eNoError
  additionals : ∀ r ∈ p.additionals, r.validate pt = eNoError

def optCount (p : DnsPacket) : Nat := p.additionals.countP fun r => r.type = qtOpt

def SectionsOk (p : DnsPacket) (pt : PacketType) : Prop := p.SectionsPass pt ∧ p.optCount ≤ 1

def Empty (p : DnsPacket) : Prop :=
  p.questions = [] ∧ p.answers = [] ∧ p.authorities = [] ∧ p.additionals = []

/- The OPCODE field of RFC 1035: the four bits below QR. -/
def opcode (h : DnsHeader) : UInt8 := (h.hb3 >>> 3) &&& 0b1111

/-- The header of an acceptable request. -/
structure RequestHeader (h : DnsHeader) : Prop where
  qr : h.getQueryResponse = false
  opcode : opcode h = 0
  tc : h.getTruncatedMessage = false
  rcode : h.getResponseCode = 0
  questionCount : 0 < h.questionCount
  answerCount : h.answerCount = 0
  authorityCount : h.authorityCount = 0

/- What Validate is meant to accept. -/
def RequestOk (p : DnsPacket) : Prop :=
  RequestHeader p.header ∧ p.SectionsOk .incomingRequest

def ResponseOk (p : DnsPacket) : Prop :=
  p.header.getQueryResponse = true ∧
    (∀ r ∈ p.answers ++ p.authorities ++ p.additionals, r.validate .incomingResponse = eNoError) ∧
    p.optCount ≤ 1

/-- Header and sections are both acceptable, or both are not, or there is no section
element at all. -/
def RequestAgrees (p : DnsPacket) : Prop :=
  (p.SectionsOk .incomingRequest ∧ (RequestHeader p.header ∨ p.Empty)) ∨
    (¬ p.SectionsOk .incomingRequest ∧ p.header.validate .incomingRequest ≠ eNoError)

def ResponseAgrees (p : DnsPacket) : Prop :=
  (p.SectionsOk .incomingResponse ∧ (p.header.getQueryResponse = true ∨ p.Empty)) ∨
    (¬ p.SectionsOk .incomingResponse ∧ p.header.getQueryResponse = false)

theorem validateSections_pass {p : DnsPacket} {pt : PacketType} (hc : p.Counted)
    (h : p.SectionsPass pt) (code : Code) :
    ∃ c, p.validateSections pt code = .ok c ∧ (p.Empty → c = code) ∧
      (¬ p.Empty → c = eNoError) := by
  rw [validateSections, hc.questionList, hc.answerList, hc.authorityList, hc.additionalList]
  rw [validateEach_pass _ _ h.questions]
  simp only [bind, Except.bind]
  rw [validateEach_pass _ _ h.answers]
  simp only
  rw [validateEach_pass _ _ h.authorities]
  simp only
  rw [validateEach_pass _ _ h.additionals]
  refine ⟨_, rfl, ?_, ?_⟩
  · rintro ⟨hq, ha, hau, had⟩
    simp [hq, ha, hau, had]
  · intro hne
    by_cases had : p.additionals = []
    · by_cases hau : p.authorities = []
      · by_cases ha : p.answers = []
        · have hq : p.questions ≠ [] := fun hq => hne ⟨hq, ha, hau, had⟩
          simp [had, hau, ha, hq]
        · simp [had, hau, ha]
      · simp [had, hau]
    · simp [had]

theorem validateSections_stop {p : DnsPacket} {pt : PacketType} (hc : p.Counted)
    (h : ¬ p.SectionsPass pt) (code : Code) :
    ∃ c, c ≠ eNoError ∧ p.validateSections pt code = .error c := by
  rw [validateSections, hc.questionList, hc.answerList, hc.authorityList, hc.additionalList]
  by_cases hq : ∀ q ∈ p.questions, q.validate pt = eNoError
  · rw [validateEach_pass _ _ hq]
    simp only [bind, Except.bind]
    by_cases ha : ∀ r ∈ p.answers, r.validate pt = eNoError
    · rw [validateEach_pass _ _ ha]
      simp only
      by_cases hau : ∀ r ∈ p.authorities, r.validate pt = eNoError
      · rw [validateEach_pass _ _ hau]
        have had : ¬ ∀ r ∈ p.additionals, r.validate pt = eNoError :=
          fun had => h ⟨hq, ha, hau, had⟩
        exact validateEach_stop _ _ had
      · obtain ⟨c, hc, he⟩ := validateEach_stop _ _ hau
        exact ⟨c, hc, by rw [he]⟩
    · obtain ⟨c, hc, he⟩ := validateEach_stop _ _ ha
      exact ⟨c, hc, by rw [he]⟩
  · obtain ⟨c, hc, he⟩ := validateEach_stop _ code hq
    exact ⟨c, hc, by rw [he]; rfl⟩

/-- What Validate really accepts. -/
theorem validate_eq_noError_iff {p : DnsPacket} {pt : PacketType} (hc : p.Counted)
    (hpt : pt = .incomingRequest ∨ pt = .incomingResponse) :
    p.validate pt = eNoError ↔
      p.header.validate pt = eNoError ∨ (p.SectionsOk pt ∧ ¬ p.Empty) := by
  have hopt : p.psuedoHeaderCount = p.optCount := by
    rw [psuedoHeaderCount, optCount, hc.additionalList]
  by_cases hh : p.header.validate pt = eNoError
  · simp [validate, hh]
  · simp only [validate, hh, if_false, if_pos hpt, hopt, false_or]
    by_cases hs : p.SectionsPass pt
    · obtain ⟨c, he, hempty, hfull⟩ := validateSections_pass hc hs (p.header.validate pt)
      rw [he]
      by_cases ho : p.optCount > 1
      · have hno : ¬ p.SectionsOk pt := fun h => by have := h.2; omega
        simp [ho, hno, eFormErr, eNoError]
      · have hok : p.SectionsOk pt := ⟨hs, by omega⟩
        by_cases hem : p.Empty
        · simp [ho, hem, hempty hem, hh]
        · simp [ho, hem, hfull hem, hok]
    · obtain ⟨c, hne, he⟩ := validateSections_stop hc hs (p.header.validate pt)
      have hno : ¬ p.SectionsOk pt := fun h => hs h.1
      simp [he, hne, hno]

theorem sectionsPass_of_empty {p : DnsPacket} (pt : PacketType) (h : p.Empty) :
    p.SectionsOk pt := by
  obtain ⟨hq, ha, hau, had⟩ := h
  exact ⟨⟨by simp [hq], by simp [ha], by simp [hau], by simp [had]⟩, by simp [optCount, had]⟩

theorem getOpCode_of_opcode {h : DnsHeader} (ho : opcode h = 0) : h.getOpCode = 0 := by
  have hbits : ∀ y : BitVec 8, (y >>> 3) &&& 15 = 0 → (y >>> 4) &&& 7 = 0 := by decide
  have hy := hbits h.hb3.toBitVec (by simpa [opcode] using congrArg UInt8.toBitVec ho)
  apply UInt8.eq_of_toBitVec_eq
  simpa [DnsHeader.getOpCode] using hy

theorem headerValidate_of_requestHeader {h : DnsHeader} (hr : RequestHeader h) :
    h.validate .incomingRequest = eNoError := by
  have hq : h.questionCount ≠ 0 := by
    intro he
    have := hr.questionCount
    simp [he] at this
  simp [DnsHeader.validate, hr.qr, getOpCode_of_opcode hr.opcode, sQuery, hr.tc, hr.rcode, hq,
    hr.answerCount, hr.authorityCount]

/- A header accepted for a request announces a question. -/
theorem not_empty_of_headerValidate {p : DnsPacket} (hc : p.Counted)
    (h : p.header.validate .incomingRequest = eNoError) : ¬ p.Empty := by
  rintro ⟨hq, _⟩
  have hcount : p.header.questionCount = 0 := by
    apply UInt16.toNat_inj.mp
    simpa [hq] using hc.questions.symm
  simp only [DnsHeader.validate, hcount] at h
  split_ifs at h <;> simp_all [eFormErr, eNotImp, eNoError]

theorem headerValidate_response (h : DnsHeader) :
    h.validate .incomingResponse = eNoError ↔ h.getQueryResponse = true := by
  cases hq : h.getQueryResponse <;> simp [DnsHeader.validate, hq, eFormErr, eNoError]

/- A question always passes in a response, so only the records count. -/
theorem responseOk_iff (p : DnsPacket) :
    p.ResponseOk ↔ p.header.getQueryResponse = true ∧ p.SectionsOk .incomingResponse := by
  have hq : ∀ q ∈ p.questions, q.validate .incomingResponse = eNoError := by
    intro q _
    simp [DnsQuestion.validate]
  constructor
  · rintro ⟨hqr, hr, ho⟩
    refine ⟨hqr, ⟨hq, ?_, ?_, ?_⟩, ho⟩
    · exact fun r hm => hr r (by simp [hm])
    · exact fun r hm => hr r (by simp [hm])
    · exact fun r hm => hr r (by simp [hm])
  · rintro ⟨hqr, ⟨_, ha, hau, had⟩, ho⟩
    refine ⟨hqr, ?_, ho⟩
    intro r hm
    simp only [List.mem_append] at hm
    rcases hm with (hm | hm) | hm
    · exact ha r hm
    · exact hau r hm
    · exact had r hm

/-- For a packet that Read accepted, Validate answers as intended exactly when header
and sections are both acceptable, or both not, or the packet holds no section element. -/
theorem validate_agrees_iff {garbage : Nat → CString} {buf : List UInt8} {n pos : Nat}
    {p : DnsPacket} (h : (read garbage).run buf n 0 = .ok (p, pos)) :
    ((p.validate .incomingRequest = eNoError ↔ p.RequestOk) ↔ p.RequestAgrees) ∧
    ((p.validate .incomingResponse = eNoError ↔ p.ResponseOk) ↔ p.ResponseAgrees) := by
  have hc := counted_of_read h
  constructor
  · have hhead := headerValidate_of_requestHeader (h := p.header)
    have hfull := not_empty_of_headerValidate hc
    have hempty := sectionsPass_of_empty (p := p) .incomingRequest
    rw [validate_eq_noError_iff hc (.inl rfl), RequestOk, RequestAgrees]
    tauto
  · have hempty := sectionsPass_of_empty (p := p) .incomingResponse
    have hqr : p.header.getQueryResponse = false ↔ ¬ p.header.getQueryResponse = true := by simp
    rw [validate_eq_noError_iff hc (.inr rfl), headerValidate_response, responseOk_iff,
      ResponseAgrees, hqr]
    tauto

/- A query for a. IN A, with TC set in the header. -/
def truncatedRequest : List UInt8 :=
  [0x12, 0x34, 0x02, 0x00, 0, 1, 0, 0, 0, 0, 0, 0, 1, 97, 0, 0, 1, 0, 1]

def truncatedPacket : DnsPacket where
  header := ⟨0x1234, 0x02, 0x00, 1, 0, 0, 0⟩
  questions := [⟨shortName, 1, 1⟩]
  answers := []
  authorities := []
  additionals := []

theorem read_truncatedRequest :
    (read fun _ => CString.empty).run truncatedRequest 19 0 = .ok (truncatedPacket, 19) := by
  rfl

/-- The request is accepted although its header is not that of a query. -/
theorem truncated_request_accepted :
    (read fun _ => CString.empty).run truncatedRequest 19 0 = .ok (truncatedPacket, 19) ∧
      ¬ (truncatedPacket.validate .incomingRequest = eNoError ↔ truncatedPacket.RequestOk) := by
  refine ⟨read_truncatedRequest, ?_⟩
  intro h
  have hok := h.mp (by decide)
  exact absurd hok.1.tc (by decide)

theorem validate_agrees_on_truncated :
    (read fun _ => CString.empty).run truncatedRequest 19 0 = .ok (truncatedPacket, 19) ∧
      ((truncatedPacket.validate .incomingResponse = eNoError ↔ truncatedPacket.ResponseOk) ↔
        truncatedPacket.ResponseAgrees) :=
  ⟨read_truncatedRequest, (validate_agrees_iff read_truncatedRequest).2⟩

end DnsPacket
end DnsWrapper.Dns
