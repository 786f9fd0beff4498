import DnsWrapper.LabelReader

/-! Which bytes of its buffer Read looks at. Every reader checks its own byte count
except VREAD_U32, which asks for two bytes and takes four: Read leaves the datagram
exactly when a 32-bit field it reaches is cut after its second or third byte. -/
namespace DnsWrapper.Dns
open ByteReader ByteWord NetCommon
variable {α β : Type}

/-- What remains of a run when only its 32-bit fields are kept: where these start, and
where the run goes on. -/
structure Scan where
  words : List Nat
  next : Option Nat

namespace Scan

def stopped : Scan := ⟨[], none⟩
def arrived (p : Nat) : Scan := ⟨[], some p⟩

/- A 32-bit field at p. -/
def word (p : Nat) (k : Nat → Scan) : Scan := ⟨p :: (k (p + 4)).words, (k (p + 4)).next⟩

/- Fields without a 32-bit one, read from the datagram d. -/
def along (r : Reader Code α) (d : List UInt8) (p : Nat) (k : α → Nat → Scan) : Scan :=
  match r.run d d.length p with
  | .ok (a, q) => k a q
  | .error _ => stopped

def andThen (s : Scan) (k : Nat → Scan) : Scan :=
  match s.next with
  | none => s
  | some q => ⟨s.words ++ (k q).words, (k q).next⟩

def address (rt : DnsRecordType) (type len : UInt16) (d : List UInt8) (p : Nat) : Scan :=
  if type = qtA then word p arrived
  else if type = qtNS then along (readLabel CString.empty) d p fun _ => arrived
  else if type = qtCName then along (readLabel CString.empty) d p fun _ => arrived
  else if type = qtMX then
    along vreadU16 d p fun _ q => along (readLabel CString.empty) d q fun _ => arrived
  else if type = qtAAAA then word p fun q => word q fun q => word q fun q => word q arrived
  else if type = qtOpt then
    if rt ≠ .additional then stopped
    else along (each (fun _ => vreadByte) 0 len.toNat) d p fun _ => arrived
  else stopped

def record (rt : DnsRecordType) (d : List UInt8) (p : Nat) : Scan :=
  along (DnsQuestion.read CString.empty) d p fun q p => word p fun p =>
    along vreadU16 d p fun len p => address rt q.type len d p

def records (rt : DnsRecordType) (d : List UInt8) : Nat → Nat → Scan
  | 0, p => arrived p
  | k + 1, p => (record rt d p).andThen (records rt d k)

def message (d : List UInt8) : Scan :=
  along DnsHeader.read d 0 fun h p =>
    along (each (fun _ => DnsQuestion.read CString.empty) 0 h.questionCount.toNat) d p fun _ p =>
      (records .answer d h.answerCount.toNat p).andThen fun p =>
        (records .authority d h.authorityCount.toNat p).andThen
          (records .additional d h.additionalCount.toNat)

end Scan

/-- The 32-bit field at w has two or three of its bytes among the first n. -/
def Cut (n w : Nat) : Prop := w + 2 ≤ n ∧ n < w + 4

/-- The 32-bit fields of the datagram d: the TTL of each record, the address of an A
record and the four words of an AAAA record, as far as the records can be followed. -/
def wordStarts (d : List UInt8) : List Nat := (Scan.message d).words

/- Nothing is cut, and the run cannot go on inside the datagram. -/
def Quiet (n : Nat) (s : Scan) : Prop := (∀ w ∈ s.words, ¬ Cut n w) ∧ ∀ q, s.next = some q → n < q

/- The scan tells how the run ends. -/
def Tracks (n : Nat) (s : Scan) : Except (Stop Code) (α × Nat) → Prop
  | .ok (_, q) => q ≤ n ∧ s.next = some q ∧ ∀ w ∈ s.words, ¬ Cut n w
  | .error (.failed _) => Quiet n s
  | .error .outOfRange => ∃ w ∈ s.words, Cut n w
  | .error .outOfFuel => False

theorem quiet_stopped (n : Nat) : Quiet n Scan.stopped := by
  constructor
  · intro w hw
    cases hw
  · intro q hq
    cases hq

theorem quiet_arrived {n p : Nat} (h : n < p) : Quiet n (Scan.arrived p) := by
  constructor
  · intro w hw
    cases hw
  · intro q hq
    cases hq
    exact h

theorem quiet_word {n p : Nat} {k : Nat → Scan} (h : n < p + 2) (hk : Quiet n (k (p + 4))) :
    Quiet n (Scan.word p k) := by
  refine ⟨?_, hk.2⟩
  intro w hw
  cases hw with
  | head =>
    rintro ⟨h₁, _⟩
    omega
  | tail _ hw => exact hk.1 w hw

theorem quiet_along {r : Reader Code α} {d : List UInt8} {p : Nat} {k : α → Nat → Scan}
    {e : Stop Code} (h : r.run d d.length p = .error e) : Quiet d.length (Scan.along r d p k) := by
  rw [Scan.along, h]
  exact quiet_stopped _

theorem quiet_andThen {n : Nat} {s : Scan} {k : Nat → Scan} (hs : Quiet n s)
    (hk : ∀ q, n < q → Quiet n (k q)) : Quiet n (s.andThen k) := by
  cases hn : s.next with
  | none =>
    simp only [Scan.andThen, hn]
    exact hs
  | some q =>
    have hq := hk q (hs.2 q hn)
    simp only [Scan.andThen, hn]
    exact ⟨List.forall_mem_append.mpr ⟨hs.1, hq.1⟩, hq.2⟩

/- Words that are not cut change nothing. -/
theorem tracks_prepend {n : Nat} {s : Scan} {x : Except (Stop Code) (α × Nat)} (ws : List Nat)
    (hws : ∀ w ∈ ws, ¬ Cut n w) (h : Tracks n s x) : Tracks n ⟨ws ++ s.words, s.next⟩ x := by
  cases x with
  | ok v => exact ⟨h.1, h.2.1, List.forall_mem_append.mpr ⟨hws, h.2.2⟩⟩
  | error e =>
    cases e with
    | outOfRange =>
      obtain ⟨w, hw, hc⟩ := h
      exact ⟨w, List.mem_append_right ws hw, hc⟩
    | outOfFuel => exact h
    | failed c => exact ⟨List.forall_mem_append.mpr ⟨hws, h.1⟩, h.2⟩

theorem tracks_pure {n p : Nat} (d : List UInt8) (a : α) (h : p ≤ n) :
    Tracks n (Scan.arrived p) ((pure a : Reader Code α).run d n p) := by
  refine ⟨h, rfl, ?_⟩
  intro w hw
  cases hw

theorem tracks_fail (n : Nat) (d : List UInt8) (p : Nat) (e : Code) :
    Tracks n Scan.stopped ((fail e : Reader Code α).run d n p) := quiet_stopped n

theorem tracks_along {r : Reader Code α} {f : α → Reader Code β} {d : List UInt8} {p : Nat}
    {k : α → Nat → Scan} (hr : Inside d.length (r.run d d.length p))
    (hf : ∀ a q, q ≤ d.length → Tracks d.length (k a q) ((f a).run d d.length q)) :
    Tracks d.length (Scan.along r d p k) ((r >>= f).run d d.length p) := by
  cases he : r.run d d.length p with
  | error e =>
    rw [he] at hr
    obtain ⟨c, rfl⟩ := hr
    rw [bind_of_error he]
    exact quiet_along he
  | ok v =>
    obtain ⟨a, q⟩ := v
    rw [he] at hr
    rw [bind_of_ok he, Scan.along, he]
    exact hf a q hr

theorem tracks_word {f : UInt32 → Reader Code β} {d : List UInt8} {p : Nat} {k : Nat → Scan}
    (hf : ∀ v q, q ≤ d.length → Tracks d.length (k q) ((f v).run d d.length q))
    (hk : ∀ q, d.length < q → Quiet d.length (k q)) :
    Tracks d.length (Scan.word p k) ((vreadU32 >>= f).run d d.length p) := by
  by_cases h₄ : p + 4 ≤ d.length
  · have he : vreadU32.run d d.length p =
        .ok (join32 d[p] d[p + 1] d[p + 2] d[p + 3], p + 4) := by
      rw [vreadU32, vread_ok _ _ (by omega), readU32_ok d.length (by omega)]
    rw [bind_of_ok he]
    refine tracks_prepend [p] ?_ (hf _ (p + 4) h₄)
    intro w hw
    rw [List.mem_singleton] at hw
    rintro ⟨_, h⟩
    omega
  · by_cases h₂ : p + 2 ≤ d.length
    · have he : vreadU32.run d d.length p = .error .outOfRange := by
        rw [vreadU32, vread_ok _ _ h₂, readU32_outOfRange d.length (by omega)]
      rw [bind_of_error he]
      exact ⟨p, List.mem_cons_self, h₂, by omega⟩
    · have he : vreadU32.run d d.length p = .error (.failed eFormErr) :=
        vread_fail _ _ (by omega)
      rw [bind_of_error he]
      exact quiet_word (by omega) (hk (p + 4) (by omega))

theorem tracks_andThen {r : Reader Code α} {f : α → Reader Code β} {d : List UInt8} {p : Nat}
    {s : Scan} {k : Nat → Scan} (hr : Tracks d.length s (r.run d d.length p))
    (hf : ∀ a q, q ≤ d.length → Tracks d.length (k q) ((f a).run d d.length q))
    (hk : ∀ q, d.length < q → Quiet d.length (k q)) :
    Tracks d.length (s.andThen k) ((r >>= f).run d d.length p) := by
  cases he : r.run d d.length p with
  | error e =>
    rw [he] at hr
    rw [bind_of_error he]
    cases e with
    | failed c => exact quiet_andThen hr hk
    | outOfFuel => exact hr
    | outOfRange =>
      obtain ⟨w, hw, hc⟩ := hr
      refine ⟨w, ?_, hc⟩
      cases hn : s.next with
      | none => simpa [Scan.andThen, hn] using hw
      | some q => simp [Scan.andThen, hn, hw]
  | ok v =>
    obtain ⟨a, q⟩ := v
    rw [he] at hr
    obtain ⟨hq, hn, hs⟩ := hr
    rw [bind_of_ok he]
    simp only [Scan.andThen, hn]
    exact tracks_prepend s.words hs (hf a q hq)

theorem tracks_map {r : Reader Code α} {d : List UInt8} {p n : Nat} {s : Scan} (g : α → β)
    (hr : Tracks n s (r.run d n p)) :
    Tracks n s ((do let a ← r; pure (g a) : Reader Code β).run d n p) := by
  cases he : r.run d n p with
  | error e =>
    rw [he] at hr
    rw [bind_of_error he]
    cases e with
    | outOfRange => exact hr
    | outOfFuel => exact hr
    | failed c => exact hr
  | ok v =>
    obtain ⟨a, q⟩ := v
    rw [he] at hr
    rw [bind_of_ok he]
    exact hr

/- Two readers that move the cursor alike and fail alike. -/
def SameEnd (r s : Reader Code α) : Prop :=
  ∀ buf n p, (r.run buf n p).map Prod.snd = (s.run buf n p).map Prod.snd

theorem sameEnd_refl (r : Reader Code α) : SameEnd r r := by
  intro buf n p
  rfl

theorem sameEnd_bind {r s : Reader Code α} {f g : α → Reader Code β} (hr : SameEnd r s)
    (hf : ∀ a b, SameEnd (f a) (g b)) : SameEnd (r >>= f) (s >>= g) := by
  intro buf n p
  have h := hr buf n p
  cases he : r.run buf n p with
  | error e =>
    cases he' : s.run buf n p with
    | error e' =>
      rw [bind_of_error he, bind_of_error he']
      rw [he, he'] at h
      cases h
      rfl
    | ok v =>
      rw [he, he'] at h
      cases h
  | ok v =>
    cases he' : s.run buf n p with
    | error e' =>
      rw [he, he'] at h
      cases h
    | ok v' =>
      obtain ⟨a, q⟩ := v
      obtain ⟨a', q'⟩ := v'
      rw [he, he'] at h
      cases h
      rw [bind_of_ok he, bind_of_ok he']
      exact hf a a' buf n q

theorem sameEnd_each {r s : Nat → Reader Code α} (h : ∀ i, SameEnd (r i) (s i)) (i k : Nat) :
    SameEnd (each r i k) (each s i k) := by
  induction k generalizing i with
  | zero => exact sameEnd_refl _
  | succ k ih =>
    refine sameEnd_bind (h i) fun a b => sameEnd_bind (ih (i + 1)) fun as bs => ?_
    intro buf n p
    rfl

theorem sameEnd_readLabel (s t : CString) : SameEnd (readLabel s) (readLabel t) := by
  intro buf n p
  rw [readLabel, readLabel, bind_apply, bind_apply]
  cases vreadU8.run buf n p with
  | error e => rfl
  | ok v =>
    obtain ⟨c, q⟩ := v
    by_cases hc : c = 0
    · simp only [if_pos hc]
    · simp only [if_neg hc, bind_apply]
      cases (nominal : Reader Code Nat).run buf n q with
      | error e => rfl
      | ok v =>
        obtain ⟨size, q⟩ := v
        simp only
        cases (readLabelLoop (labelFuel size) c ⟨0, [], 0⟩).run buf n q with
        | error e => rfl
        | ok v =>
          obtain ⟨st, q⟩ := v
          by_cases hj : st.jumps = maxJumps
          · simp only [if_pos hj]
          · simp only [if_neg hj]
            by_cases hres : st.resume > 0
            · simp only [if_pos hres]
              rfl
            · simp only [if_neg hres]
              rfl

theorem sameEnd_question (s t : CString) : SameEnd (DnsQuestion.read s) (DnsQuestion.read t) := by
  refine sameEnd_bind (sameEnd_readLabel s t) fun a b => ?_
  intro buf n p
  rw [bind_apply, bind_apply]
  cases vreadU16.run buf n p with
  | error e => rfl
  | ok v =>
    obtain ⟨type, q⟩ := v
    simp only [bind_apply]
    cases vreadU16.run buf n q with
    | error e => rfl
    | ok v => rfl

theorem along_congr {r s : Reader Code α} (h : SameEnd r s) (d : List UInt8) (p : Nat)
    (k : Nat → Scan) : Scan.along r d p (fun _ => k) = Scan.along s d p fun _ => k := by
  have he := h d d.length p
  unfold Scan.along
  cases hr : r.run d d.length p with
  | error e =>
    cases hs : s.run d d.length p with
    | error e' => rfl
    | ok v =>
      rw [hr, hs] at he
      cases he
  | ok v =>
    cases hs : s.run d d.length p with
    | error e' =>
      rw [hr, hs] at he
      cases he
    | ok v' =>
      obtain ⟨a, q⟩ := v
      obtain ⟨a', q'⟩ := v'
      rw [hr, hs] at he
      cases he
      rfl

theorem readLabel_beyond {d : List UInt8} {p : Nat} (old : CString) (h : d.length < p) :
    (readLabel old).run d d.length p = .error (.failed eFormErr) := by
  have he : vreadU8.run d d.length p = .error (.failed eFormErr) := vread_fail _ _ (by omega)
  rw [readLabel, bind_of_error he]

theorem quiet_record (rt : DnsRecordType) {d : List UInt8} {p : Nat} (h : d.length < p) :
    Quiet d.length (Scan.record rt d p) := by
  have he : (DnsQuestion.read CString.empty).run d d.length p = .error (.failed eFormErr) := by
    rw [DnsQuestion.read, bind_of_error (readLabel_beyond _ h)]
  exact quiet_along he

theorem quiet_records (rt : DnsRecordType) (d : List UInt8) (k : Nat) {p : Nat}
    (h : d.length < p) : Quiet d.length (Scan.records rt d k p) := by
  induction k generalizing p with
  | zero => exact quiet_arrived h
  | succ k ih => exact quiet_andThen (quiet_record rt h) fun q hq => ih hq

theorem tracks_name (g : CString → Address) {d : List UInt8} {p : Nat} (h : p ≤ d.length) :
    Tracks d.length (Scan.along (readLabel CString.empty) d p fun _ => Scan.arrived)
      ((do let name ← readLabel CString.empty; pure (g name) : Reader Code Address).run
        d d.length p) :=
  tracks_along (within_readLabel _ d p h) fun _ _ hq => tracks_pure d _ hq

theorem tracks_address (rt : DnsRecordType) (type len : UInt16) {d : List UInt8} {p : Nat}
    (h : p ≤ d.length) : Tracks d.length (Scan.address rt type len d p)
      ((DnsRecord.readAddress rt type len).run d d.length p) := by
  unfold Scan.address DnsRecord.readAddress
  split
  · exact tracks_word (fun v q hq => tracks_pure d _ hq) fun q hq => quiet_arrived hq
  split
  · exact tracks_name _ h
  split
  · exact tracks_name _ h
  split
  · exact tracks_along (within_vreadU16 d p h) fun priority q hq => tracks_name _ hq
  split
  · have q₁ : ∀ q, d.length < q → Quiet d.length (Scan.word q Scan.arrived) := fun q hq =>
      quiet_word (by omega) (quiet_arrived (by omega))
    have q₂ : ∀ q, d.length < q → Quiet d.length (Scan.word q fun q => Scan.word q Scan.arrived) :=
      fun q hq => quiet_word (by omega) (q₁ (q + 4) (by omega))
    have q₃ : ∀ q, d.length < q → Quiet d.length
        (Scan.word q fun q => Scan.word q fun q => Scan.word q Scan.arrived) :=
      fun q hq => quiet_word (by omega) (q₂ (q + 4) (by omega))
    refine tracks_word (fun n1 q hq => ?_) q₃
    refine tracks_word (fun n2 q hq => ?_) q₂
    refine tracks_word (fun n3 q hq => ?_) q₁
    exact tracks_word (fun n4 q hq => tracks_pure d _ hq) fun q hq => quiet_arrived hq
  split
  · split
    · exact tracks_fail _ d p _
    · exact tracks_along (within_each (fun _ => within_vreadByte) _ _ d p h) fun _ _ hq =>
        tracks_pure d _ hq
  · exact tracks_fail _ d p _

theorem tracks_record (rt : DnsRecordType) {d : List UInt8} {p : Nat} (h : p ≤ d.length) :
    Tracks d.length (Scan.record rt d p) ((DnsRecord.read rt).run d d.length p) := by
  refine tracks_along (within_question _ d p h) fun question q hq => ?_
  refine tracks_word (fun ttl q hq => ?_) fun q hq => quiet_along (vread_fail _ _ (by omega))
  refine tracks_along (within_vreadU16 d q hq) fun len q hq => ?_
  exact tracks_map _ (tracks_address rt _ len hq)

theorem tracks_records (rt : DnsRecordType) (d : List UInt8) (i k : Nat) {p : Nat}
    (h : p ≤ d.length) : Tracks d.length (Scan.records rt d k p)
      ((each (fun _ => DnsRecord.read rt) i k).run d d.length p) := by
  induction k generalizing i p with
  | zero => exact tracks_pure d _ h
  | succ k ih =>
    refine tracks_andThen (tracks_record rt h) (fun r q hq => ?_) fun q hq => quiet_records rt d k hq
    exact tracks_map _ (ih (i + 1) hq)

theorem tracks_read (garbage : Nat → CString) (d : List UInt8) :
    Tracks d.length (Scan.message d) ((DnsPacket.read garbage).run d d.length 0) := by
  have hsame : ∀ k, SameEnd (each (fun _ => DnsQuestion.read CString.empty) 0 k)
      (each (fun i => DnsQuestion.read (garbage i)) 0 k) := fun k =>
    sameEnd_each (fun i => sameEnd_question _ _) 0 k
  refine tracks_along (DnsHeader.within_read d 0 (Nat.zero_le _)) fun h p hp => ?_
  rw [along_congr (hsame h.questionCount.toNat)]
  refine tracks_along (within_each (fun i => within_question _) _ _ d p hp) fun qs p hp => ?_
  refine tracks_andThen (tracks_records .answer d 0 _ hp) (fun answers p hp => ?_) fun q hq =>
    quiet_andThen (quiet_records .authority d _ hq) fun q hq => quiet_records .additional d _ hq
  refine tracks_andThen (tracks_records .authority d 0 _ hp) (fun authorities p hp => ?_)
    fun q hq => quiet_records .additional d _ hq
  exact tracks_map _ (tracks_records .additional d 0 _ hp)

/-- What a datagram of n bytes at the start of buf is owed: Read looks at no index from n
on, it leaves the cursor at n or before, and the bytes after the datagram do not matter. -/
structure ReadsDatagramOnly (garbage : Nat → CString) (buf : List UInt8) (n : Nat) : Prop where
  inside : ∀ e, (DnsPacket.read garbage).run (buf.take n) n 0 = .error e → ∃ c, e = .failed c
  cursor : ∀ p q, (DnsPacket.read garbage).run buf n 0 = .ok (p, q) → q ≤ n
  agree : ∀ buf', n ≤ buf'.length → buf'.take n = buf.take n →
    (DnsPacket.read garbage).run buf' n 0 = (DnsPacket.read garbage).run buf n 0

theorem read_of_take {garbage : Nat → CString} {buf : List UInt8} {n : Nat}
    (h : (DnsPacket.read garbage).run (buf.take n) n 0 ≠ .error .outOfRange) :
    (DnsPacket.read garbage).run buf n 0 = (DnsPacket.read garbage).run (buf.take n) n 0 := by
  have hs := stable_packet garbage (buf.take n) (buf.drop n) n 0 h
  rwa [List.take_append_drop] at hs

/-- Read keeps to its datagram exactly when no 32-bit field that it reaches is cut after
its second or third byte. -/
theorem readsDatagramOnly_iff (garbage : Nat → CString) (buf : List UInt8) (n : Nat)
    (hn : n ≤ buf.length) :
    ReadsDatagramOnly garbage buf n ↔ ∀ w ∈ wordStarts (buf.take n), ¬ Cut n w := by
  have hlen : (buf.take n).length = n := List.length_take_of_le hn
  have ht := tracks_read garbage (buf.take n)
  rw [hlen] at ht
  constructor
  · intro h
    cases he : (DnsPacket.read garbage).run (buf.take n) n 0 with
    | ok v =>
      rw [he] at ht
      exact ht.2.2
    | error e =>
      obtain ⟨c, rfl⟩ := h.inside e he
      rw [he] at ht
      exact ht.1
  · intro h
    have hrange : (DnsPacket.read garbage).run (buf.take n) n 0 ≠ .error .outOfRange := by
      intro he
      rw [he] at ht
      obtain ⟨w, hw, hcut⟩ := ht
      exact h w hw hcut
    refine ⟨?_, ?_, ?_⟩
    · intro e he
      cases e with
      | outOfRange => exact absurd he hrange
      | outOfFuel =>
        rw [he] at ht
        exact ht.elim
      | failed c => exact ⟨c, rfl⟩
    · intro p q he
      rw [read_of_take hrange] at he
      rw [he] at ht
      exact ht.1
    · intro buf' _ hb
      rw [read_of_take hrange, read_of_take (by rwa [hb]), hb]

/- A response with one A record whose address has only two of its four bytes. -/
def cutAddress : List UInt8 :=
  [0, 1, 0x80, 0, 0, 0, 0, 1, 0, 0, 0, 0, 0, 0, 1, 0, 1, 0, 0, 0, 0, 0, 4, 192, 0]

def cutAddressBuffer : List UInt8 := cutAddress ++ List.replicate (maxPacketSz - 25) 0

theorem cutAddress_leaves_datagram :
    cutAddressBuffer.length = maxPacketSz ∧ 25 ≤ maxPacketSz ∧
      ¬ ReadsDatagramOnly (fun _ => CString.empty) cutAddressBuffer 25 := by
  refine ⟨by decide +kernel, by decide, ?_⟩
  intro h
  have hrun : ((DnsPacket.read fun _ => CString.empty).run cutAddressBuffer 25 0).map Prod.snd =
      .ok 27 := by decide +kernel
  cases he : (DnsPacket.read fun _ => CString.empty).run cutAddressBuffer 25 0 with
  | error e =>
    rw [he] at hrun
    cases hrun
  | ok v =>
    obtain ⟨p, q⟩ := v
    rw [he] at hrun
    have hq := h.cursor p q he
    cases hrun
    exact absurd hq (by decide)

theorem readsDatagramOnly_iff_cutAddress :
    25 ≤ cutAddressBuffer.length ∧
      (ReadsDatagramOnly (fun _ => CString.empty) cutAddressBuffer 25 ↔
        ∀ w ∈ wordStarts (cutAddressBuffer.take 25), ¬ Cut 25 w) :=
  have h : 25 ≤ cutAddressBuffer.length := by decide +kernel
  ⟨h, readsDatagramOnly_iff _ _ _ h⟩

end DnsWrapper.Dns
