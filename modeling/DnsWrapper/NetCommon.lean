import Mathlib.Tactic.IntervalCases
import DnsWrapper.ByteReader
import DnsWrapper.ByteWriter
import DnsWrapper.ByteWord

/-! The constants and buffer macros of netcommon.h and dnscommon.hpp. -/
namespace DnsWrapper.NetCommon
open ByteReader ByteWriter ByteWord

abbrev Code := Nat

def eNoError : Code := 0
def eFormErr : Code := 1
def eServFail : Code := 2
def eNotImp : Code := 4
def eRefused : Code := 5

def ednsPktSz : Nat := 1232
def maxDName : Nat := 1025
def rrFixedSz : Nat := 10
def maxPacketSz : Nat := ednsPktSz + maxDName + rrFixedSz

def maxJumps : Nat := 5
def sQuery : UInt8 := 0

def packetSzMax : Nat := 65535

def qtA : UInt16 := 1
def qtNS : UInt16 := 2
def qtCName : UInt16 := 5
def qtMX : UInt16 := 15
def qtAAAA : UInt16 := 28
def qtOpt : UInt16 := 41
def qtcIn : UInt16 := 1

inductive PacketType where
  | incomingRequest | incomingResponse | outgoingRequest | outgoingResponse
  deriving DecidableEq

/- The unions of netcommon.h as their bytes; words in memory order of the supported ABI. -/
structure EthAddress where
  v : Vector UInt8 6
  deriving DecidableEq

theorem EthAddress.exists_six (e : EthAddress) :
    ∃ a b c d x y, e = ⟨#v[a, b, c, d, x, y]⟩ := by
  refine ⟨e.v[0], e.v[1], e.v[2], e.v[3], e.v[4], e.v[5], ?_⟩
  obtain ⟨v⟩ := e
  congr
  apply Vector.ext
  intro i hi
  interval_cases i <;> rfl

theorem exists_four (v : Vector UInt8 4) : ∃ a b c d, v = #v[a, b, c, d] := by
  refine ⟨v[0], v[1], v[2], v[3], Vector.ext fun i hi => ?_⟩
  interval_cases i <;> rfl

/- The bytes of a union one by one, and in words. -/
theorem toList_sixteen (v : Vector UInt8 16) :
    v.toList = [v[0], v[1], v[2], v[3], v[4], v[5], v[6], v[7], v[8], v[9], v[10],
      v[11], v[12], v[13], v[14], v[15]] := by
  apply List.ext_getElem (by simp)
  intro i h _
  rw [Vector.length_toList] at h
  interval_cases i <;> rfl

theorem toList_words (v : Vector UInt8 16) : v.toList =
    #v[v[0], v[1], v[2], v[3]].toList ++ (#v[v[4], v[5], v[6], v[7]].toList ++
      (#v[v[8], v[9], v[10], v[11]].toList ++ (#v[v[12], v[13], v[14], v[15]].toList ++ []))) := by
  apply List.ext_getElem (by simp)
  intro i h _
  rw [Vector.length_toList] at h
  interval_cases i <;> simp

structure IpAddress where
  v : Vector UInt8 16
  deriving DecidableEq

namespace IpAddress

def ipv4 (a : IpAddress) : UInt32 := join32 a.v[3] a.v[2] a.v[1] a.v[0]

def ipv6 (a : IpAddress) : UInt32 × UInt32 × UInt32 × UInt32 :=
  (join32 a.v[3] a.v[2] a.v[1] a.v[0], join32 a.v[7] a.v[6] a.v[5] a.v[4],
    join32 a.v[11] a.v[10] a.v[9] a.v[8], join32 a.v[15] a.v[14] a.v[13] a.v[12])

/- The four bytes of Ipv6[i] replaced; Ipv4 is Ipv6[0]. -/
def setWord (a : IpAddress) (i : Nat) (w : Vector UInt8 4) : IpAddress :=
  ⟨Vector.ofFn fun k => if h : 4 * i ≤ k ∧ k < 4 * i + 4 then w[k - 4 * i] else a.v[k]⟩

/- The bytes of Ipv4. -/
def ipv4Bytes (a : IpAddress) : Vector UInt8 4 := #v[a.v[0], a.v[1], a.v[2], a.v[3]]

def setIpv4 (a b : IpAddress) : IpAddress := a.setWord 0 b.ipv4Bytes

theorem ipv4Bytes_setWord (a : IpAddress) (w : Vector UInt8 4) :
    (a.setWord 0 w).ipv4Bytes = w := by
  obtain ⟨p, q, r, s, rfl⟩ := exists_four w
  simp [ipv4Bytes, setWord]

theorem ipv4_setWord (a : IpAddress) (p q r s : UInt8) :
    (a.setWord 0 #v[p, q, r, s]).ipv4 = join32 s r q p := by
  simp [ipv4, setWord]

@[simp] theorem ipv4_setIpv4 (a b : IpAddress) : (a.setIpv4 b).ipv4 = b.ipv4 :=
  a.ipv4_setWord _ _ _ _

theorem setWord_words (a : IpAddress) (v : Vector UInt8 16) :
    (((a.setWord 0 #v[v[0], v[1], v[2], v[3]]).setWord 1 #v[v[4], v[5], v[6], v[7]]).setWord 2
      #v[v[8], v[9], v[10], v[11]]).setWord 3 #v[v[12], v[13], v[14], v[15]] = ⟨v⟩ := by
  have hbyte (a : IpAddress) (i k : Nat) (w : Vector UInt8 4) (hk : k < 16) :
      (a.setWord i w).v[k] = if h : 4 * i ≤ k ∧ k < 4 * i + 4 then w[k - 4 * i] else a.v[k] := by
    simp [setWord]
  have hmk (b : IpAddress) (hb : b.v = v) : b = ⟨v⟩ := by rw [← hb]
  apply hmk
  apply Vector.ext
  intro i h
  simp only [hbyte]
  interval_cases i <;> simp

end IpAddress

/- Two addresses for the examples: 02:00:00:00:00:01 and 10.0.0.9. -/
def sampleMachine : EthAddress := ⟨#v[2, 0, 0, 0, 0, 1]⟩
def sampleHost : Vector UInt8 4 := #v[10, 0, 0, 9]

/- The bytes of a fresh BytePacketBuffer. -/
def zeroBuffer : List UInt8 := List.replicate maxPacketSz 0

def validate (k : Nat) : Reader Code Unit := do
  let pos ← here
  let size ← nominal
  if pos + k > size then fail eFormErr else pure ()

def readU8 : Reader Code UInt8 := byte

def readU16 : Reader Code UInt16 := do
  let a ← peek 0
  let b ← peek 1
  skip 2
  pure (join16 a b)

def readU32 : Reader Code UInt32 := do
  let a ← peek 0
  let b ← peek 1
  let c ← peek 2
  let d ← peek 3
  skip 4
  pure (join32 a b c d)

def vread {α : Type} (k : Nat) (r : Reader Code α) : Reader Code α := do
  validate k
  r

def vreadByte : Reader Code UInt8 := vread 1 byte
def vreadU8 : Reader Code UInt8 := vread 1 readU8
def vreadU16 : Reader Code UInt16 := vread 2 readU16
/- The macro passes 2 here too, although READ_U32 takes four bytes. -/
def vreadU32 : Reader Code UInt32 := vread 2 readU32

def writeByte (b : UInt8) : Writer := put b
def writeU16 (v : UInt16) : Writer := putAll (bytes16 v)
def writeU32 (v : UInt32) : Writer := putAll (bytes32 v)

theorem validate_ok {n p k : Nat} (buf : List UInt8) (h : p + k ≤ n) :
    (validate k).run buf n p = .ok ((), p) := by
  simp [validate, bind_apply, here, nominal, pure_apply, show ¬ p + k > n by omega]

theorem validate_fail {n p k : Nat} (buf : List UInt8) (h : n < p + k) :
    (validate k).run buf n p = .error (.failed eFormErr) := by
  simp [validate, bind_apply, here, nominal, fail, h]

theorem vread_ok {α : Type} {n p k : Nat} (r : Reader Code α) (buf : List UInt8)
    (h : p + k ≤ n) : (vread k r).run buf n p = r.run buf n p := by
  rw [vread, bind_of_ok (validate_ok buf h)]

theorem vread_fail {α : Type} {n p k : Nat} (r : Reader Code α) (buf : List UInt8)
    (h : n < p + k) : (vread k r).run buf n p = .error (.failed eFormErr) := by
  rw [vread, bind_of_error (validate_fail buf h)]

theorem vread_bound {α : Type} {n p k : Nat} {r : Reader Code α} {buf : List UInt8} {x : α × Nat}
    (h : (vread k r).run buf n p = .ok x) : p + k ≤ n := by
  by_contra hlt
  rw [vread_fail r buf (by omega)] at h
  cases h

theorem vreadU8_ok {buf : List UInt8} {n p : Nat} (hb : p < buf.length) (h : p + 1 ≤ n) :
    vreadU8.run buf n p = .ok (buf[p], p + 1) := by
  rw [vreadU8, vread_ok _ _ h, readU8, byte_ok n hb]

theorem readU16_ok {buf : List UInt8} {p : Nat} (n : Nat) (hb : p + 1 < buf.length) :
    readU16.run buf n p = .ok (join16 buf[p] buf[p + 1], p + 2) := by
  rw [readU16, bind_of_ok (peek_ok n (i := 0) (by omega)), bind_of_ok (peek_ok n hb)]
  rfl

theorem vreadU16_ok {buf : List UInt8} {n p : Nat} (hb : p + 1 < buf.length) (h : p + 2 ≤ n) :
    vreadU16.run buf n p = .ok (join16 buf[p] buf[p + 1], p + 2) := by
  rw [vreadU16, vread_ok _ _ h, readU16_ok n hb]

theorem readU32_ok {buf : List UInt8} {p : Nat} (n : Nat) (hb : p + 3 < buf.length) :
    readU32.run buf n p = .ok (join32 buf[p] buf[p + 1] buf[p + 2] buf[p + 3], p + 4) := by
  rw [readU32, bind_of_ok (peek_ok n (i := 0) (by omega)), bind_of_ok (peek_ok n (i := 1) (by omega)),
    bind_of_ok (peek_ok n (i := 2) (by omega)), bind_of_ok (peek_ok n hb)]
  rfl

theorem readU32_outOfRange {buf : List UInt8} {p : Nat} (n : Nat) (h : buf.length < p + 4) :
    readU32.run buf n p = .error .outOfRange := by
  have hcase : ∀ i, i < 4 → (peek i : Reader Code UInt8).run buf n p = .error .outOfRange ∨
      ∃ b, (peek i : Reader Code UInt8).run buf n p = .ok (b, p) := by
    intro i _
    by_cases hi : p + i < buf.length
    · exact .inr ⟨_, peek_ok n hi⟩
    · exact .inl (peek_outOfRange n (by omega))
  have hlast : (peek 3 : Reader Code UInt8).run buf n p = .error .outOfRange :=
    peek_outOfRange n (by omega)
  rw [readU32]
  obtain he | ⟨a, he⟩ := hcase 0 (by omega)
  · exact bind_of_error he
  rw [bind_of_ok he]
  obtain he | ⟨b, he⟩ := hcase 1 (by omega)
  · exact bind_of_error he
  rw [bind_of_ok he]
  obtain he | ⟨c, he⟩ := hcase 2 (by omega)
  · exact bind_of_error he
  rw [bind_of_ok he, bind_of_error hlast]

theorem stable_validate (k : Nat) : Stable (validate k) :=
  stable_bind stable_here fun _ => stable_bind stable_nominal fun _ =>
    stable_ite (stable_fail _) (stable_pure _)

theorem stable_vread {α : Type} (k : Nat) {r : Reader Code α} (h : Stable r) :
    Stable (vread k r) :=
  stable_bind (stable_validate k) fun _ => h

theorem stable_readU16 : Stable readU16 :=
  stable_bind (stable_peek 0) fun _ => stable_bind (stable_peek 1) fun _ =>
    stable_bind (stable_skip 2) fun _ => stable_pure _

theorem stable_readU32 : Stable readU32 :=
  stable_bind (stable_peek 0) fun _ => stable_bind (stable_peek 1) fun _ =>
    stable_bind (stable_peek 2) fun _ => stable_bind (stable_peek 3) fun _ =>
      stable_bind (stable_skip 4) fun _ => stable_pure _

theorem stable_vreadByte : Stable vreadByte := stable_vread 1 stable_byte
theorem stable_vreadU8 : Stable vreadU8 := stable_vread 1 stable_byte
theorem stable_vreadU16 : Stable vreadU16 := stable_vread 2 stable_readU16
theorem stable_vreadU32 : Stable vreadU32 := stable_vread 2 stable_readU32

theorem within_validate (k : Nat) : Within (validate k) := by
  intro buf p hp
  by_cases h : p + k ≤ buf.length
  · rw [validate_ok buf h]
    exact hp
  · rw [validate_fail buf (by omega)]
    exact ⟨_, rfl⟩

theorem within_vreadU8 : Within vreadU8 := by
  intro buf p _
  by_cases h : p + 1 ≤ buf.length
  · rw [vreadU8_ok (by omega) h]
    exact h
  · rw [vreadU8, vread_fail _ _ (by omega)]
    exact ⟨_, rfl⟩

theorem within_vreadByte : Within vreadByte := within_vreadU8

theorem within_vreadU16 : Within vreadU16 := by
  intro buf p _
  by_cases h : p + 2 ≤ buf.length
  · rw [vreadU16_ok (by omega) h]
    exact h
  · rw [vreadU16, vread_fail _ _ (by omega)]
    exact ⟨_, rfl⟩

theorem advances_validate (k : Nat) : Advances (validate k) 0 :=
  advances_bind advances_here fun _ => advances_bind advances_nominal fun _ =>
    advances_ite (advances_fail _ 0) (advances_pure _)

theorem advances_vread {α : Type} (k : Nat) {r : Reader Code α} {j : Nat} (h : Advances r j) :
    Advances (vread k r) j := by
  have hall := advances_bind (advances_validate k) fun _ => h
  rwa [Nat.zero_add] at hall

theorem advances_vreadByte : Advances vreadByte 1 := advances_vread 1 advances_byte

theorem advances_vreadU8 : Advances vreadU8 1 := advances_vreadByte

theorem advances_vreadU16 : Advances vreadU16 2 :=
  advances_vread 2 (advances_bind (advances_peek 0) fun _ => advances_bind (advances_peek 1) fun _ =>
    advances_bind (advances_skip 2) fun _ => advances_pure _)

theorem advances_vreadU32 : Advances vreadU32 4 :=
  advances_vread 2 (advances_bind (advances_peek 0) fun _ => advances_bind (advances_peek 1) fun _ =>
    advances_bind (advances_peek 2) fun _ => advances_bind (advances_peek 3) fun _ =>
      advances_bind (advances_skip 4) fun _ => advances_pure _)

theorem conclusive_vreadU8 : Conclusive vreadU8 :=
  conclusive_bind (conclusive_bind conclusive_here fun _ => conclusive_bind conclusive_nominal
    fun _ => conclusive_ite (conclusive_fail _) (conclusive_pure _)) fun _ => conclusive_byte

theorem safe_check (k j : Nat) : Safe k (validate j) := by
  intro buf p _
  by_cases hfit : p + j ≤ buf.length
  · rw [validate_ok buf hfit]
    nofun
  · rw [validate_fail buf (by omega)]
    nofun

/- A check of the size provides the bytes for what follows. -/
theorem safe_validate {α : Type} {k : Nat} {r : Reader Code α} (h : Safe k r) :
    Safe 0 (do validate k; r) := by
  intro buf p _
  by_cases hfit : p + k ≤ buf.length
  · rw [bind_of_ok (validate_ok buf hfit)]
    exact h buf p fun _ => hfit
  · rw [bind_of_error (validate_fail buf (by omega))]
    nofun

theorem safe_vreadU8 : Safe 0 vreadU8 := safe_validate safe_byte

theorem safe_readU16 : Safe 2 readU16 :=
  safe_bind (j := 0) (safe_mono (safe_peek 0) (by decide)) (advances_peek 0) fun _ =>
    safe_then (safe_peek 1) fun _ => safe_then (safe_skip 0 2) fun _ => safe_pure 0 _

theorem safe_readU32 : Safe 4 readU32 :=
  safe_bind (j := 0) (safe_mono (safe_peek 0) (by decide)) (advances_peek 0) fun _ =>
    safe_bind (j := 0) (safe_mono (safe_peek 1) (by decide)) (advances_peek 1) fun _ =>
    safe_bind (j := 0) (safe_mono (safe_peek 2) (by decide)) (advances_peek 2) fun _ =>
    safe_then (safe_peek 3) fun _ => safe_then (safe_skip 0 4) fun _ => safe_pure 0 _

theorem safe_vreadU16 : Safe 0 vreadU16 := safe_validate safe_readU16

/- The check is for two bytes only, so the four have to be there already. -/
theorem safe_vreadU32 : Safe 4 vreadU32 := by
  intro buf p hp
  have hfit := hp (by decide)
  rw [vreadU32, vread_ok _ buf (by omega)]
  exact safe_readU32 buf p hp

section Ends
variable {d : List UInt8} {p : Nat}

@[simp] theorem ends_validate {k : Nat} {Q : Unit → Nat → Prop} :
    Ends d p (validate k) Q ↔ p + k ≤ d.length ∧ Q () p := by
  by_cases h : p + k ≤ d.length
  · rw [ends_of_ok (validate_ok d h)]
    exact (and_iff_right h).symm
  · exact iff_of_false (not_ends_of_error (validate_fail d (by omega))) fun hQ => h hQ.1

@[simp] theorem ends_vreadU8 {Q : UInt8 → Nat → Prop} :
    Ends d p vreadU8 Q ↔ p + 1 ≤ d.length ∧ Q (d.getD p 0) (p + 1) := by
  simp only [vreadU8, vread, readU8, byte, ends_bind, ends_validate, ends_peek, ends_skip, ends_pure,
    Nat.add_zero]
  constructor
  · rintro ⟨h, _, hQ⟩
    exact ⟨h, hQ⟩
  · rintro ⟨h, hQ⟩
    exact ⟨h, h, hQ⟩

@[simp] theorem ends_vreadU16 {Q : UInt16 → Nat → Prop} :
    Ends d p vreadU16 Q ↔ p + 2 ≤ d.length ∧ Q (join16 (d.getD p 0) (d.getD (p + 1) 0)) (p + 2) := by
  simp only [vreadU16, vread, readU16, ends_bind, ends_validate, ends_peek, ends_skip, ends_pure,
    Nat.add_zero]
  constructor
  · rintro ⟨h, _, _, hQ⟩
    exact ⟨h, hQ⟩
  · rintro ⟨h, hQ⟩
    exact ⟨h, by omega, by omega, hQ⟩

@[simp] theorem ends_vreadU32 {Q : UInt32 → Nat → Prop} :
    Ends d p vreadU32 Q ↔ p + 4 ≤ d.length ∧
      Q (join32 (d.getD p 0) (d.getD (p + 1) 0) (d.getD (p + 2) 0) (d.getD (p + 3) 0)) (p + 4) := by
  simp only [vreadU32, vread, readU32, ends_bind, ends_validate, ends_peek, ends_skip, ends_pure,
    Nat.add_zero]
  constructor
  · rintro ⟨_, _, _, _, h, hQ⟩
    exact ⟨h, hQ⟩
  · rintro ⟨h, hQ⟩
    exact ⟨by omega, by omega, by omega, by omega, h, hQ⟩

end Ends

theorem yields_validate {α : Type} {k : Nat} {r : Reader Code α} {bs : List UInt8} {a : α}
    (hk : k ≤ bs.length) (h : Yields r bs a) :
    Yields (do validate k; r : Reader Code α) bs a := by
  intro pre post n hn
  rw [bind_of_ok (validate_ok _ (by omega))]
  exact h pre post n hn

theorem yields_vreadByte (b : UInt8) : Yields vreadByte [b] b := by
  intro pre post n h
  have hlen : pre.length < (pre ++ [b] ++ post).length := by simp
  have hn : pre.length + 1 ≤ n := h
  rw [vreadByte, vread_ok _ _ hn, byte_ok n hlen]
  simp

theorem yields_join16 (a b : UInt8) : Yields vreadU16 [a, b] (join16 a b) := by
  intro pre post n h
  have hlen : pre.length + 1 < (pre ++ [a, b] ++ post).length := by simp
  rw [vreadU16_ok hlen h]
  simp

theorem yields_vreadU16 (v : UInt16) : Yields vreadU16 (bytes16 v) v := by
  have h := yields_join16 (v >>> 8).toUInt8 (v &&& 0xff).toUInt8
  rwa [join16_bytes16] at h

theorem yields_join32 (a b c d : UInt8) : Yields vreadU32 [a, b, c, d] (join32 a b c d) := by
  intro pre post n h
  have hn : pre.length + 4 ≤ n := h
  have hlen : pre.length + 3 < (pre ++ [a, b, c, d] ++ post).length := by simp
  rw [vreadU32, vread_ok _ _ (by omega), readU32_ok n hlen]
  simp

theorem yields_vreadU32 (v : UInt32) : Yields vreadU32 (bytes32 v) v := by
  have h := yields_join32 (v >>> 24).toUInt8 (v >>> 16 &&& 0xff).toUInt8
    (v >>> 8 &&& 0xff).toUInt8 (v &&& 0xff).toUInt8
  rwa [join32_bytes32] at h

end DnsWrapper.NetCommon
