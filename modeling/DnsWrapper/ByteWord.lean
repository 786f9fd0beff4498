import Mathlib.Data.Nat.Bitwise

/-! Words of 16 and 32 bits joined from bytes and split into bytes, most significant
byte first, by the shifts and masks a C program uses. -/
namespace DnsWrapper.ByteWord

def join16 (a b : UInt8) : UInt16 := a.toUInt16 <<< 8 ||| b.toUInt16

def join32 (a b c d : UInt8) : UInt32 :=
  a.toUInt32 <<< 24 ||| b.toUInt32 <<< 16 ||| c.toUInt32 <<< 8 ||| d.toUInt32

def bytes16 (v : UInt16) : List UInt8 := [(v >>> 8).toUInt8, (v &&& 0xff).toUInt8]

def bytes32 (v : UInt32) : List UInt8 :=
  [(v >>> 24).toUInt8, (v >>> 16 &&& 0xff).toUInt8, (v >>> 8 &&& 0xff).toUInt8,
    (v &&& 0xff).toUInt8]

theorem or_eq_add {b : Nat} (a : Nat) (h : b < 2 ^ 8) : a <<< 8 ||| b = a * 256 + b := by
  rw [← Nat.shiftLeft_add_eq_or_of_lt h, Nat.shiftLeft_eq]

/- Two neighbouring bytes at bit k make one number at bit k. -/
theorem or_step {b : Nat} (a k : Nat) (h : b < 2 ^ 8) :
    a <<< (8 + k) ||| b <<< k = (a * 256 + b) <<< k := by
  rw [Nat.shiftLeft_add, ← Nat.shiftLeft_or_distrib, or_eq_add a h]

theorem toNat_shift16 (a : UInt8) : (a.toUInt16 <<< 8).toNat = a.toNat <<< 8 := by
  have ha := a.toNat_lt
  simp only [UInt16.toNat_shiftLeft, UInt8.toNat_toUInt16, Nat.shiftLeft_eq, UInt16.reduceToNat,
    Nat.reduceMod, Nat.reducePow]
  omega

theorem toNat_shift32 (a : UInt8) (k : UInt32) (hk : k.toNat ≤ 24) :
    (a.toUInt32 <<< k).toNat = a.toNat <<< k.toNat := by
  have ha := a.toNat_lt
  have hp : 2 ^ k.toNat ≤ 2 ^ 24 := Nat.pow_le_pow_right (by decide) hk
  rw [UInt32.toNat_shiftLeft, UInt8.toNat_toUInt32, Nat.mod_eq_of_lt (by omega : k.toNat < 32),
    Nat.shiftLeft_eq]
  apply Nat.mod_eq_of_lt
  calc a.toNat * 2 ^ k.toNat ≤ 255 * 2 ^ 24 := Nat.mul_le_mul (by omega) hp
    _ < 2 ^ 32 := by decide

theorem toNat_join16 (a b : UInt8) : (join16 a b).toNat = a.toNat * 256 + b.toNat := by
  rw [join16, UInt16.toNat_or, toNat_shift16, UInt8.toNat_toUInt16, or_eq_add _ b.toNat_lt]

theorem toNat_join32 (a b c d : UInt8) :
    (join32 a b c d).toNat = ((a.toNat * 256 + b.toNat) * 256 + c.toNat) * 256 + d.toNat := by
  have h24 : (a.toUInt32 <<< 24).toNat = a.toNat <<< 24 := toNat_shift32 a 24 (by decide)
  have h16 : (b.toUInt32 <<< 16).toNat = b.toNat <<< 16 := toNat_shift32 b 16 (by decide)
  have h8 : (c.toUInt32 <<< 8).toNat = c.toNat <<< 8 := toNat_shift32 c 8 (by decide)
  simp only [join32, UInt32.toNat_or, h24, h16, h8, UInt8.toNat_toUInt32]
  rw [or_step _ 16 b.toNat_lt, or_step _ 8 c.toNat_lt, or_eq_add _ d.toNat_lt]

theorem join32_inj {a b c d a' b' c' d' : UInt8} :
    join32 a b c d = join32 a' b' c' d' ↔ a = a' ∧ b = b' ∧ c = c' ∧ d = d' := by
  have hb := b.toNat_lt
  have hc := c.toNat_lt
  have hd := d.toNat_lt
  have hb' := b'.toNat_lt
  have hc' := c'.toNat_lt
  have hd' := d'.toNat_lt
  simp only [← UInt32.toNat_inj, ← UInt8.toNat_inj, toNat_join32]
  omega

theorem toNat_byte16 (v : UInt16) : (v >>> 8).toUInt8.toNat = v.toNat / 256 := by
  have hv := v.toNat_lt
  simp only [UInt16.toNat_toUInt8, UInt16.toNat_shiftRight, Nat.shiftRight_eq_div_pow,
    UInt16.reduceToNat, Nat.reduceMod, Nat.reducePow]
  omega

theorem toNat_low16 (v : UInt16) : (v &&& 0xff).toUInt8.toNat = v.toNat % 256 := by
  have hm : (0xff : UInt16).toNat = 2 ^ 8 - 1 := rfl
  rw [UInt16.toNat_toUInt8, UInt16.toNat_and, hm, Nat.and_two_pow_sub_one_eq_mod]
  omega

theorem toNat_byte32 (v k : UInt32) (hk : k.toNat < 32) :
    (v >>> k &&& 0xff).toUInt8.toNat = v.toNat / 2 ^ k.toNat % 256 := by
  have hm : (0xff : UInt32).toNat = 2 ^ 8 - 1 := rfl
  rw [UInt32.toNat_toUInt8, UInt32.toNat_and, UInt32.toNat_shiftRight, Nat.mod_eq_of_lt hk, hm,
    Nat.and_two_pow_sub_one_eq_mod, Nat.shiftRight_eq_div_pow]
  omega

theorem join16_bytes16 (v : UInt16) : join16 (v >>> 8).toUInt8 (v &&& 0xff).toUInt8 = v := by
  apply UInt16.toNat_inj.mp
  rw [toNat_join16, toNat_byte16, toNat_low16]
  omega

theorem join32_bytes32 (v : UInt32) :
    join32 (v >>> 24).toUInt8 (v >>> 16 &&& 0xff).toUInt8 (v >>> 8 &&& 0xff).toUInt8
      (v &&& 0xff).toUInt8 = v := by
  have hv := v.toNat_lt
  have hhigh : (v >>> 24).toUInt8.toNat = v.toNat / 2 ^ 24 := by
    simp only [UInt32.toNat_toUInt8, UInt32.toNat_shiftRight, Nat.shiftRight_eq_div_pow,
      UInt32.reduceToNat, Nat.reduceMod, Nat.reducePow]
    omega
  have hlow : (v &&& 0xff).toUInt8.toNat = v.toNat % 256 := by
    have hm : (0xff : UInt32).toNat = 2 ^ 8 - 1 := rfl
    rw [UInt32.toNat_toUInt8, UInt32.toNat_and, hm, Nat.and_two_pow_sub_one_eq_mod]
    omega
  have h16 : (v >>> 16 &&& 0xff).toUInt8.toNat = v.toNat / 2 ^ 16 % 256 :=
    toNat_byte32 v 16 (by decide)
  have h8 : (v >>> 8 &&& 0xff).toUInt8.toNat = v.toNat / 2 ^ 8 % 256 := toNat_byte32 v 8 (by decide)
  apply UInt32.toNat_inj.mp
  rw [toNat_join32, hhigh, h16, h8, hlow]
  omega

theorem bytes16_join16 (a b : UInt8) : bytes16 (join16 a b) = [a, b] := by
  have ha : (join16 a b >>> 8).toUInt8 = a := by
    apply UInt8.toNat_inj.mp
    have hb := b.toNat_lt
    rw [toNat_byte16, toNat_join16]
    omega
  have hb : (join16 a b &&& 0xff).toUInt8 = b := by
    apply UInt8.toNat_inj.mp
    have hlt := b.toNat_lt
    rw [toNat_low16, toNat_join16]
    omega
  rw [bytes16, ha, hb]

theorem bytes32_join32 (a b c d : UInt8) : bytes32 (join32 a b c d) = [a, b, c, d] := by
  obtain ⟨ha, hb, hc, hd⟩ := join32_inj.mp (join32_bytes32 (join32 a b c d))
  rw [bytes32, ha, hb, hc, hd]

end DnsWrapper.ByteWord
