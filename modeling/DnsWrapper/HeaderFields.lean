import Mathlib.Data.List.Basic
import DnsWrapper.DnsHeader
import DnsWrapper.StickyBits

/-! The nine fields of the two flag bytes under any sequence of setter calls. Every setter ors
its value in, so a field that does not read back what was given to it last is one that held more
before, or one whose getter and setter do not name the same bits. -/
namespace DnsWrapper.Dns
open NetCommon StickyBits

inductive Flag where
  | queryResponse
  | authoritativeAnswer
  | truncatedMessage
  | recursionDesired
  | recursionAvailable
  | authenticData
  | checkingDisabled
  deriving DecidableEq, Repr

namespace Flag

def get (h : DnsHeader) : Flag → Bool
  | .queryResponse => h.getQueryResponse
  | .authoritativeAnswer => h.getAuthoritativeAnswer
  | .truncatedMessage => h.getTruncatedMessage
  | .recursionDesired => h.getRecursionDesired
  | .recursionAvailable => h.getRecursionAvailable
  | .authenticData => h.getAuthenticData
  | .checkingDisabled => h.getCheckingDisabled

def set (h : DnsHeader) (v : Bool) : Flag → DnsHeader
  | .queryResponse => h.setQueryResponse v
  | .authoritativeAnswer => h.setAuthoritativeAnswer v
  | .truncatedMessage => h.setTruncatedMessage v
  | .recursionDesired => h.setRecursionDesired v
  | .recursionAvailable => h.setRecursionAvailable v
  | .authenticData => h.setAuthenticData v
  | .checkingDisabled => h.setCheckingDisabled v

end Flag

/- A call of one of the setters; codes are four bits wide. -/
inductive SetterCall where
  | flag (f : Flag) (v : Bool)
  | opCode (v : UInt8) (fits : v < 16)
  | responseCode (v : UInt8) (fits : v < 16)

namespace SetterCall

def apply (h : DnsHeader) : SetterCall → DnsHeader
  | .flag f v => f.set h v
  | .opCode v _ => h.setOpCode v
  | .responseCode v _ => h.setResponseCode v

/- The value that the call gives to a field. -/
def flagGiven (f : Flag) : SetterCall → Option Bool
  | .flag g v => if g = f then some v else none
  | _ => none

def opCodeGiven : SetterCall → Option UInt8
  | .opCode v _ => some v
  | _ => none

def responseCodeGiven : SetterCall → Option UInt8
  | .responseCode v _ => some v
  | _ => none

end SetterCall

/- A field that was given these values and now holds the second argument reads back as it
   should: the value given last, or else what it held first. -/
def ReadsBack {α : Type} (first now : α) (given : List α) : Prop :=
  now = given.getLast?.getD first

instance {α : Type} [DecidableEq α] (first now : α) (given : List α) :
    Decidable (ReadsBack first now given) :=
  inferInstanceAs (Decidable (now = _))

/- Every field does after these calls. -/
def FieldsReadBack (h : DnsHeader) (calls : List SetterCall) : Prop :=
  let t := calls.foldl SetterCall.apply h
  (∀ f : Flag, ReadsBack (f.get h) (f.get t) (calls.filterMap (SetterCall.flagGiven f))) ∧
    ReadsBack h.getOpCode t.getOpCode (calls.filterMap SetterCall.opCodeGiven) ∧
    ReadsBack h.getResponseCode t.getResponseCode (calls.filterMap SetterCall.responseCodeGiven)

theorem or_and_distrib (a b m : UInt8) : (a ||| b) &&& m = (a &&& m) ||| (b &&& m) :=
  UInt8.toBitVec_inj.mp BitVec.and_or_distrib_right

theorem test_or {x a b : UInt8} (hx : x = a ||| b) (m : UInt8) :
    (x &&& m != 0) = ((a &&& m != 0) || (b &&& m != 0)) := by
  rw [hx, or_and_distrib, Bool.eq_iff_iff]
  simp only [bne_iff_ne, Bool.or_eq_true, ne_eq, UInt8.or_eq_zero_iff]
  exact not_and_or

/- The header k is or'ed into h. -/
structure Added (h k t : DnsHeader) : Prop where
  hb3 : t.hb3 = h.hb3 ||| k.hb3
  hb4 : t.hb4 = h.hb4 ||| k.hb4

section Added
variable {h k t : DnsHeader}

theorem Added.get (ha : Added h k t) (f : Flag) : f.get t = (f.get h || f.get k) := by
  cases f with
  | queryResponse => exact test_or ha.hb3 _
  | authoritativeAnswer => exact test_or ha.hb3 _
  | truncatedMessage => exact test_or ha.hb3 _
  | recursionDesired => exact test_or ha.hb3 _
  | recursionAvailable => exact test_or ha.hb4 _
  | authenticData => exact test_or ha.hb4 _
  | checkingDisabled => exact test_or ha.hb4 _

theorem Added.getOpCode (ha : Added h k t) : t.getOpCode = h.getOpCode ||| k.getOpCode := by
  rw [DnsHeader.getOpCode, ha.hb3, UInt8.shiftRight_or, or_and_distrib]
  rfl

theorem Added.getResponseCode (ha : Added h k t) :
    t.getResponseCode = h.getResponseCode ||| k.getResponseCode := by
  rw [DnsHeader.getResponseCode, ha.hb4, or_and_distrib]
  rfl

end Added

def blank : DnsHeader := ⟨0, 0, 0, 0, 0, 0, 0⟩

theorem added_hb3 (h : DnsHeader) (m : UInt8) :
    Added h { blank with hb3 := blank.hb3 ||| m } { h with hb3 := h.hb3 ||| m } := by
  refine ⟨?_, UInt8.or_zero.symm⟩
  change h.hb3 ||| m = h.hb3 ||| (0 ||| m)
  rw [UInt8.zero_or]

theorem added_hb4 (h : DnsHeader) (m : UInt8) :
    Added h { blank with hb4 := blank.hb4 ||| m } { h with hb4 := h.hb4 ||| m } := by
  refine ⟨UInt8.or_zero.symm, ?_⟩
  change h.hb4 ||| m = h.hb4 ||| (0 ||| m)
  rw [UInt8.zero_or]

/-- A call ors in what it does to a blank header. -/
theorem added_apply (h : DnsHeader) (c : SetterCall) : Added h (c.apply blank) (c.apply h) := by
  cases c with
  | flag f v =>
    cases f with
    | queryResponse => exact added_hb3 h _
    | authoritativeAnswer => exact added_hb3 h _
    | truncatedMessage => exact added_hb3 h _
    | recursionDesired => exact added_hb3 h _
    | recursionAvailable => exact added_hb4 h _
    | authenticData => exact added_hb4 h _
    | checkingDisabled => exact added_hb4 h _
  | opCode v _ => exact added_hb3 h _
  | responseCode v _ => exact added_hb4 h _

/- What a flag shows after v was given to it: SetCheckingDisabled writes another bit than
   GetCheckingDisabled reads. -/
def Flag.put (f : Flag) (old v : Bool) : Bool :=
  if f = .checkingDisabled then old else old || v

/- The code read is the code written without its lowest bit: SetOpCode writes one bit lower
   than GetOpCode reads. -/
def opCodePut (old v : UInt8) : UInt8 := old ||| v >>> 1

/- A fact about codes below k is a finite number of facts. -/
theorem forall_below {P : UInt8 → Prop} {k : Nat} (h : ∀ n < k, P (UInt8.ofNat n)) {v : UInt8}
    (hv : v.toNat < k) : P v := by
  have hcode := h v.toNat hv
  rwa [UInt8.ofNat_toNat] at hcode

theorem blank_flag (f g : Flag) (v : Bool) :
    f.get (g.set blank v) = (v && decide (g = f) && decide (f ≠ .checkingDisabled)) := by
  cases f <;> cases g <;> cases v <;> rfl

theorem blank_opCode (f : Flag) {v : UInt8} (hv : v.toNat < 16) :
    f.get (blank.setOpCode v) = false := by
  refine forall_below (P := fun v => f.get (blank.setOpCode v) = false) ?_ hv
  cases f <;> decide

theorem blank_responseCode (f : Flag) {v : UInt8} (hv : v.toNat < 16) :
    f.get (blank.setResponseCode v) = false := by
  refine forall_below (P := fun v => f.get (blank.setResponseCode v) = false) ?_ hv
  cases f <;> decide

theorem blank_codes (g : Flag) (v : Bool) :
    (g.set blank v).getOpCode = 0 ∧ (g.set blank v).getResponseCode = 0 := by
  cases g <;> cases v <;> exact ⟨rfl, rfl⟩

theorem blank_getOpCode {v : UInt8} (hv : v.toNat < 16) :
    (blank.setOpCode v).getOpCode = v >>> 1 :=
  forall_below (P := fun v => (blank.setOpCode v).getOpCode = v >>> 1) (by decide) hv

theorem blank_getResponseCode {v : UInt8} (hv : v.toNat < 16) :
    (blank.setResponseCode v).getResponseCode = v :=
  forall_below (P := fun v => (blank.setResponseCode v).getResponseCode = v) (by decide) hv

theorem flag_apply (f : Flag) (h : DnsHeader) (c : SetterCall) :
    f.get (c.apply h) = (c.flagGiven f).elim (f.get h) (f.put (f.get h)) := by
  rw [(added_apply h c).get f]
  cases c with
  | flag g v =>
    rw [SetterCall.apply, blank_flag, SetterCall.flagGiven]
    by_cases hg : g = f
    · by_cases hf : f = .checkingDisabled
      · simp [Flag.put, hg, hf]
      · simp [Flag.put, hg, hf]
    · simp [hg]
  | opCode v fits =>
    rw [SetterCall.apply, blank_opCode f (UInt8.lt_iff_toNat_lt.mp fits), Bool.or_false]
    rfl
  | responseCode v fits =>
    rw [SetterCall.apply, blank_responseCode f (UInt8.lt_iff_toNat_lt.mp fits), Bool.or_false]
    rfl

theorem opCode_apply (h : DnsHeader) (c : SetterCall) : (c.apply h).getOpCode =
    c.opCodeGiven.elim h.getOpCode (opCodePut h.getOpCode) := by
  rw [(added_apply h c).getOpCode]
  cases c with
  | flag g v =>
    rw [SetterCall.apply, (blank_codes g v).1, UInt8.or_zero]
    rfl
  | opCode v fits =>
    rw [SetterCall.apply, blank_getOpCode (UInt8.lt_iff_toNat_lt.mp fits)]
    rfl
  | responseCode v _ =>
    have hzero : (blank.setResponseCode v).getOpCode = 0 := by
      change (0 : UInt8) >>> 4 &&& 7 = 0
      decide
    rw [SetterCall.apply, hzero, UInt8.or_zero]
    rfl

theorem responseCode_apply (h : DnsHeader) (c : SetterCall) : (c.apply h).getResponseCode =
    c.responseCodeGiven.elim h.getResponseCode (h.getResponseCode ||| ·) := by
  rw [(added_apply h c).getResponseCode]
  cases c with
  | flag g v =>
    rw [SetterCall.apply, (blank_codes g v).2, UInt8.or_zero]
    rfl
  | opCode v _ =>
    have hzero : (blank.setOpCode v).getResponseCode = 0 := by
      change (0 : UInt8) &&& 15 = 0
      decide
    rw [SetterCall.apply, hzero, UInt8.or_zero]
    rfl
  | responseCode v fits =>
    rw [SetterCall.apply, blank_getResponseCode (UInt8.lt_iff_toNat_lt.mp fits)]
    rfl

/-- When a flag reads back, in terms of its bit in the first bytes and of the values given to
it. No call clears a bit, and GetCheckingDisabled reads a bit that no call sets. -/
def Flag.Kept (h : DnsHeader) (given : List Bool) (f : Flag) : Prop :=
  if f = .checkingDisabled then ∀ v, given.getLast? = some v → v = f.get h
  else given.getLast? = some false → f.get h = false ∧ true ∉ given

theorem checking_readsBack_iff (b : Bool) (given : List Bool) :
    ReadsBack b b given ↔ ∀ v, given.getLast? = some v → v = b := by
  rw [ReadsBack]
  cases given.getLast? with
  | none => simp
  | some v => simp [eq_comm]

theorem or_readsBack_iff (b : Bool) (given : List Bool) :
    ReadsBack b (given.foldl (· || ·) b) given ↔
      (given.getLast? = some false → b = false ∧ true ∉ given) := by
  rw [ReadsBack, foldl_eq_last_iff]
  constructor
  · intro hall hlast
    obtain ⟨hb, hgiven⟩ := hall false hlast
    refine ⟨by simpa using hb, ?_⟩
    intro hmem
    cases hgiven true hmem
  · intro hkept v hlast
    cases v with
    | true => exact ⟨Bool.or_true b, fun w _ => Bool.or_true w⟩
    | false =>
      obtain ⟨rfl, hnot⟩ := hkept hlast
      refine ⟨rfl, ?_⟩
      intro w hw
      cases w with
      | false => rfl
      | true => exact absurd hw hnot

theorem flag_readsBack_iff (f : Flag) (h : DnsHeader) (calls : List SetterCall) :
    ReadsBack (f.get h) (f.get (calls.foldl SetterCall.apply h))
      (calls.filterMap (SetterCall.flagGiven f)) ↔
        f.Kept h (calls.filterMap (SetterCall.flagGiven f)) := by
  have hrun : f.get (calls.foldl SetterCall.apply h) =
      (calls.filterMap (SetterCall.flagGiven f)).foldl f.put (f.get h) :=
    view_run (fun h => f.get h) (flag_apply f) h calls
  rw [hrun, Flag.Kept]
  by_cases hf : f = .checkingDisabled
  · have hput : ∀ old v, f.put old v = old := fun old v => if_pos hf
    rw [if_pos hf, List.foldl_fixed' (hput (f.get h))]
    exact checking_readsBack_iff _ _
  · have hput : f.put = (· || ·) := by
      funext old v
      exact if_neg hf
    rw [if_neg hf, hput]
    exact or_readsBack_iff _ _

/-- A response code reads back when the last one has every bit set that the first bytes or
any code given have set. -/
def ResponseCodeKept (h : DnsHeader) (given : List UInt8) : Prop :=
  ∀ v, given.getLast? = some v → h.getResponseCode ||| v = v ∧ ∀ w ∈ given, w ||| v = v

theorem responseCode_readsBack_iff (h : DnsHeader) (calls : List SetterCall) :
    ReadsBack h.getResponseCode (calls.foldl SetterCall.apply h).getResponseCode
      (calls.filterMap SetterCall.responseCodeGiven) ↔
        ResponseCodeKept h (calls.filterMap SetterCall.responseCodeGiven) := by
  have hrun : (calls.foldl SetterCall.apply h).getResponseCode =
      (calls.filterMap SetterCall.responseCodeGiven).foldl (· ||| ·) h.getResponseCode :=
    view_run DnsHeader.getResponseCode responseCode_apply h calls
  rw [hrun, ReadsBack, foldl_eq_last_iff, ResponseCodeKept]

theorem getOpCode_le (h : DnsHeader) : h.getOpCode ≤ 7 := UInt8.and_le_right

theorem opCodeGiven_lt {v : UInt8} {calls : List SetterCall}
    (hv : v ∈ calls.filterMap SetterCall.opCodeGiven) : v < 16 := by
  obtain ⟨c, _, hc⟩ := List.mem_filterMap.mp hv
  cases c with
  | flag f v => cases hc
  | opCode v fits =>
    cases hc
    exact fits
  | responseCode v _ => cases hc

/- The codes whose set bits are the lowest ones. -/
def Ones (m : UInt8) : Prop := m = 0 ∨ m = 1 ∨ m = 3 ∨ m = 7

theorem or_lt_two_pow_iff {a b : Nat} (k : Nat) : a ||| b < 2 ^ k ↔ a < 2 ^ k ∧ b < 2 ^ k := by
  constructor
  · exact fun h => ⟨Nat.left_le_or.trans_lt h, Nat.right_le_or.trans_lt h⟩
  · exact fun h => Nat.or_lt_two_pow h.1 h.2

theorem or_le_ones {m : UInt8} (hm : Ones m) (a b : UInt8) : a ||| b ≤ m ↔ a ≤ m ∧ b ≤ m := by
  have hpow : ∃ k, m.toNat + 1 = 2 ^ k := by
    obtain rfl | rfl | rfl | rfl := hm
    · exact ⟨0, rfl⟩
    · exact ⟨1, rfl⟩
    · exact ⟨2, rfl⟩
    · exact ⟨3, rfl⟩
  obtain ⟨k, hk⟩ := hpow
  have hiff := or_lt_two_pow_iff (a := a.toNat) (b := b.toNat) k
  simp only [UInt8.le_iff_toNat_le, UInt8.toNat_or]
  omega

theorem toNat_half (w : UInt8) : (w >>> 1).toNat = w.toNat / 2 := by
  rw [UInt8.toNat_shiftRight]
  exact Nat.shiftRight_eq_div_pow w.toNat 1

theorem half_le_ones {m : UInt8} (hm : Ones m) (w : UInt8) : w >>> 1 ≤ m ↔ w ≤ 2 * m + 1 := by
  rw [UInt8.le_iff_toNat_le, UInt8.le_iff_toNat_le, toNat_half]
  obtain rfl | rfl | rfl | rfl := hm <;> exact Nat.div_le_iff_le_mul_add_pred (by decide)

theorem foldl_le_ones {m : UInt8} (hm : Ones m) (b : UInt8) (given : List UInt8) :
    given.foldl opCodePut b ≤ m ↔ b ≤ m ∧ ∀ w ∈ given, w ≤ 2 * m + 1 := by
  refine foldl_iff (P := (· ≤ m)) ?_ b given
  intro x w
  rw [opCodePut, or_le_ones hm, half_le_ones hm]

theorem foldl_or_half (b : UInt8) {v : UInt8} {given : List UInt8} (hv : v ∈ given) :
    given.foldl opCodePut b ||| v >>> 1 = given.foldl opCodePut b := by
  have hkeep : ∀ x w, x ||| v >>> 1 = x → opCodePut x w ||| v >>> 1 = opCodePut x w := by
    intro x w hx
    rw [opCodePut, op_swap (fun a b : UInt8 => a ||| b), hx]
  have hput : ∀ x, opCodePut x v ||| v >>> 1 = opCodePut x v := by
    intro x
    rw [opCodePut, UInt8.or_assoc, UInt8.or_self]
  exact foldl_of_mem hkeep hput b hv

/-- When an opcode reads back. SetOpCode writes a bit lower than GetOpCode reads, so the code
read is half of what was written: the last code must be one that its own half does not leave
out of, and its highest bit must come from the first bytes or from a larger code. -/
def OpCodeKept (h : DnsHeader) (given : List UInt8) : Prop :=
  ∀ v, given.getLast? = some v → Ones v ∧ h.getOpCode ≤ v ∧ (∀ w ∈ given, w ≤ 2 * v + 1) ∧
    (v = 0 ∨ v < 2 * h.getOpCode ∨ ∃ w ∈ given, v < w)

theorem ones_of_half {v : UInt8} (hv : v ≤ 7) (hself : v ||| v >>> 1 = v) : Ones v := by
  have hlt : v.toNat < 8 := Nat.lt_succ_of_le (UInt8.le_iff_toNat_le.mp hv)
  refine forall_below (P := fun v => v ||| v >>> 1 = v → Ones v) ?_ hlt hself
  unfold Ones
  decide

theorem Ones.half {v : UInt8} (hv : Ones v) : Ones (v >>> 1) := by
  obtain rfl | rfl | rfl | rfl := hv
  · exact .inl rfl
  · exact .inl rfl
  · exact .inr (.inl rfl)
  · exact .inr (.inr (.inl rfl))

theorem Ones.double_half {v : UInt8} (hv : Ones v) (hne : v ≠ 0) : (2 : UInt8) * (v >>> 1) + 1 = v := by
  obtain rfl | rfl | rfl | rfl := hv
  · exact absurd rfl hne
  · rfl
  · rfl
  · rfl

theorem Ones.not_le_half {v : UInt8} (hv : Ones v) (hne : v ≠ 0) : ¬ v ≤ v >>> 1 := by
  obtain rfl | rfl | rfl | rfl := hv
  · exact absurd rfl hne
  all_goals decide

theorem lt_double {v b : UInt8} (hv : Ones v) (hne : v ≠ 0) (hb : b ≤ 7) :
    v < 2 * b ↔ ¬ b ≤ v >>> 1 := by
  have hlt : b.toNat < 8 := Nat.lt_succ_of_le (UInt8.le_iff_toNat_le.mp hb)
  refine forall_below (P := fun b => v < 2 * b ↔ ¬ b ≤ v >>> 1) ?_ hlt
  obtain rfl | rfl | rfl | rfl := hv
  · exact absurd rfl hne
  all_goals decide

theorem eq_ones {v x : UInt8} (hv : Ones v) (hle : x ≤ v) (hlt : v ≠ 0 → ¬ x ≤ v >>> 1)
    (hhalf : x ||| v >>> 1 = x) : x = v := by
  have hle' : v.toNat < 8 := by
    obtain rfl | rfl | rfl | rfl := hv <;> decide
  have hlt' : x.toNat < 8 := Nat.lt_of_le_of_lt (UInt8.le_iff_toNat_le.mp hle) hle'
  revert hle hlt hhalf
  refine forall_below (P := fun x => x ≤ v → (v ≠ 0 → ¬ x ≤ v >>> 1) → x ||| v >>> 1 = x → x = v)
    ?_ hlt'
  obtain rfl | rfl | rfl | rfl := hv <;> decide

/- The largest value above m is in the first code or among those given. -/
theorem not_foldl_le_half {v b : UInt8} {given : List UInt8} (hv : Ones v) (hne : v ≠ 0)
    (hb : b ≤ 7) : ¬ given.foldl opCodePut b ≤ v >>> 1 ↔ v < 2 * b ∨ ∃ w ∈ given, v < w := by
  rw [foldl_le_ones hv.half, hv.double_half hne, lt_double hv hne hb, not_and_or]
  simp only [not_forall, UInt8.not_le, exists_prop]

theorem opCode_kept_iff {b : UInt8} {given : List UInt8} (hb : b ≤ 7) (hgiven : ∀ w ∈ given, w < 16)
    {v : UInt8} (hv : v ∈ given) : given.foldl opCodePut b = v ↔
      Ones v ∧ b ≤ v ∧ (∀ w ∈ given, w ≤ 2 * v + 1) ∧
        (v = 0 ∨ v < 2 * b ∨ ∃ w ∈ given, v < w) := by
  have hhalf := foldl_or_half b hv
  constructor
  · intro heq
    have hseven : given.foldl opCodePut b ≤ 7 := by
      refine (foldl_le_ones (.inr (.inr (.inr rfl))) b given).mpr ⟨hb, ?_⟩
      intro w hw
      have hlt := UInt8.lt_iff_toNat_lt.mp (hgiven w hw)
      exact UInt8.le_iff_toNat_le.mpr (Nat.le_of_lt_succ hlt)
    rw [heq] at hhalf hseven
    have hones := ones_of_half hseven hhalf
    obtain ⟨hfirst, hall⟩ := (foldl_le_ones hones b given).mp (heq ▸ UInt8.le_refl v)
    refine ⟨hones, hfirst, hall, ?_⟩
    by_cases hne : v = 0
    · exact .inl hne
    · refine .inr ((not_foldl_le_half hones hne hb).mp ?_)
      rw [heq]
      exact hones.not_le_half hne
  · rintro ⟨hones, hfirst, hall, htop⟩
    refine eq_ones hones ((foldl_le_ones hones b given).mpr ⟨hfirst, hall⟩) ?_ hhalf
    intro hne
    exact (not_foldl_le_half hones hne hb).mpr (htop.resolve_left hne)

theorem opCode_readsBack_iff (h : DnsHeader) (calls : List SetterCall) :
    ReadsBack h.getOpCode (calls.foldl SetterCall.apply h).getOpCode
      (calls.filterMap SetterCall.opCodeGiven) ↔
        OpCodeKept h (calls.filterMap SetterCall.opCodeGiven) := by
  have hrun : (calls.foldl SetterCall.apply h).getOpCode =
      (calls.filterMap SetterCall.opCodeGiven).foldl opCodePut h.getOpCode :=
    view_run DnsHeader.getOpCode opCode_apply h calls
  rw [hrun, ReadsBack, OpCodeKept]
  cases hlast : (calls.filterMap SetterCall.opCodeGiven).getLast? with
  | none =>
    rw [List.getLast?_eq_none_iff] at hlast
    rw [hlast]
    exact iff_of_true rfl nofun
  | some v =>
    have hiff := opCode_kept_iff (getOpCode_le h) (fun _ => opCodeGiven_lt) (List.mem_of_getLast? hlast)
    rw [Option.getD_some, hiff]
    constructor
    · intro hkept u hu
      cases hu
      exact hkept
    · exact fun hkept => hkept v rfl

/-- After any sequence of setter calls all fields read back if and only if every field that
was given a value is one of the kind that its condition describes. -/
theorem setters_readBack_iff (h : DnsHeader) (calls : List SetterCall) :
    FieldsReadBack h calls ↔
      (∀ f : Flag, f.Kept h (calls.filterMap (SetterCall.flagGiven f))) ∧
        OpCodeKept h (calls.filterMap SetterCall.opCodeGiven) ∧
        ResponseCodeKept h (calls.filterMap SetterCall.responseCodeGiven) := by
  rw [FieldsReadBack]
  exact and_congr (forall_congr' fun f => flag_readsBack_iff f h calls)
    (and_congr (opCode_readsBack_iff h calls) (responseCode_readsBack_iff h calls))

/-- On flag bytes of zero a flag set to false stays set, opcode 1 is read as 0, and a setter for
checking disabled sets another bit than the getter tests. -/
theorem setters_counterexample :
    ¬ FieldsReadBack blank [.flag .queryResponse true, .flag .queryResponse false] ∧
      ¬ FieldsReadBack blank [.opCode 1 (by decide)] ∧
      ¬ FieldsReadBack blank [.flag .checkingDisabled true] := by
  refine ⟨?_, ?_, ?_⟩
  · rintro ⟨hflags, _⟩
    have hflag := hflags .queryResponse
    revert hflag
    decide
  · rintro ⟨_, hopcode, _⟩
    revert hopcode
    decide
  · rintro ⟨hflags, _⟩
    have hflag := hflags .checkingDisabled
    revert hflag
    decide

end DnsWrapper.Dns
