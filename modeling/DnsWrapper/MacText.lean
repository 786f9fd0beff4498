import Mathlib.Data.Nat.Digits.Lemmas
import DnsWrapper.AddressText

/-! MAC addresses as text, and on which texts ToEthAddress does what its callers take from it.
Its pattern knows no digit f, and the test of the match is the wrong way round. -/
namespace DnsWrapper.Util
open BoundedRegex TextSplit NetCommon

/- One to n hexadecimal digits, and the number they write. -/
def HexGroup (n : Nat) (g : List Char) : Prop :=
  1 ≤ g.length ∧ g.length ≤ n ∧ ∀ c ∈ g, (hexValue c).isSome = true

instance (n : Nat) (g : List Char) : Decidable (HexGroup n g) :=
  -- over the characters of g, not over all characters
  let _ : Decidable (∀ c ∈ g, (hexValue c).isSome = true) := List.decidableBAll _ g
  inferInstanceAs (Decidable (_ ∧ _ ∧ _))

def hexNumber (g : List Char) : Nat := ofHexDigits (g.filterMap hexValue)

/- A digit f, of either case, in a text. -/
def WithF (text : List Char) : Prop := 'f' ∈ text ∨ 'F' ∈ text

instance (text : List Char) : Decidable (WithF text) := inferInstanceAs (Decidable (_ ∨ _))

/- Six groups of one or two digits with colons in between. -/
def MacText (s : List Char) : Prop :=
  (s.splitOn ':').length = 6 ∧ ∀ g ∈ s.splitOn ':', HexGroup 2 g

instance (s : List Char) : Decidable (MacText s) := inferInstanceAs (Decidable (_ ∧ _))

def macBytes (s : List Char) : List UInt8 :=
  (s.splitOn ':').map fun g => UInt8.ofNat (hexNumber g)

section Hex

theorem inRange_iff {lo hi c : Char} :
    inRange lo hi c = true ↔ lo.toNat ≤ c.toNat ∧ c.toNat ≤ hi.toNat := by
  rw [inRange, Bool.and_eq_true, decide_eq_true_eq, decide_eq_true_eq]
  exact Iff.rfl

theorem hexValue_isSome {c : Char} : (hexValue c).isSome = true ↔
    inRange '0' '9' c = true ∨ inRange 'a' 'f' c = true ∨ inRange 'A' 'F' c = true := by
  rw [hexValue]
  split_ifs <;> simp [*]

theorem hexValue_lt {c : Char} {d : Nat} (h : hexValue c = some d) : d < 16 := by
  rw [hexValue] at h
  simp only [inRange_iff, Char.reduceToNat] at h
  split_ifs at h <;> cases h <;> omega

/- The digits of the pattern are the hexadecimal ones but f. -/
theorem mem_hex {c : Char} :
    (inRange '0' '9' c || inRange 'a' 'e' c || inRange 'A' 'E' c) = true ↔
      (hexValue c).isSome = true ∧ c ≠ 'f' ∧ c ≠ 'F' := by
  have heq : ∀ d : Char, c = d ↔ c.toNat = d.toNat := fun d => Char.toNat_inj.symm
  simp only [Bool.or_eq_true, hexValue_isSome, inRange_iff, ne_eq, heq, Char.reduceToNat]
  omega

theorem mem_lang_hex {n : Nat} (hn : 1 ≤ n) {g : List Char} :
    g ∈ (hex.between 1 n).lang ↔ HexGroup n g ∧ ¬ WithF g := by
  rw [hex, Regex.mem_lang_between_cls hn, HexGroup, WithF]
  simp only [mem_hex]
  constructor
  · rintro ⟨hlow, hhigh, hall⟩
    refine ⟨⟨hlow, hhigh, fun c hc => (hall c hc).1⟩, ?_⟩
    rintro (hmem | hmem)
    · exact (hall 'f' hmem).2.1 rfl
    · exact (hall 'F' hmem).2.2 rfl
  · rintro ⟨⟨hlow, hhigh, hall⟩, hno⟩
    refine ⟨hlow, hhigh, fun c hc => ⟨hall c hc, ?_, ?_⟩⟩
    · rintro rfl
      exact hno (.inl hc)
    · rintro rfl
      exact hno (.inr hc)

theorem over_between_hex (n : Nat) : Regex.Over (· ≠ ':') (hex.between 1 n) := by
  apply Regex.over_between
  intro c hc
  rintro rfl
  exact absurd hc (by decide)

theorem withF_iff {s : List Char} : WithF s ↔ ∃ g ∈ s.splitOn ':', WithF g := by
  rw [WithF, mem_pieces (by decide : 'f' ≠ ':'), mem_pieces (by decide : 'F' ≠ ':'), ← exists_or]
  simp only [WithF, and_or_left]

/-- Groups with colons in between match the pattern if no digit is f. -/
theorem mem_lang_groups {n k : Nat} (hn : 1 ≤ n) {s : List Char} :
    s ∈ Regex.lang (.seq (hex.between 1 n) (Regex.times (.seq (ch ':') (hex.between 1 n)) k)) ↔
      ((s.splitOn ':').length = k + 1 ∧ ∀ g ∈ s.splitOn ':', HexGroup n g) ∧ ¬ WithF s := by
  rw [ch, Regex.mem_lang_separated (over_between_hex n), withF_iff, not_exists, and_assoc]
  simp only [mem_lang_hex hn, not_and, ← forall_and]

theorem ethRegex_iff (s : List Char) :
    ethRegex.regexMatch s = true ↔ MacText s ∧ ¬ WithF s := by
  rw [Regex.regexMatch_iff]
  exact mem_lang_groups (by decide)

end Hex

section Number

theorem hexDigits_of_digits {g : List Char} (h : ∀ c ∈ g, (hexValue c).isSome = true) :
    hexDigits g = g.filterMap hexValue := by
  induction g with
  | nil => rfl
  | cons c g ih =>
    rw [List.forall_mem_cons] at h
    obtain ⟨d, hd⟩ := Option.isSome_iff_exists.mp h.1
    simp [hexDigits, hd, ih h.2]

theorem length_digits {g : List Char} (h : ∀ c ∈ g, (hexValue c).isSome = true) :
    (g.filterMap hexValue).length = g.length := by
  induction g with
  | nil => rfl
  | cons c g ih =>
    rw [List.forall_mem_cons] at h
    obtain ⟨d, hd⟩ := Option.isSome_iff_exists.mp h.1
    simp [hd, ih h.2]

theorem ofHexDigits_eq (ds : List Nat) : ofHexDigits ds = Nat.ofDigits 16 ds.reverse := by
  rw [ofHexDigits, Nat.ofDigits_eq_foldr, List.foldr_reverse]
  simp only [Nat.cast_id]
  congr
  funext n d
  omega

theorem hexNumber_lt {n : Nat} {g : List Char} (h : HexGroup n g) : hexNumber g < 16 ^ n := by
  have hds : ∀ d ∈ g.filterMap hexValue, d < 16 := by
    intro d hd
    obtain ⟨c, _, hc⟩ := List.mem_filterMap.mp hd
    exact hexValue_lt hc
  have hlt : Nat.ofDigits 16 (g.filterMap hexValue).reverse < 16 ^ g.length := by
    rw [← length_digits h.2.2, ← List.length_reverse]
    exact Nat.ofDigits_lt_base_pow_length (by decide) fun d hd => hds d (List.mem_reverse.mp hd)
  rw [hexNumber, ofHexDigits_eq]
  exact hlt.trans_le (Nat.pow_le_pow_right (by decide) h.2.1)

theorem not_mem_digits {g : List Char} (hall : ∀ c ∈ g, (hexValue c).isSome = true) (d : Char)
    (hd : (hexValue d).isSome = false) : d ∉ g := by
  intro hmem
  rw [hall d hmem] at hd
  cases hd

/- Before digits there is no blank, sign or 0x to skip. -/
theorem dropWhile_isSpace_digits {g : List Char} (hall : ∀ c ∈ g, (hexValue c).isSome = true) :
    g.dropWhile isSpace = g := by
  cases g with
  | nil => rfl
  | cons c cs =>
    apply List.dropWhile_cons_of_neg
    simp only [isSpace, Bool.or_eq_true, decide_eq_true_eq]
    rintro (((((rfl | rfl) | rfl) | rfl) | rfl) | rfl) <;>
      exact not_mem_digits hall _ (by decide) List.mem_cons_self

theorem magnitude_digits {g : List Char} (hall : ∀ c ∈ g, (hexValue c).isSome = true) :
    magnitude g = hexDigits g := by
  unfold magnitude
  split
  next x rest =>
    have hx : ¬ (x = 'x' ∨ x = 'X') := by
      rintro (rfl | rfl)
      · exact not_mem_digits hall 'x' (by decide) (by simp)
      · exact not_mem_digits hall 'X' (by decide) (by simp)
    rw [if_neg fun h => hx h.1]
  next => rfl

theorem signed_digits {g : List Char} (hall : ∀ c ∈ g, (hexValue c).isSome = true) :
    signed g = (1, hexDigits g) := by
  unfold signed
  split
  next => exact absurd List.mem_cons_self (not_mem_digits hall '-' (by decide))
  next => exact absurd List.mem_cons_self (not_mem_digits hall '+' (by decide))
  next => rw [magnitude_digits hall]

/-- A group of at most two digits is read as the number it writes. -/
theorem stoi_group {g : List Char} (h : HexGroup 2 g) : stoi g = .ok (hexNumber g : Int) := by
  have hlt := hexNumber_lt h
  obtain ⟨hne, hlen, hall⟩ := h
  have hds := hexDigits_of_digits hall
  have hpos : 0 < (g.filterMap hexValue).length := by rw [length_digits hall]; exact hne
  simp only [stoi, dropWhile_isSpace_digits hall, signed_digits hall, hds, Int.one_mul]
  rw [if_neg (List.ne_nil_of_length_pos hpos), if_neg (by unfold hexNumber at hlt; omega)]
  rfl

theorem ofInt_group {g : List Char} (h : HexGroup 2 g) :
    UInt8.ofInt (hexNumber g : Int) = UInt8.ofNat (hexNumber g) := by
  have hlt := hexNumber_lt h
  have hmod : ((hexNumber g : Int) % 2 ^ 8).toNat = hexNumber g := by omega
  rw [UInt8.ofInt, hmod]

end Number

section Store

/- A piece that std::stoi throws for. -/
def Refused (token : List Char) : Prop := (stoi token).isOk = false

instance (token : List Char) : Decidable (Refused token) := inferInstanceAs (Decidable (_ = _))

theorem stoi_ne_overrun (token : List Char) : stoi token ≠ .error .overrun := by
  simp only [stoi]
  split_ifs <;> nofun

/- What becomes of the loop, from the i-th byte on: the first piece that is refused throws, a
   piece for the seventh byte is stored behind the array. -/
theorem storeTokens_refused {ts : List (List Char)} {i : Nat} (hi : i ≤ 6) (address : EthAddress)
    (h : ∃ t ∈ ts.take (7 - i), Refused t) :
    ∃ e, e ≠ .overrun ∧ storeTokens ts i address = .error e := by
  induction ts generalizing i address with
  | nil => simp at h
  | cons t ts ih =>
    obtain ⟨n, hn⟩ : ∃ n, 7 - i = n + 1 := ⟨6 - i, by omega⟩
    rw [hn, List.take_succ_cons] at h
    rw [storeTokens]
    cases hstoi : stoi t with
    | error e => exact ⟨e, fun he => stoi_ne_overrun t (he ▸ hstoi), rfl⟩
    | ok v =>
      obtain ⟨u, hu, hrefused⟩ := h
      rw [List.mem_cons] at hu
      have hne : u ≠ t := by
        rintro rfl
        rw [Refused, hstoi] at hrefused
        cases hrefused
      have hmem := hu.resolve_left hne
      have hlt : i < 6 := by
        by_contra hge
        rw [show n = 0 by omega, List.take_zero] at hmem
        cases hmem
      have hrest := ih (i := i + 1) hlt ⟨address.v.set i (UInt8.ofInt v)⟩
        ⟨u, by rwa [show 7 - (i + 1) = n by omega], hrefused⟩
      simpa [bind, Except.bind, hlt] using hrest

theorem storeTokens_overrun {ts : List (List Char)} {i : Nat} (hi : i ≤ 6) (address : EthAddress)
    (hread : ∀ t ∈ ts.take (7 - i), ¬ Refused t) (hlen : 7 - i ≤ ts.length) :
    storeTokens ts i address = .error .overrun := by
  induction ts generalizing i address with
  | nil =>
    rw [List.length_nil] at hlen
    omega
  | cons t ts ih =>
    rw [List.length_cons] at hlen
    obtain ⟨n, hn⟩ : ∃ n, 7 - i = n + 1 := ⟨6 - i, by omega⟩
    rw [hn, List.take_succ_cons, List.forall_mem_cons] at hread
    rw [storeTokens]
    cases hstoi : stoi t with
    | error e => exact absurd (by rw [Refused, hstoi]; rfl) hread.1
    | ok v =>
      by_cases hlt : i < 6
      · have hrest := ih (i := i + 1) hlt ⟨address.v.set i (UInt8.ofInt v)⟩
          (by rw [show 7 - (i + 1) = n by omega]; exact hread.2) (by omega)
        simpa [bind, Except.bind, hlt] using hrest
      · simp [bind, Except.bind, hlt]

theorem storeTokens_ok {ts : List (List Char)} {i : Nat} (address : EthAddress)
    (hread : ∀ t ∈ ts, ¬ Refused t) (hlen : i + ts.length ≤ 6) :
    ∃ stored, storeTokens ts i address = .ok stored := by
  induction ts generalizing i address with
  | nil => exact ⟨address, rfl⟩
  | cons t ts ih =>
    rw [List.length_cons] at hlen
    rw [List.forall_mem_cons] at hread
    rw [storeTokens]
    cases hstoi : stoi t with
    | error e => exact absurd (by rw [Refused, hstoi]; rfl) hread.1
    | ok v =>
      have hlt : i < 6 := by omega
      have hrest := ih (i := i + 1) ⟨address.v.set i (UInt8.ofInt v)⟩ hread.2 (by omega)
      simpa [bind, Except.bind, hlt] using hrest

/- The byte that a piece is stored as. -/
def pieceByte (token : List Char) : UInt8 :=
  match stoi token with
  | .ok v => UInt8.ofInt v
  | .error _ => 0

/-- The bytes that have a piece are those of the pieces; the others are left as they were. -/
theorem storeTokens_bytes {ts : List (List Char)} {i : Nat} {address stored : EthAddress}
    (h : storeTokens ts i address = .ok stored) :
    (i ≤ 6 → i + ts.length ≤ 6) ∧ ∀ j (hj : j < 6), stored.v[j] =
      if i ≤ j ∧ j < i + ts.length then pieceByte (ts.getD (j - i) []) else address.v[j] := by
  induction ts generalizing i address with
  | nil =>
    cases h
    exact ⟨id, fun j hj => by rw [if_neg (by simp)]⟩
  | cons t ts ih =>
    rw [storeTokens] at h
    cases hstoi : stoi t with
    | error e =>
      rw [hstoi] at h
      cases h
    | ok v =>
      rw [hstoi] at h
      by_cases hi : i < 6
      · simp only [bind, Except.bind, hi, ↓reduceDIte] at h
        obtain ⟨hlen, hbytes⟩ := ih h
        rw [List.length_cons]
        refine ⟨fun _ => by omega, fun j hj => ?_⟩
        rw [hbytes j hj]
        by_cases hji : j = i
        · subst hji
          rw [if_neg (by omega), if_pos (by omega), Nat.sub_self, List.getD_cons_zero, pieceByte,
            hstoi, Vector.getElem_set_self]
        · by_cases hin : i + 1 ≤ j ∧ j < i + 1 + ts.length
          · rw [if_pos hin, if_pos (by omega), show j - i = j - (i + 1) + 1 by omega,
              List.getD_cons_succ]
          · rw [if_neg hin, if_neg (by omega), Vector.getElem_set_ne _ _ (Ne.symm hji)]
      · simp only [bind, Except.bind, hi, ↓reduceDIte] at h
        cases h

/- Whether it returns, and what it throws, does not depend on the earlier contents. -/
theorem storeTokens_outcome (ts : List (List Char)) (i : Nat) (a b : EthAddress) :
    (storeTokens ts i a).map (fun _ => ()) = (storeTokens ts i b).map (fun _ => ()) := by
  induction ts generalizing i a b with
  | nil => rfl
  | cons t ts ih =>
    rw [storeTokens, storeTokens]
    cases stoi t with
    | error e => rfl
    | ok v =>
      by_cases hi : i < 6
      · simp only [bind, Except.bind, hi, ↓reduceDIte]
        exact ih _ _ _
      · simp only [bind, Except.bind, hi, ↓reduceDIte]

theorem getlines_mac {s : List Char} (h : MacText s) : getlines ':' s = s.splitOn ':' := by
  rw [getlines, if_neg]
  intro hlast
  have hshort := (h.2 [] (List.mem_of_getLast? hlast)).1
  cases hshort

/-- Six groups are stored as the six bytes they write. -/
theorem storeTokens_mac {s : List Char} (h : MacText s) (before : EthAddress) :
    ∃ stored, storeTokens (getlines ':' s) 0 before = .ok stored ∧
      stored.v.toList = macBytes s := by
  rw [getlines_mac h, macBytes]
  obtain ⟨hlen, hall⟩ := h
  obtain ⟨a, b, c, d, x, y, rfl⟩ := before.exists_six
  match hgs : s.splitOn ':', hlen with
  | [g₀, g₁, g₂, g₃, g₄, g₅], _ =>
    rw [hgs] at hall
    simp only [List.forall_mem_cons] at hall
    obtain ⟨h₀, h₁, h₂, h₃, h₄, h₅, _⟩ := hall
    simp [storeTokens, stoi_group, h₀, h₁, h₂, h₃, h₄, h₅, bind, Except.bind, ofInt_group]

end Store

/-- What a caller takes from ToEthAddress: it returns 1 for the texts of MAC addresses and no
other, the bytes are then those of the text, and nothing is stored behind them. -/
structure ReadsMac (s : List Char) (before : EthAddress) : Prop where
  accepts : (∃ a, toEthAddress s before = .ok (1, a)) ↔ MacText s
  bytes : ∀ a, toEthAddress s before = .ok (1, a) → a.v.toList = macBytes s
  inside : toEthAddress s before ≠ .error .overrun

theorem readsMac_of_mac {s : List Char} (before : EthAddress) (h : MacText s) :
    ReadsMac s before ↔ WithF s := by
  obtain ⟨stored, hstored, hbytes⟩ := storeTokens_mac h before
  by_cases hf : WithF s
  · refine iff_of_true ?_ hf
    have heq : toEthAddress s before = .ok (1, stored) := by
      rw [toEthAddress, if_neg fun hm => ((ethRegex_iff s).mp hm).2 hf, hstored]
      rfl
    constructor
    · exact iff_of_true ⟨stored, heq⟩ h
    · intro a ha
      cases heq.symm.trans ha
      exact hbytes
    · rw [heq]
      exact fun h => by cases h
  · refine iff_of_false (fun hreads => ?_) hf
    obtain ⟨a, ha⟩ := hreads.accepts.mpr h
    rw [toEthAddress, if_pos ((ethRegex_iff s).mpr ⟨h, hf⟩)] at ha
    cases ha

theorem readsMac_of_other {s : List Char} (before : EthAddress) (h : ¬ MacText s) :
    ReadsMac s before ↔ ∃ t ∈ (getlines ':' s).take 7, Refused t := by
  have heq : toEthAddress s before =
      (storeTokens (getlines ':' s) 0 before >>= fun a => pure (1, a)) := by
    rw [toEthAddress, if_neg fun hm => h ((ethRegex_iff s).mp hm).1]
  by_cases hrefused : ∃ t ∈ (getlines ':' s).take 7, Refused t
  · refine iff_of_true ?_ hrefused
    obtain ⟨e, hne, he⟩ := storeTokens_refused (by decide : 0 ≤ 6) before hrefused
    rw [he] at heq
    constructor
    · refine iff_of_false ?_ h
      rintro ⟨a, ha⟩
      cases heq.symm.trans ha
    · intro a ha
      cases heq.symm.trans ha
    · rw [heq]
      rintro ⟨⟩
      exact hne rfl
  · refine iff_of_false (fun hreads => ?_) hrefused
    push Not at hrefused
    by_cases hlen : 7 ≤ (getlines ':' s).length
    · rw [storeTokens_overrun (by decide : 0 ≤ 6) before hrefused hlen] at heq
      exact hreads.inside heq
    · have hall : ∀ t ∈ getlines ':' s, ¬ Refused t := by
        rwa [List.take_of_length_le (by omega)] at hrefused
      obtain ⟨stored, hstored⟩ := storeTokens_ok (i := 0) before hall (by omega)
      rw [hstored] at heq
      exact h (hreads.accepts.mp ⟨stored, heq⟩)

/-- ToEthAddress does so for the text of a MAC address exactly if one of its digits is f, and for
another text exactly if one of its first seven pieces is no number to std::stoi, which throws. So
a printed address is read back exactly if one of its digits is f. -/
theorem readsMac_iff (s : List Char) (e before : EthAddress) :
    (ReadsMac s before ↔
      if MacText s then WithF s else ∃ t ∈ (getlines ':' s).take 7, Refused t) ∧
    (toEthAddress (ethAddressToString e) before = .ok (1, e) ↔ MacHasF e) := by
  constructor
  · split_ifs with h
    · exact readsMac_of_mac before h
    · exact readsMac_of_other before h
  · rw [toEthAddress_printed]
    split_ifs with hf
    · exact iff_of_true rfl hf
    · exact iff_of_false nofun hf

/- An address without the digit f. -/
def plainMac : EthAddress := sampleMachine

/-- The text of an address without the digit f is refused; a text of two groups is accepted; one
of seven groups is written behind the address. -/
theorem plain_mac_refused :
    MacText (ethAddressToString plainMac) ∧
    toEthAddress (ethAddressToString plainMac) ⟨Vector.replicate 6 0⟩ =
      .ok (-1, ⟨Vector.replicate 6 0⟩) ∧
    ¬ ReadsMac (ethAddressToString plainMac) ⟨Vector.replicate 6 0⟩ ∧
    ¬ MacText "1:2".toList ∧
    toEthAddress "1:2".toList ⟨Vector.replicate 6 0⟩ = .ok (1, ⟨#v[1, 2, 0, 0, 0, 0]⟩) ∧
    toEthAddress "0:1:2:3:4:5:6".toList ⟨Vector.replicate 6 0⟩ = .error .overrun := by
  have hmac : MacText (ethAddressToString plainMac) := by decide +kernel
  have hno : ¬ WithF (ethAddressToString plainMac) := by decide +kernel
  refine ⟨hmac, by decide +kernel, ?_, by decide +kernel, by decide +kernel, by decide +kernel⟩
  rw [readsMac_of_mac _ hmac]
  exact hno

end DnsWrapper.Util
