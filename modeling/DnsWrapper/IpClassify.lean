import DnsWrapper.InetText

/-! The patterns of GetIpAddressType against the texts of addresses. The dots in the one for IPv4
match any character, and the one for IPv6 knows eight groups without a digit f. -/
namespace DnsWrapper.Util
open BoundedRegex TextSplit NetCommon

section Patterns

theorem exists_dotted {s : List Char} (h : Ipv4Text s) : ∃ v, s = dotted v := by
  obtain ⟨hlen, hall⟩ := h
  have hjoin : List.intercalate ['.'] (s.splitOn '.') = s := List.intercalate_splitOn '.'
  obtain ⟨a, b, c, d, hgs⟩ := List.length_eq_four.mp hlen
  rw [hgs] at hall hjoin
  simp only [List.forall_mem_cons] at hall
  obtain ⟨⟨p, hp, rfl⟩, ⟨q, hq, rfl⟩, ⟨r, hr, rfl⟩, ⟨t, ht, rfl⟩, _⟩ := hall
  refine ⟨#v[UInt8.ofNat p, UInt8.ofNat q, UInt8.ofNat r, UInt8.ofNat t], ?_⟩
  rw [← hjoin]
  simp [dotted, List.intercalate, Nat.mod_eq_of_lt hp, Nat.mod_eq_of_lt hq, Nat.mod_eq_of_lt hr,
    Nat.mod_eq_of_lt ht]

theorem ipRegex4_of_ipv4 {s : List Char} (h : Ipv4Text s) : ipRegex4.regexMatch s = true := by
  obtain ⟨v, rfl⟩ := exists_dotted h
  exact ipRegex4_dotted v

theorem le_of_writes {n : Nat} {gs : List (List Char)} (h : Writes n gs) : n ≤ gs.length + 1 := by
  induction h with
  | nil => exact Nat.zero_le _
  | quad => exact Nat.le_refl 2
  | cons _ _ ih => exact Nat.succ_le_succ ih

/-- A text of an IPv6 address has two colons side by side, or six at least. -/
theorem colons_of_ipv6 {s : List Char} (h : Ipv6Text s) :
    [':', ':'] <:+: s ∨ 6 ≤ s.count ':' := by
  cases h with
  | inl hwhole =>
    have hle := le_of_writes hwhole
    rw [length_pieces] at hle
    exact .inr (by omega)
  | inr hgap =>
    obtain ⟨l, r, _, _, rfl, _⟩ := hgap
    exact .inl ⟨l, r, by simp⟩

theorem ipRegex4_of_ipv6 {s : List Char} (h : Ipv6Text s) : ipRegex4.regexMatch s = false := by
  apply ipRegex4_colons
  exact (colons_of_ipv6 h).imp_right fun hsix => by omega

/- One to three decimal digits that write at most 255. -/
def LooseOctet (w : List Char) : Prop :=
  1 ≤ w.length ∧ w.length ≤ 3 ∧ (∀ c ∈ w, inRange '0' '9' c = true) ∧
    Nat.ofDigitChars 10 w 0 ≤ 255

/- Four of them with any three characters in between that do not end a line. -/
def LooseQuad (s : List Char) : Prop :=
  ∃ a x b y c z d, s = a ++ x :: (b ++ y :: (c ++ z :: d)) ∧
    (LooseOctet a ∧ LooseOctet b ∧ LooseOctet c ∧ LooseOctet d) ∧
    ∀ e ∈ [x, y, z], e ≠ '\n' ∧ e ≠ '\r'

theorem looseOctet_two {a b : Char} : LooseOctet [a, b] ↔
    (inRange '0' '9' a = true ∧ inRange '0' '9' b = true) ∧
      10 * (a.toNat - 48) + (b.toNat - 48) ≤ 255 := by
  simp [LooseOctet, Nat.ofDigitChars_eq_foldl]

theorem looseOctet_three {a b c : Char} : LooseOctet [a, b, c] ↔
    (inRange '0' '9' a = true ∧ inRange '0' '9' b = true ∧ inRange '0' '9' c = true) ∧
      10 * (10 * (a.toNat - 48) + (b.toNat - 48)) + (c.toNat - 48) ≤ 255 := by
  simp [LooseOctet, Nat.ofDigitChars_eq_foldl]

theorem octet_two {a b : Char} : octet.regexMatch [a, b] = true ↔
    inRange '0' '1' a = true ∧ inRange '0' '9' b = true ∨
      inRange '0' '9' a = true ∧ inRange '0' '9' b = true := by
  simp [octet, Regex.regexMatch, Regex.rests, Regex.opt, ch, digit]

theorem octet_three {a b c : Char} : octet.regexMatch [a, b, c] = true ↔
    a = '2' ∧ b = '5' ∧ inRange '0' '5' c = true ∨
      a = '2' ∧ inRange '0' '4' b = true ∧ inRange '0' '9' c = true ∨
        inRange '0' '1' a = true ∧ inRange '0' '9' b = true ∧ inRange '0' '9' c = true := by
  simp [octet, Regex.regexMatch, Regex.rests, Regex.opt, ch, digit]

theorem mem_octet {w : List Char} : w ∈ octet.lang ↔ LooseOctet w := by
  have heq : ∀ c d : Char, c = d ↔ c.toNat = d.toNat := fun c d => Char.toNat_inj.symm
  rw [← Regex.regexMatch_iff]
  match w with
  | [] => simp [LooseOctet, octet, Regex.regexMatch, Regex.rests, Regex.opt, ch, digit]
  | [a] =>
    have hone : octet.regexMatch [a] = true ↔ inRange '0' '9' a = true := by
      simp [octet, Regex.regexMatch, Regex.rests, Regex.opt, ch, digit]
    have hloose : LooseOctet [a] ↔ inRange '0' '9' a = true ∧ a.toNat - 48 ≤ 255 := by
      simp [LooseOctet, Nat.ofDigitChars_eq_foldl]
    simp only [hone, hloose, inRange_iff, Char.reduceToNat]
    omega
  | [a, b] =>
    simp only [octet_two, looseOctet_two, inRange_iff, Char.reduceToNat]
    omega
  | [a, b, c] =>
    simp only [octet_three, looseOctet_three, inRange_iff, heq, Char.reduceToNat]
    omega
  | a :: b :: c :: d :: w =>
    simp [LooseOctet, octet, Regex.regexMatch, Regex.rests, Regex.opt, ch, digit]

theorem mem_anyChar {w : List Char} : w ∈ anyChar.lang ↔ ∃ e, (e ≠ '\n' ∧ e ≠ '\r') ∧ w = [e] := by
  simp [anyChar]

/-- The pattern for IPv4 addresses matches the loose quads. -/
theorem ipRegex4_iff {s : List Char} : ipRegex4.regexMatch s = true ↔ LooseQuad s := by
  rw [Regex.regexMatch_iff, ipRegex4, LooseQuad]
  simp only [Regex.mem_lang_seq, mem_octet, mem_anyChar]
  constructor
  · rintro ⟨a, ha, _, ⟨_, ⟨x, hx, rfl⟩, _, ⟨b, hb, _, ⟨_, ⟨y, hy, rfl⟩, _, ⟨c, hc, _,
      ⟨_, ⟨z, hz, rfl⟩, d, hd, rfl⟩, rfl⟩, rfl⟩, rfl⟩, rfl⟩, rfl⟩
    exact ⟨a, x, b, y, c, z, d, rfl, ⟨ha, hb, hc, hd⟩, by simp [hx, hy, hz]⟩
  · rintro ⟨a, x, b, y, c, z, d, rfl, ⟨ha, hb, hc, hd⟩, hsigns⟩
    simp only [List.forall_mem_cons] at hsigns
    obtain ⟨hx, hy, hz, _⟩ := hsigns
    exact ⟨a, ha, _, ⟨_, ⟨x, hx, rfl⟩, _, ⟨b, hb, _, ⟨_, ⟨y, hy, rfl⟩, _, ⟨c, hc, _,
      ⟨_, ⟨z, hz, rfl⟩, d, hd, rfl⟩, rfl⟩, rfl⟩, rfl⟩, rfl⟩, rfl⟩

/- Eight groups without a digit f. -/
theorem ipRegex6_iff {s : List Char} :
    ipRegex6.regexMatch s = true ↔ Groups 8 (s.splitOn ':') ∧ ¬ WithF s := by
  rw [Regex.regexMatch_iff]
  exact mem_lang_groups (by decide)

theorem ipv6_of_groups {s : List Char} (h : Groups 8 (s.splitOn ':')) : Ipv6Text s :=
  .inl (writes_of_groups h)

end Patterns

theorem cStr_of_notMem {s : List Char} (h : '\x00' ∉ s) : cStr s = s := uncomment_of_notMem h

section Posix
variable {inet : Inet} (hinet : inet.Posix) {s : List Char}
include hinet

theorem pton6_of_ipRegex4 (h : ipRegex4.regexMatch s = true) : inet.pton6 s = none := by
  rw [← Option.not_isSome_iff_eq_none, hinet.accepts6]
  intro htext
  rw [ipRegex4_of_ipv6 htext] at h
  cases h

theorem pton4_of_not_ipRegex4 (h : ipRegex4.regexMatch s = false) : inet.pton4 s = none := by
  rw [← Option.not_isSome_iff_eq_none, hinet.accepts4]
  intro htext
  rw [ipRegex4_of_ipv4 htext] at h
  cases h

end Posix

end DnsWrapper.Util

namespace DnsWrapper.Shm
open Util BoundedRegex NetCommon

/- The pattern for IPv4 alone decides; the one for IPv6 makes no difference here. -/
theorem parseIpAddress_eq (inet : Inet) (s optName : Token) (before : IpAddress) :
    parseIpAddress inet s optName before =
      match toIpAddress inet s (ipRegex4.regexMatch s) before with
      | some a => .ok (ipRegex4.regexMatch s, a)
      | none => .error (.thrown ⟨.invalidOptionValue, optName, s⟩) := by
  rw [parseIpAddress, getIpAddressType]
  cases ipRegex4.regexMatch s with
  | true => rfl
  | false => cases ipRegex6.regexMatch s <;> rfl

/-- parseIpAddress sends every address to the parser of its family: it succeeds as IPv4 exactly
for what inet_pton takes as IPv4, as IPv6 exactly for what it takes as IPv6, and throws for all
else, with the option and the text. -/
theorem parseIpAddress_family (inet : Inet) (hinet : inet.Posix) (s optName : Token)
    (before : IpAddress) (hs : '\x00' ∉ s) :
    ((∃ a, parseIpAddress inet s optName before = .ok (true, a)) ↔ (inet.pton4 s).isSome = true) ∧
    ((∃ a, parseIpAddress inet s optName before = .ok (false, a)) ↔ (inet.pton6 s).isSome = true) ∧
    (inet.pton4 s = none → inet.pton6 s = none → parseIpAddress inet s optName before =
      .error (.thrown ⟨.invalidOptionValue, optName, s⟩)) := by
  have hc := cStr_of_notMem hs
  rw [parseIpAddress_eq]
  cases hmatch : ipRegex4.regexMatch s with
  | true =>
    have hother := pton6_of_ipRegex4 hinet hmatch
    cases hread : inet.pton4 s <;> simp [toIpAddress, hc, hread, hother]
  | false =>
    have hother := pton4_of_not_ipRegex4 hinet hmatch
    cases hread : inet.pton6 s <;> simp [toIpAddress, hc, hread, hother]

/-- A dotted quad, an address with a gap and a quad in the end, and a text that only the pattern
takes for an address. -/
theorem parseIpAddress_family_texts :
    (∃ a, parseIpAddress posixInet "192.168.0.7".toList optionIp ⟨Vector.replicate 16 0⟩ =
      .ok (true, a)) ∧
    (∃ a, parseIpAddress posixInet "::ffff:1.2.3.4".toList optionIp ⟨Vector.replicate 16 0⟩ =
      .ok (false, a)) ∧
    parseIpAddress posixInet "1:2:3:4".toList optionIp ⟨Vector.replicate 16 0⟩ =
      .error (.thrown ⟨.invalidOptionValue, optionIp, "1:2:3:4".toList⟩) :=
  ⟨(parseIpAddress_family posixInet posixInet_posix _ optionIp _ (by decide)).1.mpr
      (by decide +kernel),
    (parseIpAddress_family posixInet posixInet_posix _ optionIp _ (by decide)).2.1.mpr
      (by decide +kernel),
    (parseIpAddress_family posixInet posixInet_posix _ optionIp _ (by decide)).2.2
      (by decide +kernel) (by decide +kernel)⟩

end DnsWrapper.Shm
