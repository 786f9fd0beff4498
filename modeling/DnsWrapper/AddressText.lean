import Mathlib.Data.List.Chain
import DnsWrapper.BoundedRegex
import DnsWrapper.TextSplit
import DnsWrapper.NetCommon

/-! Addresses as text: the patterns and conversions of util.cpp and unixutil.cpp. -/
namespace DnsWrapper.Util
open BoundedRegex TextSplit NetCommon

/- The patterns, piece by piece as the source puts them together. The unescaped dot stands
   for any character but a line terminator. -/
def inRange (lo hi c : Char) : Bool := lo ≤ c && c ≤ hi

def hex : Regex Char := .cls fun c => inRange '0' '9' c || inRange 'a' 'e' c || inRange 'A' 'E' c
def hexw : Regex Char := hex.between 1 2
def ch (c : Char) : Regex Char := .cls (· = c)
def digit : Regex Char := .cls (inRange '0' '9')
def anyChar : Regex Char := .cls fun c => c ≠ '\n' && c ≠ '\r'

def octet : Regex Char :=
  .alt (.seq (ch '2') (.seq (ch '5') (.cls (inRange '0' '5'))))
    (.alt (.seq (ch '2') (.seq (.cls (inRange '0' '4')) digit))
      (.seq (Regex.opt (.cls (inRange '0' '1'))) (.seq digit digit.opt)))

def ipRegex4 : Regex Char :=
  .seq octet (.seq anyChar (.seq octet (.seq anyChar (.seq octet (.seq anyChar octet)))))

def ipRegex6 : Regex Char := .seq (hex.between 1 4) (Regex.times (.seq (ch ':') (hex.between 1 4)) 7)

def ethRegex : Regex Char := .seq hexw (Regex.times (.seq (ch ':') hexw) 5)

inductive IpProtocolVersion where
  | ipv4 | ipv6 | none
  deriving DecidableEq

def getIpAddressType (host : List Char) : IpProtocolVersion :=
  if ipRegex4.regexMatch host then .ipv4
  else if ipRegex6.regexMatch host then .ipv6
  else .none

/- The ways in which ToEthAddress does not return: the exceptions of std::stoi, and a store
   behind the array. -/
inductive EthFault where
  | invalidArgument | outOfRange | overrun
  deriving DecidableEq

def isSpace (c : Char) : Bool :=
  c = ' ' || c = '\t' || c = '\n' || c = '\u000b' || c = '\u000c' || c = '\r'

def hexValue (c : Char) : Option Nat :=
  if inRange '0' '9' c then some (c.toNat - '0'.toNat)
  else if inRange 'a' 'f' c then some (c.toNat - 'a'.toNat + 10)
  else if inRange 'A' 'F' c then some (c.toNat - 'A'.toNat + 10)
  else none

/- The digits at the front of a text and the number they make. -/
def hexDigits : List Char → List Nat
  | [] => []
  | c :: cs => match hexValue c with
    | some d => d :: hexDigits cs
    | none => []

def ofHexDigits (ds : List Nat) : Nat := ds.foldl (fun n d => n * 16 + d) 0

/- The subject sequence of strtol in base 16 behind blanks and a sign: 0x counts as a mark of
   the base only when a digit follows. -/
def magnitude (text : List Char) : List Nat :=
  match text with
  | '0' :: x :: rest => if (x = 'x' ∨ x = 'X') ∧ hexDigits rest ≠ [] then hexDigits rest
    else hexDigits text
  | _ => hexDigits text

def signed (text : List Char) : Int × List Nat :=
  match text with
  | '-' :: rest => (-1, magnitude rest)
  | '+' :: rest => (1, magnitude rest)
  | _ => (1, magnitude text)

/- std::stoi(token, nullptr, 16). -/
def stoi (token : List Char) : Except EthFault Int :=
  let (sign, ds) := signed (token.dropWhile isSpace)
  let v := sign * ofHexDigits ds
  if ds = [] then .error .invalidArgument
  else if v < -2 ^ 31 ∨ 2 ^ 31 ≤ v then .error .outOfRange
  else .ok v

def storeTokens : List (List Char) → Nat → EthAddress → Except EthFault EthAddress
  | [], _, address => .ok address
  | token :: tokens, i, address => do
    let v ← stoi token
    if h : i < 6 then storeTokens tokens (i + 1) ⟨address.v.set i (UInt8.ofInt v)⟩
    else .error .overrun

/- The code that ToEthAddress returns and the address it leaves; the argument is what the
   address holds before. -/
def toEthAddress (ethaddr : List Char) (address : EthAddress) :
    Except EthFault (Int × EthAddress) :=
  if ethRegex.regexMatch ethaddr then .ok (-1, address)
  else do
    let address ← storeTokens (getlines ':' ethaddr) 0 address
    pure (1, address)

/- A byte through std::hex with setfill('0') and setw(2). -/
def hexByte (b : UInt8) : List Char := [Nat.digitChar (b.toNat / 16), Nat.digitChar (b.toNat % 16)]

def ethAddressToString (ethaddr : EthAddress) : List Char :=
  hexByte ethaddr.v[0] ++ ethaddr.v.toList.tail.flatMap fun b => ':' :: hexByte b

/- A four-byte address as inet_ntop prints it. -/
def dotted (v : Vector UInt8 4) : List Char :=
  Nat.toDigits 10 v[0].toNat ++ '.' :: (Nat.toDigits 10 v[1].toNat ++ '.' ::
    (Nat.toDigits 10 v[2].toNat ++ '.' :: Nat.toDigits 10 v[3].toNat))

/- inet_ntop and inet_pton: inverse to each other, four-byte addresses as dotted decimals,
   sixteen-byte ones as lower-case groups of which there are eight unless two colons stand
   for those left out. -/
structure Inet where
  ntop4 : Vector UInt8 4 → List Char
  ntop6 : Vector UInt8 16 → List Char
  pton4 : List Char → Option (Vector UInt8 4)
  pton6 : List Char → Option (Vector UInt8 16)
  pton4_ntop4 : ∀ v, pton4 (ntop4 v) = some v
  pton6_ntop6 : ∀ v, pton6 (ntop6 v) = some v
  ntop4_eq : ∀ v, ntop4 v = dotted v
  ntop6_chars : ∀ v, ∀ c ∈ ntop6 v, inRange '0' '9' c ∨ inRange 'a' 'f' c ∨ c = ':' ∨ c = '.'
  ntop6_colons : ∀ v, [':', ':'] <:+: ntop6 v ∨ (ntop6 v).count ':' = 7

/- The bytes of a string up to its first NUL. -/
def cStr (text : List Char) : List Char := text.takeWhile (· ≠ '\x00')

/- ToIpAddress where it returns 1: the union over its earlier contents. -/
def toIpAddress (inet : Inet) (ipaddr : List Char) (ipv4 : Bool) (address : IpAddress) :
    Option IpAddress :=
  if ipv4 then (inet.pton4 (cStr ipaddr)).map (address.setWord 0)
  else (inet.pton6 (cStr ipaddr)).map IpAddress.mk

def ipAddressToString (inet : Inet) (ipaddr : IpAddress) (ipv4 : Bool) : List Char :=
  if ipv4 then inet.ntop4 ipaddr.ipv4Bytes
  else inet.ntop6 ipaddr.v

section Mac

theorem stoi_digits : ∀ hi lo : Fin 16,
    stoi [Nat.digitChar hi, Nat.digitChar lo] = .ok (16 * hi.val + lo.val : Nat) := by
  decide +kernel

theorem stoi_hexByte (b : UInt8) : stoi (hexByte b) = .ok (b.toNat : Int) := by
  have hb := b.toNat_lt
  have h := stoi_digits ⟨b.toNat / 16, by omega⟩ ⟨b.toNat % 16, by omega⟩
  rwa [Nat.div_add_mod] at h

theorem hexw_digits : ∀ hi lo : Fin 15,
    hexw.regexMatch [Nat.digitChar hi, Nat.digitChar lo] = true := by
  decide +kernel

theorem digitChar_ne : ∀ d : Fin 16, Nat.digitChar d ≠ ':' ∧
    (Nat.digitChar d = 'f' ↔ d.val = 15) := by
  decide

/- One of the two hexadecimal digits is f. -/
def HasF (b : UInt8) : Prop := b.toNat / 16 = 15 ∨ b.toNat % 16 = 15

instance (b : UInt8) : Decidable (HasF b) := inferInstanceAs (Decidable (_ ∨ _))

theorem mem_hexByte (b : UInt8) : 'f' ∈ hexByte b ↔ HasF b := by
  have hb := b.toNat_lt
  have hhi := (digitChar_ne ⟨b.toNat / 16, by omega⟩).2
  have hlo := (digitChar_ne ⟨b.toNat % 16, by omega⟩).2
  simp only [hexByte, List.mem_cons, List.not_mem_nil, or_false, HasF]
  rw [← hhi, ← hlo, eq_comm, @eq_comm _ 'f']

theorem colon_notMem_hexByte (b : UInt8) : ':' ∉ hexByte b := by
  have hb := b.toNat_lt
  have hhi := (digitChar_ne ⟨b.toNat / 16, by omega⟩).1
  have hlo := (digitChar_ne ⟨b.toNat % 16, by omega⟩).1
  simp [hexByte, hhi.symm, hlo.symm]

theorem hexByte_mem_hexw {b : UInt8} (h : ¬ HasF b) : hexByte b ∈ hexw.lang := by
  have hb := b.toNat_lt
  rw [HasF, not_or] at h
  apply (Regex.regexMatch_iff _ _).mp
  exact hexw_digits ⟨b.toNat / 16, by omega⟩ ⟨b.toNat % 16, by omega⟩

theorem over_ethRegex : Regex.Over (· ≠ 'f') ethRegex := by
  have hhex : Regex.Over (· ≠ 'f') hex := by
    intro c hc
    rintro rfl
    exact absurd hc (by decide)
  have hcolon : Regex.Over (· ≠ 'f') (ch ':') := by
    intro c hc
    rintro rfl
    exact absurd hc (by decide)
  have hgroup : Regex.Over (· ≠ 'f') (.seq (ch ':') hexw) :=
    ⟨hcolon, Regex.over_between hhex 1 2⟩
  exact ⟨Regex.over_between hhex 1 2, Regex.over_times hgroup 5⟩

theorem toList_eth (e : EthAddress) : e.v.toList = e.v[0] :: e.v.toList.tail := by
  cases h : e.v.toList with
  | nil =>
    have hlen := congrArg List.length h
    rw [Vector.length_toList] at hlen
    cases hlen
  | cons b bs =>
    have hget : e.v.toList[0]? = some b := by rw [h]; rfl
    simp at hget
    rw [hget]
    rfl

/-- The pattern for a MAC address matches a printed one exactly when no digit is f. -/
theorem ethRegex_printed (e : EthAddress) :
    ethRegex.regexMatch (ethAddressToString e) = true ↔ ∀ b ∈ e.v.toList, ¬ HasF b := by
  rw [Regex.regexMatch_iff]
  constructor
  · intro hmem b hb hf
    have hall := Regex.forall_of_mem_lang over_ethRegex hmem
    rw [toList_eth, List.mem_cons] at hb
    have hin : 'f' ∈ ethAddressToString e := by
      rw [ethAddressToString, List.mem_append, List.mem_flatMap]
      cases hb with
      | inl hb => exact .inl (hb ▸ (mem_hexByte b).mpr hf)
      | inr hb => exact .inr ⟨b, hb, List.mem_cons_of_mem _ ((mem_hexByte b).mpr hf)⟩
    exact hall 'f' hin rfl
  · intro hall
    rw [toList_eth, List.forall_mem_cons] at hall
    have hlen : (e.v.toList.tail.map fun b => ':' :: hexByte b).length = 5 := by
      rw [List.length_map, List.length_tail, Vector.length_toList]
    have hrest : (e.v.toList.tail.flatMap fun b => ':' :: hexByte b) ∈
        (Regex.times (.seq (ch ':') hexw) 5).lang := by
      rw [← hlen, List.flatMap_def]
      apply Regex.mem_lang_times
      intro w hw
      obtain ⟨b, hb, rfl⟩ := List.mem_map.mp hw
      exact Regex.mem_lang_seq.mpr ⟨[':'], ⟨':', rfl, rfl⟩, hexByte b,
        hexByte_mem_hexw (hall.2 b hb), rfl⟩
    exact Regex.mem_lang_seq.mpr ⟨_, hexByte_mem_hexw hall.1, _, hrest, rfl⟩

theorem ofInt_toNat (b : UInt8) : UInt8.ofInt (b.toNat : Int) = b := by
  have hb := b.toNat_lt
  have hmod : ((b.toNat : Int) % 2 ^ 8).toNat = b.toNat := by omega
  rw [UInt8.ofInt, hmod, UInt8.ofNat_toNat]

theorem getlines_printed (e : EthAddress) :
    getlines ':' (ethAddressToString e) = e.v.toList.map hexByte := by
  obtain ⟨a, b, c, d, x, y, rfl⟩ := e.exists_six
  have hlines : ∀ l ∈ [hexByte a, hexByte b, hexByte c, hexByte d, hexByte x], ':' ∉ l := by
    simp [colon_notMem_hexByte]
  exact getlines_parts ':' hlines (colon_notMem_hexByte y) (by simp [hexByte])

theorem storeTokens_printed (e before : EthAddress) :
    storeTokens (e.v.toList.map hexByte) 0 before = .ok e := by
  obtain ⟨a, b, c, d, x, y, rfl⟩ := e.exists_six
  obtain ⟨a', b', c', d', x', y', rfl⟩ := before.exists_six
  simp [storeTokens, stoi_hexByte, bind, Except.bind, ofInt_toNat]

/- One of the digits of the address is f. -/
def MacHasF (e : EthAddress) : Prop := ∃ b ∈ e.v.toList, HasF b

instance (e : EthAddress) : Decidable (MacHasF e) := inferInstanceAs (Decidable (∃ b ∈ _, HasF b))

/-- A printed MAC address is read back exactly when one of its digits is f; else the pattern
matches, and ToEthAddress returns -1. -/
theorem toEthAddress_printed (e before : EthAddress) :
    toEthAddress (ethAddressToString e) before =
      if MacHasF e then .ok (1, e) else .ok (-1, before) := by
  have hregex : ethRegex.regexMatch (ethAddressToString e) = true ↔ ¬ MacHasF e := by
    rw [ethRegex_printed, MacHasF]
    push Not
    rfl
  rw [toEthAddress, getlines_printed, storeTokens_printed]
  by_cases hf : MacHasF e
  · rw [if_pos hf, if_neg (fun h => hregex.mp h hf)]
    rfl
  · rw [if_neg hf, if_pos (hregex.mpr hf)]

end Mac

section Ip

theorem octet_digits : ∀ n : Fin 256, octet.regexMatch (Nat.toDigits 10 n) = true := by
  decide +kernel

theorem digits_mem_octet (b : UInt8) : Nat.toDigits 10 b.toNat ∈ octet.lang :=
  (Regex.regexMatch_iff _ _).mp (octet_digits ⟨b.toNat, b.toNat_lt⟩)

theorem dot_mem_anyChar : ['.'] ∈ anyChar.lang := ⟨'.', rfl, rfl⟩

theorem ipRegex4_dotted (v : Vector UInt8 4) : ipRegex4.regexMatch (dotted v) = true := by
  rw [Regex.regexMatch_iff]
  have hlast := Regex.mem_lang_seq.mpr ⟨_, dot_mem_anyChar, _, digits_mem_octet v[3], rfl⟩
  have hthird := Regex.mem_lang_seq.mpr ⟨_, digits_mem_octet v[2], _, hlast, rfl⟩
  have hsecond := Regex.mem_lang_seq.mpr ⟨_, digits_mem_octet v[1], _,
    Regex.mem_lang_seq.mpr ⟨_, dot_mem_anyChar, _, hthird, rfl⟩, rfl⟩
  exact Regex.mem_lang_seq.mpr ⟨_, digits_mem_octet v[0], _,
    Regex.mem_lang_seq.mpr ⟨_, dot_mem_anyChar, _, hsecond, rfl⟩, rfl⟩

/- Of two neighbours one is a digit. -/
def OneDigit (a b : Char) : Prop := inRange '0' '9' a = true ∨ inRange '0' '9' b = true

/- A text in which no two neighbours are both signs, with at most k colons, that starts with
   a digit. -/
structure Spaced (k : Nat) (w : List Char) : Prop where
  chain : w.IsChain OneDigit
  count : w.count ':' ≤ k
  start : ∃ c cs, w = c :: cs ∧ inRange '0' '9' c = true

theorem over_octet : Regex.Over (fun c => inRange '0' '9' c = true) octet := by
  have hmono : ∀ lo hi : Char, '0' ≤ lo → hi ≤ '9' → ∀ c, inRange lo hi c = true →
      inRange '0' '9' c = true := by
    intro lo hi hlo hhi c hc
    simp only [inRange, Bool.and_eq_true, decide_eq_true_eq] at hc ⊢
    exact ⟨Char.le_trans hlo hc.1, Char.le_trans hc.2 hhi⟩
  have hch : ∀ d : Char, inRange '0' '9' d = true →
      Regex.Over (fun c => inRange '0' '9' c = true) (ch d) := by
    intro d hd c hc
    rw [decide_eq_true_eq.mp hc]
    exact hd
  have hdigit : Regex.Over (fun c => inRange '0' '9' c = true) digit := fun c hc => hc
  exact ⟨⟨hch '2' rfl, hch '5' rfl, hmono '0' '5' (by decide) (by decide)⟩,
    ⟨hch '2' rfl, hmono '0' '4' (by decide) (by decide), hdigit⟩,
    ⟨hmono '0' '1' (by decide) (by decide), trivial⟩, hdigit, hdigit, trivial⟩

theorem isChain_digits {ds w : List Char} (hds : ∀ c ∈ ds, inRange '0' '9' c = true)
    (hw : w.IsChain OneDigit) : (ds ++ w).IsChain OneDigit := by
  induction ds with
  | nil => exact hw
  | cons d ds ih =>
    rw [List.forall_mem_cons] at hds
    exact List.isChain_cons.mpr ⟨fun y _ => .inl hds.1, ih hds.2⟩

theorem count_digits {ds : List Char} (hds : ∀ c ∈ ds, inRange '0' '9' c = true) :
    ds.count ':' = 0 := by
  apply List.count_eq_zero.mpr
  intro hmem
  exact absurd (hds ':' hmem) (by decide)

theorem octet_ne_nil {w : List Char} (h : w ∈ octet.lang) : w ≠ [] := by
  rintro rfl
  exact absurd ((Regex.regexMatch_iff _ _).mpr h) (by decide)

theorem spaced_octet {w : List Char} (h : w ∈ octet.lang) : Spaced 0 w := by
  have hds := Regex.forall_of_mem_lang over_octet h
  have hchain := isChain_digits hds List.isChain_nil
  rw [List.append_nil] at hchain
  refine ⟨hchain, Nat.le_of_eq (count_digits hds), ?_⟩
  obtain ⟨c, cs, rfl⟩ := List.exists_cons_of_ne_nil (octet_ne_nil h)
  exact ⟨c, cs, rfl, hds c List.mem_cons_self⟩

/- An octet and one more character in front. -/
theorem spaced_seq {k : Nat} {s : Regex Char} (hs : ∀ w ∈ s.lang, Spaced k w) :
    ∀ w ∈ Regex.lang (.seq octet (.seq anyChar s)), Spaced (k + 1) w := by
  intro w hw
  obtain ⟨ds, hoctet, _, hrest, rfl⟩ := Regex.mem_lang_seq.mp hw
  obtain ⟨_, ⟨c, _, rfl⟩, v, hv, rfl⟩ := Regex.mem_lang_seq.mp hrest
  have hds := Regex.forall_of_mem_lang over_octet hoctet
  obtain ⟨hchain, hcount, d, w, rfl, hd⟩ := hs v hv
  obtain ⟨e, es, rfl⟩ := List.exists_cons_of_ne_nil (octet_ne_nil hoctet)
  refine ⟨isChain_digits hds ?_, ?_, e, _, rfl, hds e List.mem_cons_self⟩
  · exact List.isChain_cons_cons.mpr ⟨.inr hd, hchain⟩
  · rw [List.count_append, count_digits hds, List.singleton_append, List.count_cons]
    split_ifs <;> omega

theorem spaced_ipRegex4 : ∀ w ∈ ipRegex4.lang, Spaced 3 w :=
  spaced_seq (spaced_seq (spaced_seq fun _ h => spaced_octet h))

/-- The pattern for IPv4 addresses matches no text with two colons side by side or with more
than three colons, although its dots match any character. -/
theorem ipRegex4_colons {s : List Char} (h : [':', ':'] <:+: s ∨ 3 < s.count ':') :
    ipRegex4.regexMatch s = false := by
  rw [Bool.eq_false_iff]
  intro hmatch
  obtain ⟨hchain, hcount, _⟩ := spaced_ipRegex4 _ ((Regex.regexMatch_iff _ _).mp hmatch)
  cases h with
  | inl hinfix =>
    have htwo := (List.isChain_cons_cons.mp ( List.IsChain.infix hchain hinfix)).1
    exact absurd htwo (by simp [OneDigit, inRange])
  | inr hmore => omega

theorem ipRegex4_ntop6 (inet : Inet) (v : Vector UInt8 16) :
    ipRegex4.regexMatch (inet.ntop6 v) = false := by
  apply ipRegex4_colons
  exact (inet.ntop6_colons v).imp_right fun hseven => by omega

end Ip

end DnsWrapper.Util
