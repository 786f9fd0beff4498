import DnsWrapper.MacText
import DnsWrapper.SaveLoad

/-! The texts that inet_pton takes: dotted quads without leading zeros, and groups with colons in
between, where two colons can stand for groups of zeros and a quad for the last two groups. -/
namespace DnsWrapper.Util
open TextSplit NetCommon

/- A number up to 255 without leading zeros. -/
def OctetText (g : List Char) : Prop := ∃ n < 256, g = Nat.toDigits 10 n

instance (g : List Char) : Decidable (OctetText g) := inferInstanceAs (Decidable (∃ n < 256, _))

def Ipv4Text (s : List Char) : Prop :=
  (s.splitOn '.').length = 4 ∧ ∀ g ∈ s.splitOn '.', OctetText g

instance (s : List Char) : Decidable (Ipv4Text s) := inferInstanceAs (Decidable (_ ∧ _))

/- n groups of one to four hexadecimal digits. -/
def Groups (n : Nat) (gs : List (List Char)) : Prop := gs.length = n ∧ ∀ g ∈ gs, HexGroup 4 g

instance (n : Nat) (gs : List (List Char)) : Decidable (Groups n gs) :=
  inferInstanceAs (Decidable (_ ∧ _))

/- Pieces that write n groups: the last can be a quad, which writes two. -/
inductive Writes : Nat → List (List Char) → Prop
  | nil : Writes 0 []
  | quad {q : List Char} : Ipv4Text q → Writes 2 [q]
  | cons {n : Nat} {g : List Char} {gs : List (List Char)} :
    HexGroup 4 g → Writes n gs → Writes (n + 1) (g :: gs)

/- The pieces of one side of two colons, which may be empty. -/
def sidePieces (s : List Char) : List (List Char) := if s = [] then [] else s.splitOn ':'

/- Eight groups, or at most seven with two colons for those left out. -/
def Ipv6Text (s : List Char) : Prop :=
  Writes 8 (s.splitOn ':') ∨
  ∃ l r m n, s = l ++ ':' :: ':' :: r ∧ Groups m (sidePieces l) ∧ Writes n (sidePieces r) ∧
    m + n ≤ 7

/- inet_pton takes these texts and no others. -/
structure Inet.Posix (inet : Inet) : Prop where
  accepts4 : ∀ s, (inet.pton4 s).isSome = true ↔ Ipv4Text s
  accepts6 : ∀ s, (inet.pton6 s).isSome = true ↔ Ipv6Text s

section Parser

def octetOf (g : List Char) : Option UInt8 :=
  let n := Nat.ofDigitChars 10 g 0
  if n < 256 ∧ g = Nat.toDigits 10 n then some (UInt8.ofNat n) else none

def quadOf (s : List Char) : Option (Vector UInt8 4) := Shm.quadBy octetOf s

def groupBytes (g : List Char) : List UInt8 :=
  [UInt8.ofNat (hexNumber g / 256), UInt8.ofNat (hexNumber g % 256)]

def groupsOf (gs : List (List Char)) : Option (List UInt8) :=
  if ∀ g ∈ gs, HexGroup 4 g then some (gs.flatMap groupBytes) else none

def bytesOf : List (List Char) → Option (List UInt8)
  | [] => some []
  | [g] => if HexGroup 4 g then some (groupBytes g) else (quadOf g).map Vector.toList
  | g :: gs => if HexGroup 4 g then (bytesOf gs).map (groupBytes g ++ ·) else none

def sixteen (bs : List UInt8) : Option (Vector UInt8 16) :=
  if h : bs.length = 16 then some ⟨bs.toArray, h⟩ else none

/- The text read with the two colons at position i. -/
def gapAt (s : List Char) (i : Nat) : Option (Vector UInt8 16) :=
  if (s.drop i).take 2 = [':', ':'] then do
    let ls ← groupsOf (sidePieces (s.take i))
    let rs ← bytesOf (sidePieces (s.drop (i + 2)))
    if ls.length + rs.length ≤ 14 then
      sixteen (ls ++ List.replicate (16 - (ls.length + rs.length)) 0 ++ rs)
    else none
  else none

def wholeOf (s : List Char) : Option (Vector UInt8 16) := (bytesOf (s.splitOn ':')).bind sixteen

def addressOf (s : List Char) : Option (Vector UInt8 16) :=
  (wholeOf s).or ((List.range s.length).findSome? (gapAt s))

theorem octetOf_toDigits {n : Nat} (h : n < 256) :
    octetOf (Nat.toDigits 10 n) = some (UInt8.ofNat n) := by
  simp [octetOf, Nat.ofDigitChars_ten_toDigits, h]

theorem octetOf_isSome {g : List Char} : (octetOf g).isSome = true ↔ OctetText g := by
  constructor
  · intro h
    rw [octetOf] at h
    split_ifs at h with hn
    · exact ⟨_, hn⟩
    · cases h
  · rintro ⟨n, hn, rfl⟩
    rw [octetOf_toDigits hn]
    rfl

theorem quadOf_isSome {s : List Char} : (quadOf s).isSome = true ↔ Ipv4Text s := by
  rw [quadOf, Shm.quadBy, Ipv4Text]
  split
  next a b c d hsplit =>
    simp only [hsplit, List.length_cons, List.length_nil, List.forall_mem_cons, ← octetOf_isSome]
    cases octetOf a <;> cases octetOf b <;> cases octetOf c <;> cases octetOf d <;> simp
  next hno =>
    refine iff_of_false (by decide) ?_
    rintro ⟨hlen, _⟩
    obtain ⟨a, b, c, d, hs⟩ := List.length_eq_four.mp hlen
    exact hno a b c d hs

theorem quadOf_dotted (v : Vector UInt8 4) : quadOf (dotted v) = some v := by
  apply Shm.quadBy_dotted
  intro b
  rw [octetOf_toDigits b.toNat_lt, UInt8.ofNat_toNat]

theorem not_hexGroup_of_ipv4 {n : Nat} {q : List Char} (h : Ipv4Text q) : ¬ HexGroup n q := by
  rintro ⟨_, _, hall⟩
  have hlen := h.1
  rw [length_pieces] at hlen
  have hdot : '.' ∈ q := List.count_pos_iff.mp (by omega)
  exact absurd (hall '.' hdot) (by decide)

theorem writes_of_groups {n : Nat} {gs : List (List Char)} (h : Groups n gs) : Writes n gs := by
  induction gs generalizing n with
  | nil =>
    rw [← h.1]
    exact .nil
  | cons g gs ih =>
    obtain ⟨hlen, hall⟩ := h
    rw [List.forall_mem_cons] at hall
    rw [← hlen]
    exact .cons hall.1 (ih ⟨rfl, hall.2⟩)

theorem length_groupBytes (g : List Char) : (groupBytes g).length = 2 := rfl

/- Pieces are read as the bytes of the groups that they write. -/
theorem writes_of_bytesOf {gs : List (List Char)} {bs : List UInt8} (h : bytesOf gs = some bs) :
    ∃ n, Writes n gs ∧ bs.length = 2 * n := by
  induction gs using bytesOf.induct generalizing bs with
  | case1 =>
    cases h
    exact ⟨0, .nil, rfl⟩
  | case2 g hg =>
    rw [bytesOf, if_pos hg] at h
    cases h
    exact ⟨1, .cons hg .nil, rfl⟩
  | case3 g hg =>
    rw [bytesOf, if_neg hg, Option.map_eq_some_iff] at h
    obtain ⟨v, hv, rfl⟩ := h
    exact ⟨2, .quad (quadOf_isSome.mp (by rw [hv]; rfl)), Vector.length_toList⟩
  | case4 g gs hne hg ih =>
    rw [bytesOf.eq_3 g gs hne, if_pos hg, Option.map_eq_some_iff] at h
    obtain ⟨cs, hcs, rfl⟩ := h
    obtain ⟨n, hw, hlen⟩ := ih hcs
    refine ⟨n + 1, .cons hg hw, ?_⟩
    rw [List.length_append, length_groupBytes, hlen]
    omega
  | case5 g gs hne hg =>
    rw [bytesOf.eq_3 g gs hne, if_neg hg] at h
    cases h

theorem bytesOf_of_writes {n : Nat} {gs : List (List Char)} (h : Writes n gs) :
    ∃ bs, bytesOf gs = some bs ∧ bs.length = 2 * n := by
  induction h with
  | nil => exact ⟨[], rfl, rfl⟩
  | @quad q hq =>
    obtain ⟨v, hv⟩ := Option.isSome_iff_exists.mp (quadOf_isSome.mpr hq)
    refine ⟨v.toList, ?_, Vector.length_toList⟩
    rw [bytesOf, if_neg (not_hexGroup_of_ipv4 hq), hv]
    rfl
  | @cons n g gs hg hw ih =>
    obtain ⟨bs, hbs, hlen⟩ := ih
    cases gs with
    | nil =>
      cases hw
      exact ⟨groupBytes g, by rw [bytesOf, if_pos hg], rfl⟩
    | cons g' gs =>
      refine ⟨groupBytes g ++ bs, ?_, ?_⟩
      · rw [bytesOf.eq_3 g (g' :: gs) nofun, if_pos hg, hbs]
        rfl
      · rw [List.length_append, length_groupBytes, hlen]
        omega

theorem sixteen_isSome {bs : List UInt8} : (sixteen bs).isSome = true ↔ bs.length = 16 := by
  rw [sixteen]
  split_ifs with h
  · exact iff_of_true rfl h
  · exact iff_of_false nofun h

theorem wholeOf_isSome {s : List Char} :
    (wholeOf s).isSome = true ↔ Writes 8 (s.splitOn ':') := by
  rw [wholeOf]
  constructor
  · intro h
    cases hbs : bytesOf (s.splitOn ':') with
    | none =>
      rw [hbs] at h
      cases h
    | some bs =>
      rw [hbs] at h
      obtain ⟨n, hw, hlen⟩ := writes_of_bytesOf hbs
      have hbytes := sixteen_isSome.mp h
      rwa [show n = 8 by omega] at hw
  · intro h
    obtain ⟨bs, hbs, hlen⟩ := bytesOf_of_writes h
    rw [hbs]
    exact sixteen_isSome.mpr hlen

theorem length_groups (gs : List (List Char)) : (gs.flatMap groupBytes).length = 2 * gs.length := by
  induction gs with
  | nil => rfl
  | cons g gs ih =>
    rw [List.flatMap_cons, List.length_append, ih, length_groupBytes, List.length_cons]
    omega

theorem gapAt_isSome {s : List Char} {i : Nat} :
    (gapAt s i).isSome = true ↔ (s.drop i).take 2 = [':', ':'] ∧
      ∃ m n, Groups m (sidePieces (s.take i)) ∧ Writes n (sidePieces (s.drop (i + 2))) ∧
        m + n ≤ 7 := by
  rw [gapAt]
  by_cases hcolons : (s.drop i).take 2 = [':', ':']
  · rw [if_pos hcolons, groupsOf]
    by_cases hall : ∀ g ∈ sidePieces (s.take i), HexGroup 4 g
    · rw [if_pos hall]
      have hgroups := length_groups (sidePieces (s.take i))
      cases hbs : bytesOf (sidePieces (s.drop (i + 2))) with
      | none =>
        refine iff_of_false nofun ?_
        rintro ⟨_, m, n, _, hw, _⟩
        obtain ⟨bs, hsome, _⟩ := bytesOf_of_writes hw
        cases hbs.symm.trans hsome
      | some rs =>
        obtain ⟨n, hw, hlen⟩ := writes_of_bytesOf hbs
        simp only [Option.bind_eq_bind, Option.bind_some]
        split_ifs with hfit
        · refine iff_of_true (sixteen_isSome.mpr ?_) ⟨hcolons, _, n, ⟨rfl, hall⟩, hw, by omega⟩
          rw [List.length_append, List.length_append, List.length_replicate]
          omega
        · refine iff_of_false nofun ?_
          rintro ⟨_, m, k, ⟨hm, _⟩, hk, hle⟩
          obtain ⟨ks, hks, hklen⟩ := bytesOf_of_writes hk
          cases hbs.symm.trans hks
          omega
    · rw [if_neg hall]
      refine iff_of_false nofun ?_
      rintro ⟨_, m, n, hm, _⟩
      exact hall hm.2
  · rw [if_neg hcolons]
    exact iff_of_false nofun fun h => hcolons h.1

/-- The parser takes exactly the texts of IPv6 addresses. -/
theorem addressOf_isSome {s : List Char} : (addressOf s).isSome = true ↔ Ipv6Text s := by
  rw [addressOf, Option.isSome_or, Bool.or_eq_true, wholeOf_isSome, Ipv6Text]
  apply or_congr_right
  rw [List.isSome_findSome?]
  constructor
  · intro h
    obtain ⟨i, _, hi⟩ := List.any_eq_true.mp h
    obtain ⟨hcolons, m, n, hm, hn, hle⟩ := gapAt_isSome.mp hi
    refine ⟨s.take i, s.drop (i + 2), m, n, ?_, hm, hn, hle⟩
    have hrest : s.drop i = [':', ':'] ++ s.drop (i + 2) := by
      rw [← hcolons, ← List.drop_drop, List.take_append_drop]
    calc s = s.take i ++ s.drop i := (List.take_append_drop i s).symm
      _ = s.take i ++ ':' :: ':' :: s.drop (i + 2) := by rw [hrest]; rfl
  · rintro ⟨l, r, m, n, rfl, hm, hn, hle⟩
    refine List.any_eq_true.mpr ⟨l.length, List.mem_range.mpr (by simp), ?_⟩
    refine gapAt_isSome.mpr ⟨by simp, m, n, by simpa using hm, ?_, hle⟩
    rw [← List.drop_drop, List.drop_left]
    exact hn

example : addressOf "fe80::1:2".toList =
    some #v[0xfe, 0x80, 0, 0, 0, 0, 0, 0, 0, 0, 0, 0, 0, 1, 0, 2] := by decide +kernel

example : addressOf "::ffff:1.2.3.4".toList =
    some #v[0, 0, 0, 0, 0, 0, 0, 0, 0, 0, 0xff, 0xff, 1, 2, 3, 4] := by decide +kernel

theorem bytesOf_groups {gs : List (List Char)} (h : ∀ g ∈ gs, HexGroup 4 g) :
    bytesOf gs = some (gs.flatMap groupBytes) := by
  induction gs with
  | nil => rfl
  | cons g gs ih =>
    rw [List.forall_mem_cons] at h
    cases gs with
    | nil => rw [bytesOf, if_pos h.1]; rfl
    | cons g' gs =>
      rw [bytesOf.eq_3 g (g' :: gs) nofun, if_pos h.1, ih h.2]
      rfl

theorem filterMap_hexByte (b : UInt8) :
    (hexByte b).filterMap hexValue = [b.toNat / 16, b.toNat % 16] := by
  have hb := b.toNat_lt
  have hhi := Shm.hexValue_digit ⟨b.toNat / 16, by omega⟩
  have hlo := Shm.hexValue_digit ⟨b.toNat % 16, by omega⟩
  simp [hexByte, hhi, hlo]

theorem hexGroup_bytes (a b : UInt8) : HexGroup 4 (hexByte a ++ hexByte b) := by
  have hdigit : ∀ b : UInt8, ∀ c ∈ hexByte b, (hexValue c).isSome = true := by
    intro b
    have hb := b.toNat_lt
    have hhi := Shm.hexValue_digit ⟨b.toNat / 16, by omega⟩
    have hlo := Shm.hexValue_digit ⟨b.toNat % 16, by omega⟩
    simp [hexByte, hhi, hlo]
  exact ⟨by simp [hexByte], by simp [hexByte], List.forall_mem_append.mpr ⟨hdigit a, hdigit b⟩⟩

theorem groupBytes_bytes (a b : UInt8) : groupBytes (hexByte a ++ hexByte b) = [a, b] := by
  have ha := a.toNat_lt
  have hb := b.toNat_lt
  have hnum : hexNumber (hexByte a ++ hexByte b) = 256 * a.toNat + b.toNat := by
    rw [hexNumber, List.filterMap_append, filterMap_hexByte, filterMap_hexByte]
    simp only [ofHexDigits, List.cons_append, List.nil_append, List.foldl_cons, List.foldl_nil]
    omega
  have hhigh : (256 * a.toNat + b.toNat) / 256 = a.toNat := by omega
  have hlow : (256 * a.toNat + b.toNat) % 256 = b.toNat := by omega
  rw [groupBytes, hnum, hhigh, hlow, UInt8.ofNat_toNat, UInt8.ofNat_toNat]

theorem addressOf_ntop6 (v : Vector UInt8 16) : addressOf (Shm.ntop6 v) = some v := by
  have hgroups : ∀ g ∈ (Shm.ntop6 v).splitOn ':', HexGroup 4 g := by
    rw [Shm.splitOn_ntop6, toList_sixteen]
    simp [Shm.groups, hexGroup_bytes]
  have hbytes : ((Shm.ntop6 v).splitOn ':').flatMap groupBytes = v.toList := by
    rw [Shm.splitOn_ntop6, toList_sixteen]
    simp [Shm.groups, groupBytes_bytes]
  have hwhole : wholeOf (Shm.ntop6 v) = some v := by
    rw [wholeOf, bytesOf_groups hgroups, hbytes, Option.bind_some, sixteen, dif_pos (by simp)]
    exact congrArg some (Vector.toArray_inj.mp Array.toArray_toList)
  rw [addressOf, hwhole, Option.some_or]

/- An inet_pton that takes what it should, and no other text. -/
def posixInet : Inet where
  ntop4 := dotted
  ntop6 := Shm.ntop6
  pton4 := quadOf
  pton6 := addressOf
  pton4_ntop4 := quadOf_dotted
  pton6_ntop6 := addressOf_ntop6
  ntop4_eq := Shm.plainInet.ntop4_eq
  ntop6_chars := Shm.plainInet.ntop6_chars
  ntop6_colons := Shm.plainInet.ntop6_colons

theorem posixInet_posix : posixInet.Posix :=
  ⟨fun _ => quadOf_isSome, fun _ => addressOf_isSome⟩

end Parser

end DnsWrapper.Util
