import DnsWrapper.RuleStore

/-! InsertRule in front of other rules. The loop that moves them up does not copy their
first byte, so the insertion is right only where the byte that was there before happens to
be the same; and it stores one byte behind the room that it has checked. -/
namespace DnsWrapper.Shm
open ByteRegion ByteWriter

/- The rules with r at position i. -/
def insertedAt (rules : List Rule) (r : Rule) (i : Nat) : List Rule :=
  rules.take i ++ r :: rules.drop i

/-- InsertRule returns true, and the array then begins with the encoding of the list with r
at position i and decodes to it. -/
def Inserts (rd : RuleData) (rules : List Rule) (r : Rule) (i : Nat) : Prop :=
  ∃ rd', rd.insertRule r i = some (true, rd') ∧ rd'.Stores (insertedAt rules r i) ∧
    ∃ finish, readRules rd'.data rd'.size 0 =
      some ((insertedAt rules r i).map Rule.value, finish)

/-- Nothing is moved, or there is one byte of room more than needed and the byte at the new
place of rule number i already is the code of its type. -/
def FirstByteInPlace (rd : RuleData) (rules : List Rule) (r : Rule) (i : Nat) : Prop :=
  i = rules.length ∨
    (encodeAll rules).length + r.bytes < dataSize ∧
    rd.data[(encodeAll (rules.take i)).length + r.bytes]? = rules[i]?.map fun x => x.ruleType.code

theorem head_encodeAll (x : Rule) (rules : List Rule) :
    (encodeAll (x :: rules))[0]? = some x.ruleType.code := by
  rw [encodeAll_cons]
  rfl

namespace RuleData
variable {rd : RuleData} {rules : List Rule} {r : Rule} {i : Nat}

theorem length_take_drop (rules : List Rule) (i : Nat) :
    (encodeAll rules).length =
      (encodeAll (rules.take i)).length + (encodeAll (rules.drop i)).length := by
  rw [← List.length_append, ← encodeAll_append, List.take_append_drop]

theorem bytes_pos (r : Rule) : 0 < r.bytes := by
  rw [← r.length_encode]
  exact List.length_pos_iff.mpr r.encode_ne_nil

/- What shiftUp and the copy of the new bytes leave at each place: the new bytes from start on,
   the moved ones behind them but for the first, and everything else as it was. -/
def MovedUp (old new : List UInt8) (start : Nat) (bs : List UInt8) (moved : Nat) : Prop :=
  ∀ j, new[j]? =
    if start ≤ j ∧ j < start + bs.length then bs[j - start]?
    else if start + bs.length < j ∧ j ≤ start + bs.length + moved then old[j - bs.length]?
    else old[j]?

namespace MovedUp
variable {old new bs : List UInt8} {start moved : Nat}

theorem front (h : MovedUp old new start bs moved) {cs : List UInt8} (hlen : cs.length = start)
    (hold : Holds old 0 cs) : Holds new 0 cs := by
  rw [holds_iff]
  intro j hj
  rw [h, if_neg (by omega), if_neg (by omega)]
  exact holds_getElem? hold hj

theorem inserted (h : MovedUp old new start bs moved) : Holds new start bs := by
  rw [holds_iff]
  intro j hj
  rw [h, if_pos (by omega), Nat.add_sub_cancel_left]

/- The moved bytes are all in place if the first of them is. -/
theorem rest_iff {cs : List UInt8} (h : MovedUp old new start bs cs.length) (hpos : 0 < cs.length)
    (hold : Holds old start cs) :
    Holds new (start + bs.length) cs ↔ old[start + bs.length]? = cs[0]? := by
  rw [holds_iff]
  constructor
  · intro hall
    have hzero := hall 0 hpos
    rwa [Nat.add_zero, h, if_neg (by omega), if_neg (by omega)] at hzero
  · intro hzero j hj
    cases j with
    | zero => rwa [Nat.add_zero, h, if_neg (by omega), if_neg (by omega)]
    | succ j =>
      have hmoved := holds_getElem? hold hj
      have hsub : start + bs.length + (j + 1) - bs.length = start + (j + 1) := by omega
      rw [h, if_neg (by omega), if_pos (by omega), hsub, hmoved]

end MovedUp

theorem insertRule_data (h : rd.Stores rules) (hi : i < rules.length)
    (hfit : (encodeAll rules).length + r.bytes < dataSize) :
    ∃ rd', rd.insertRule r i = some (true, rd') ∧ rd'.size = rd.size + 1 ∧
      rd'.data.length = dataSize ∧
      MovedUp rd.data rd'.data (encodeAll (rules.take i)).length r.encode
        (encodeAll (rules.drop i)).length := by
  have hlen := length_take_drop rules i
  generalize hat : (encodeAll (rules.take i)).length = start at hlen
  have hroom : start + r.bytes + (encodeAll (rules.drop i)).length < rd.data.length := by
    rw [h.data_length]
    omega
  obtain ⟨data, hshift, hsize, hget⟩ := shiftUp_copies (bytes_pos r) (.inr hroom)
  have hover : Overwrites (all Rule.write [r]) (encodeAll [r]) :=
    overwrites_all [r] fun x _ => x.overwrites_write
  have hr : encodeAll [r] = r.encode := List.append_nil r.encode
  have hrun := hover data start (by rw [length_encodeAll_single]; omega)
  rw [hr] at hrun
  have hsplice : start + r.encode.length ≤ data.length := by
    rw [r.length_encode]
    omega
  refine ⟨⟨rd.policy, rd.size + 1, splice data start r.encode⟩, ?_, rfl, ?_, ?_⟩
  · rw [insertRule, insertRules_at h [r] (Nat.le_of_lt hi), length_encodeAll_single,
      if_neg (by omega), hat, hshift]
    simp only [Option.bind_eq_bind, Option.bind_some, hrun]
    rfl
  · show (splice data start r.encode).length = dataSize
    rw [length_splice hsplice, hsize, h.data_length]
  · intro j
    show (splice data start r.encode)[j]? = _
    rw [getElem?_splice hsplice, hget, r.length_encode]

theorem drop_head (hi : i < rules.length) :
    0 < (encodeAll (rules.drop i)).length ∧
      (encodeAll (rules.drop i))[0]? = rules[i]?.map fun x => x.ruleType.code := by
  rw [List.drop_eq_getElem_cons hi, length_encodeAll_cons, head_encodeAll,
    List.getElem?_eq_getElem hi]
  exact ⟨Nat.add_pos_left (bytes_pos _) _, rfl⟩

/- The encoding of the longer list in an array, part by part. -/
theorem holds_insertedAt {data : List UInt8} :
    Holds data 0 (encodeAll (insertedAt rules r i)) ↔
      Holds data 0 (encodeAll (rules.take i)) ∧
        Holds data (encodeAll (rules.take i)).length r.encode ∧
        Holds data ((encodeAll (rules.take i)).length + r.encode.length)
          (encodeAll (rules.drop i)) := by
  rw [insertedAt, encodeAll_append, encodeAll_cons, holds_append, holds_append, Nat.zero_add]

theorem stores_insertedAt_iff (h : rd.Stores rules) (hi : i < rules.length)
    (hfit : (encodeAll rules).length + r.bytes < dataSize) {rd' : RuleData}
    (hcall : rd.insertRule r i = some (true, rd')) :
    rd'.Stores (insertedAt rules r i) ↔
      rd.data[(encodeAll (rules.take i)).length + r.bytes]? =
        rules[i]?.map fun x => x.ruleType.code := by
  obtain ⟨rd₁, hcall₁, hsize, hlen, hmoved⟩ := insertRule_data (r := r) h hi hfit
  rw [hcall] at hcall₁
  cases hcall₁
  have hold := Stores.holds_append ((List.take_append_drop i rules).symm ▸ h)
  obtain ⟨hpos, hhead⟩ := drop_head hi
  have hrest := hmoved.rest_iff hpos hold.2
  have hsizes : rd'.size = (insertedAt rules r i).length := by
    rw [hsize, h.size_eq, insertedAt, List.length_append, List.length_cons, List.length_take,
      List.length_drop]
    omega
  rw [← hhead, ← r.length_encode, ← hrest]
  constructor
  · intro hs
    exact (holds_insertedAt.mp (holds_zero.mpr hs.encoded)).2.2
  · intro hlast
    refine ⟨hsizes, hlen, holds_zero.mp ?_⟩
    exact holds_insertedAt.mpr ⟨hmoved.front rfl hold.1, hmoved.inserted, hlast⟩

theorem inserts_inner_iff (h : rd.Stores rules) (hi : i < rules.length)
    (hfit : (encodeAll rules).length + r.bytes ≤ dataSize) :
    Inserts rd rules r i ↔ FirstByteInPlace rd rules r i := by
  have hne : i ≠ rules.length := Nat.ne_of_lt hi
  by_cases hroom : (encodeAll rules).length + r.bytes < dataSize
  · obtain ⟨rd', hcall, _⟩ := insertRule_data (r := r) h hi hroom
    have hiff := stores_insertedAt_iff h hi hroom hcall
    constructor
    · intro hins
      obtain ⟨rd₁, hcall₁, hstores, _⟩ := hins
      rw [hcall] at hcall₁
      cases hcall₁
      exact .inr ⟨hroom, hiff.mp hstores⟩
    · intro hplace
      have hstores := hiff.mpr (hplace.resolve_left hne).2
      exact ⟨rd', hcall, hstores, _, hstores.read⟩
  · have hlen := length_take_drop rules i
    have hpos := (drop_head hi).1
    have hfault : rd.insertRule r i = none := by
      rw [insertRule, insertRules_at h [r] (Nat.le_of_lt hi), length_encodeAll_single,
        if_neg (by omega), shiftUp_faults hpos (by rw [h.data_length]; omega)]
      rfl
    refine iff_of_false ?_ ?_
    · intro hins
      obtain ⟨rd₁, hcall, _⟩ := hins
      rw [hfault] at hcall
      cases hcall
    · intro hplace
      exact hroom (hplace.resolve_left hne).1

/-- For every stored list, every rule that fits and every position, the rule is inserted
and the others are kept exactly when the first byte of the moved ones is in place. -/
theorem inserts_iff (rd : RuleData) (rules : List Rule) (r : Rule) (i : Nat)
    (h : rd.Stores rules) (hi : i ≤ rules.length)
    (hfit : (encodeAll rules).length + r.bytes ≤ dataSize) :
    Inserts rd rules r i ↔ FirstByteInPlace rd rules r i := by
  cases Nat.lt_or_eq_of_le hi with
  | inl hlt => exact inserts_inner_iff h hlt hfit
  | inr heq =>
    subst heq
    obtain ⟨rd', hcall, _, hstores⟩ := appendRule_fits h hfit
    have hlist : insertedAt rules r rules.length = rules ++ [r] := by
      rw [insertedAt, List.take_length, List.drop_length]
    refine iff_of_true ⟨rd', ?_, ?_⟩ (.inl rfl)
    · rw [appendRule, h.size_eq] at hcall
      exact hcall
    · rw [hlist]
      exact ⟨hstores, _, hstores.read⟩

/- A table that holds the rule for the MAC address, in memory that was zero before. -/
def oneMac : RuleData :=
  { zeroed with size := 1, data := splice zeroed.data 0 (encodeAll [sampleEth]) }

theorem oneMac_stores : oneMac.Stores [sampleEth] :=
  splice_stores zeroed_stores [sampleEth] (by decide)

theorem oneMac_byte : oneMac.data[48]? = some 0 := by
  rw [oneMac, getElem?_splice (by rw [zeroed_stores.data_length]; decide), if_neg (by decide),
    zeroed, List.getElem?_replicate, if_pos (by decide)]

/-- A redirection put in front of it turns the rule into one for an IP address: its type
becomes the zero byte that was there. -/
theorem insert_in_front_not_inserts :
    oneMac.Stores [sampleEth] ∧ (encodeAll [sampleEth]).length + sampleRedirect.bytes ≤ dataSize ∧
      ¬ Inserts oneMac [sampleEth] sampleRedirect 0 := by
  refine ⟨oneMac_stores, by decide, ?_⟩
  intro hins
  have hplace := (inserts_inner_iff oneMac_stores (by decide) (by decide)).mp hins
  have hbyte := (hplace.resolve_left (by decide)).2
  rw [show (encodeAll ([sampleEth].take 0)).length + sampleRedirect.bytes = 48 by decide,
    oneMac_byte] at hbyte
  exact absurd hbyte (by decide)

/- The rule for the MAC address twice. In front of a rule of its own type and length one more of
   them is put where the type of the next one was. -/
def twoMacs : RuleData :=
  { zeroed with size := 2, data := splice zeroed.data 0 (encodeAll [sampleEth, sampleEth]) }

theorem twoMacs_stores : twoMacs.Stores [sampleEth, sampleEth] :=
  splice_stores zeroed_stores [sampleEth, sampleEth] (by decide)

theorem inserts_iff_twoMacs : FirstByteInPlace twoMacs [sampleEth, sampleEth] sampleEth 0 ∧
    Inserts twoMacs [sampleEth, sampleEth] sampleEth 0 := by
  have hbyte : twoMacs.data[(encodeAll ([sampleEth, sampleEth].take 0)).length + sampleEth.bytes]? =
      some sampleEth.ruleType.code := by
    rw [twoMacs, getElem?_splice (by rw [zeroed_stores.data_length]; decide), if_pos (by decide)]
    decide
  have hplace : FirstByteInPlace twoMacs [sampleEth, sampleEth] sampleEth 0 :=
    .inr ⟨by decide, hbyte⟩
  exact ⟨hplace, (inserts_iff twoMacs [sampleEth, sampleEth] sampleEth 0 twoMacs_stores
    (by decide) (by decide)).mpr hplace⟩

end RuleData
end DnsWrapper.Shm
