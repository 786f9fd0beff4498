import DnsWrapper.ByteWriter

/-! Regions of a byte array: what stands at a position, writers that replace a region and
leave the rest, and the loops that move bytes up or down over a gap. -/
namespace DnsWrapper.ByteRegion
open ByteWriter
variable {α : Type}

/- The bytes bs stand in data at position i. -/
def Holds (data : List UInt8) (i : Nat) (bs : List UInt8) : Prop := bs <+: data.drop i

theorem holds_zero {data bs : List UInt8} : Holds data 0 bs ↔ bs <+: data := by
  rw [Holds, List.drop_zero]

theorem holds_append {data bs cs : List UInt8} {i : Nat} :
    Holds data i (bs ++ cs) ↔ Holds data i bs ∧ Holds data (i + bs.length) cs := by
  constructor
  · rintro ⟨rest, h⟩
    refine ⟨⟨cs ++ rest, by rw [← h, List.append_assoc]⟩, rest, ?_⟩
    rw [← List.drop_drop, ← h, List.append_assoc, List.drop_left]
  · rintro ⟨⟨rest, h⟩, tail, h'⟩
    rw [← List.drop_drop, ← h, List.drop_left] at h'
    exact ⟨tail, by rw [← h, ← h', List.append_assoc]⟩

theorem holds_getElem? {data bs : List UInt8} {i j : Nat} (h : Holds data i bs)
    (hj : j < bs.length) : data[i + j]? = bs[j]? := by
  obtain ⟨rest, h⟩ := h
  rw [← List.getElem?_drop, ← h, List.getElem?_append_left hj]

theorem holds_iff {data bs : List UInt8} {i : Nat} :
    Holds data i bs ↔ ∀ j < bs.length, data[i + j]? = bs[j]? := by
  refine ⟨fun h j hj => holds_getElem? h hj, ?_⟩
  intro h
  rw [Holds, List.prefix_iff_getElem?]
  intro j hj
  rw [List.getElem?_drop, h j hj, List.getElem?_eq_getElem hj]

theorem holds_length {data bs : List UInt8} {i : Nat} (h : Holds data i bs) (hbs : bs ≠ []) :
    i + bs.length ≤ data.length := by
  have hle := h.length_le
  have hpos := List.length_pos_iff.mpr hbs
  rw [List.length_drop] at hle
  omega

/- The array data with bs in place of what stood at i. -/
def splice (data : List UInt8) (i : Nat) (bs : List UInt8) : List UInt8 :=
  data.take i ++ bs ++ data.drop (i + bs.length)

theorem length_splice {data bs : List UInt8} {i : Nat} (h : i + bs.length ≤ data.length) :
    (splice data i bs).length = data.length := by
  rw [splice, List.length_append, List.length_append, List.length_take, List.length_drop]
  omega

theorem splice_nil (data : List UInt8) (i : Nat) : splice data i [] = data := by
  simp [splice]

theorem splice_splice {data bs cs : List UInt8} {i : Nat} (h : i ≤ data.length) :
    splice (splice data i bs) (i + bs.length) cs = splice data i (bs ++ cs) := by
  have hpre : (data.take i ++ bs).length = i + bs.length := by
    rw [List.length_append, List.length_take, Nat.min_eq_left h]
  have htake : (splice data i bs).take (i + bs.length) = data.take i ++ bs := by
    rw [splice, List.take_left' hpre]
  have hdrop : (splice data i bs).drop (i + bs.length + cs.length) =
      data.drop (i + (bs ++ cs).length) := by
    rw [splice, ← List.drop_drop, List.drop_left' hpre, List.drop_drop, List.length_append,
      Nat.add_assoc]
  rw [splice, htake, hdrop, splice, List.append_assoc (data.take i) bs cs]

/-- Where there is room, the writer puts bs at the cursor and changes nothing else. -/
def Overwrites (w : Writer) (bs : List UInt8) : Prop :=
  ∀ data p, p + bs.length ≤ data.length →
    w.run data p = some (splice data p bs, p + bs.length)

theorem overwrites_done : Overwrites done [] := by
  intro data p _
  rw [splice_nil]
  rfl

theorem overwrites_put (b : UInt8) : Overwrites (put b) [b] := by
  intro data p h
  have hlt : p < data.length := h
  have hset : data.set p b = splice data p [b] := by
    rw [List.set_eq_take_append_cons_drop, if_pos hlt, splice, List.append_assoc]
    rfl
  simp [put, store_eq_some hlt, hset]

theorem overwrites_andThen {v w : Writer} {bs cs : List UInt8} (hv : Overwrites v bs)
    (hw : Overwrites w cs) : Overwrites (andThen v w) (bs ++ cs) := by
  intro data p h
  rw [List.length_append] at h
  have hroom : p + bs.length ≤ data.length := by omega
  rw [andThen_of_some (hv data p hroom), hw _ _ (by rw [length_splice hroom]; omega),
    splice_splice (by omega), List.length_append, Nat.add_assoc]

theorem overwrites_putAll (bs : List UInt8) : Overwrites (putAll bs) bs := by
  induction bs with
  | nil => exact overwrites_done
  | cons b bs ih => exact overwrites_andThen (overwrites_put b) ih

theorem overwrites_all {w : α → Writer} {enc : α → List UInt8} (as : List α)
    (h : ∀ a ∈ as, Overwrites (w a) (enc a)) : Overwrites (all w as) (as.flatMap enc) := by
  induction as with
  | nil => exact overwrites_done
  | cons a as ih =>
    exact overwrites_andThen (h a List.mem_cons_self)
      (ih fun b hb => h b (List.mem_cons_of_mem a hb))

/- for (t = stop + k; t > stop; t--) *t = *(t - bytes) -/
def shiftUp (bytes stop : Nat) : Nat → List UInt8 → Option (List UInt8)
  | 0, data => some data
  | k + 1, data => do
    let b ← data[stop + k + 1 - bytes]?
    let data ← store (stop + k + 1) b data
    shiftUp bytes stop k data

/- k turns of for (...; t++) *t = *(t + bytes) -/
def shiftDown (bytes : Nat) : Nat → Nat → List UInt8 → Option (List UInt8)
  | 0, _, data => some data
  | k + 1, t, data => do
    let b ← data[t + bytes]?
    let data ← store t b data
    shiftDown bytes k (t + 1) data

theorem length_shiftUp {bytes stop k : Nat} {data data' : List UInt8}
    (h : shiftUp bytes stop k data = some data') : data'.length = data.length := by
  induction k generalizing data with
  | zero =>
    cases h
    rfl
  | succ k ih =>
    obtain ⟨b, _, h⟩ := Option.bind_eq_some_iff.mp h
    obtain ⟨data₁, hstore, h⟩ := Option.bind_eq_some_iff.mp h
    have hlen : data₁.length = data.length := by
      by_cases hin : stop + k + 1 < data.length
      · rw [store_eq_some hin] at hstore
        cases hstore
        exact List.length_set
      · rw [store_eq_none (Nat.le_of_not_lt hin)] at hstore
        cases hstore
    rw [ih h, hlen]

/-- The bytes mid move down over the gap; behind them something of the same length is
left. The gap travels up one byte with every turn. -/
theorem shiftDown_over_gap (pre mid post : List UInt8) {gap : List UInt8} (hgap : gap ≠ []) :
    ∃ junk, junk.length = gap.length + post.length ∧
      shiftDown gap.length mid.length pre.length (pre ++ gap ++ mid ++ post) =
        some (pre ++ mid ++ junk) := by
  induction mid generalizing pre gap with
  | nil => exact ⟨gap ++ post, List.length_append, by simp [shiftDown]⟩
  | cons m mid ih =>
    cases gap with
    | nil => exact absurd rfl hgap
    | cons g gap =>
      have hget : (pre ++ g :: gap ++ m :: mid ++ post)[pre.length + (g :: gap).length]? =
          some m := by
        simp
      have hlt : pre.length < (pre ++ g :: gap ++ m :: mid ++ post).length := by
        simp
      have hset : (pre ++ g :: gap ++ m :: mid ++ post).set pre.length m =
          pre ++ [m] ++ (gap ++ [m]) ++ mid ++ post := by
        simp
      obtain ⟨junk, hlen, hrest⟩ := ih (pre ++ [m]) (List.append_ne_nil_of_right_ne_nil gap
        (List.cons_ne_nil m []))
      refine ⟨junk, by rw [hlen]; simp, ?_⟩
      rw [List.length_append, List.length_singleton, List.length_append,
        List.length_singleton] at hrest
      simp only [List.length_cons, shiftDown]
      rw [← List.length_cons, hget, Option.bind_eq_bind, Option.bind_some, store_eq_some hlt, hset]
      simpa using hrest

/-- The upward loop copies the k bytes behind position i, not the one at i. The order is
from the end, so every byte is read before it is replaced. -/
theorem shiftUp_copies {bytes i k : Nat} (hb : 0 < bytes) {data : List UInt8}
    (hroom : k = 0 ∨ i + bytes + k < data.length) :
    ∃ data', shiftUp bytes (i + bytes) k data = some data' ∧ data'.length = data.length ∧
      ∀ j, data'[j]? = if i + bytes < j ∧ j ≤ i + bytes + k then data[j - bytes]? else data[j]? := by
  induction k generalizing data with
  | zero =>
    refine ⟨data, rfl, rfl, ?_⟩
    intro j
    rw [if_neg (by omega)]
  | succ k ih =>
    have hlt : i + bytes + (k + 1) < data.length := hroom.resolve_left (Nat.succ_ne_zero k)
    have hsrc : i + bytes + k + 1 - bytes < data.length := by omega
    obtain ⟨data', hrest, hlen, hget⟩ :=
      @ih (data.set (i + bytes + k + 1) data[i + bytes + k + 1 - bytes])
        (.inr (by rw [List.length_set]; omega))
    refine ⟨data', ?_, by rw [hlen, List.length_set], ?_⟩
    · rw [shiftUp, List.getElem?_eq_getElem hsrc, Option.bind_eq_bind, Option.bind_some,
        store_eq_some (by omega), Option.bind_eq_bind, Option.bind_some]
      exact hrest
    · intro j
      rw [hget]
      by_cases hin : i + bytes < j ∧ j ≤ i + bytes + k
      · rw [if_pos hin, if_pos (by omega), List.getElem?_set_ne (by omega)]
      rw [if_neg hin]
      by_cases hj : j = i + bytes + k + 1
      · subst hj
        rw [if_pos (by omega), List.getElem?_set_self (by omega), List.getElem?_eq_getElem hsrc]
      · rw [if_neg (by omega), List.getElem?_set_ne (Ne.symm hj)]

/-- Its first store is one byte behind the room that it needs. -/
theorem shiftUp_faults {bytes i k : Nat} {data : List UInt8} (hk : 0 < k)
    (hroom : data.length ≤ i + bytes + k) : shiftUp bytes (i + bytes) k data = none := by
  cases k with
  | zero => cases hk
  | succ k =>
    rw [shiftUp]
    cases data[i + bytes + k + 1 - bytes]? with
    | none => rfl
    | some b =>
      rw [Option.bind_eq_bind, Option.bind_some, store_eq_none (by omega)]
      rfl

theorem getElem?_splice {data bs : List UInt8} {i j : Nat} (h : i + bs.length ≤ data.length) :
    (splice data i bs)[j]? = if i ≤ j ∧ j < i + bs.length then bs[j - i]? else data[j]? := by
  have hpre : (data.take i).length = i := List.length_take_of_le (by omega)
  rw [splice, List.append_assoc]
  by_cases hlo : j < i
  · rw [if_neg (by omega), List.getElem?_append_left (by omega), List.getElem?_take_of_lt hlo]
  rw [List.getElem?_append_right (by omega), hpre]
  by_cases hhi : j < i + bs.length
  · rw [if_pos (by omega), List.getElem?_append_left (by omega)]
  · rw [if_neg (by omega), List.getElem?_append_right (by omega), List.getElem?_drop]
    congr 1
    omega

theorem holds_splice {data bs : List UInt8} {i : Nat} (h : i + bs.length ≤ data.length) :
    Holds (splice data i bs) i bs := by
  rw [holds_iff]
  intro j hj
  rw [getElem?_splice h, if_pos (by omega), Nat.add_sub_cancel_left]

end DnsWrapper.ByteRegion
