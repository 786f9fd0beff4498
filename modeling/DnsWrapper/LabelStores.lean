import DnsWrapper.LabelReader

/-! Where ReadLabel stores the name it reads. The array has MAXDNAME bytes and no index is
checked, so what decides is the name in the packet: its labels, followed through the
compression pointers up to the root or to the first element that is rejected. -/
namespace DnsWrapper.Dns
open ByteReader ByteWord NetCommon

/- How the loop of ReadLabel ends: in front of the final store, or with a return. -/
inductive LabelExit where
  | terminate (size : Nat)
  | stopped (stop : Stop Code)

/- The indices of k stores to storage[size++]. -/
def indices (size k : Nat) : List Int := (List.range k).map fun j => ((size + j : Nat) : Int)

/- The while loop with its stores; c is the length byte read last, from in front of pos. The
   checks t >= size and pos + c >= size say that the byte to be read next is not there. -/
def loopStores (d : List UInt8) : Nat → Nat → UInt8 → Nat → Nat → List Int × LabelExit
  | 0, _, _, _, _ => ([], .stopped .outOfFuel)
  | fuel + 1, pos, c, jumps, size =>
    if c ≠ 0 ∧ jumps < maxJumps then
      if c &&& 0xc0 = 0xc0 then
        match d[pos]? with
        | none => ([], .stopped (.failed eFormErr))
        | some b =>
          let t := (join16 (c ^^^ 0xc0) b).toNat
          match d[t]? with
          | none => ([], .stopped (.failed eFormErr))
          | some c' => loopStores d fuel (t + 1) c' (jumps + 1) size
      else if c &&& 0x40 = 0x40 ∨ c &&& 0x80 = 0x80 then ([], .stopped (.failed eNotImp))
      else
        match d[pos + c.toNat]? with
        | none => ([], .stopped (.failed eFormErr))
        | some c' =>
          let (rest, exit) := loopStores d fuel (pos + c.toNat + 1) c' jumps (size + c.toNat + 1)
          (indices size (c.toNat + 1) ++ rest, exit)
    else ([], if jumps = maxJumps then .stopped (.failed eFormErr) else .terminate size)

/- The indices of storage that ReadLabel stores to on the packet d from position p. -/
def readLabelStores (d : List UInt8) (p : Nat) : List Int :=
  match d[p]? with
  | none => []
  | some c =>
    if c = 0 then [0]
    else
      match loopStores d (labelFuel d.length) (p + 1) c 0 0 with
      | (is, .terminate size) => is ++ [(size : Int) - 1]
      | (is, .stopped _) => is

/- What stands at a position of a name. -/
inductive Element where
  | root
  | label (len : Nat)
  | pointer (target : Nat)
  | malformed
  deriving DecidableEq

def elementAt (d : List UInt8) (p : Nat) : Element :=
  match d[p]? with
  | none => .malformed
  | some c =>
    if c.toNat = 0 then .root
    else if c.toNat < 64 then
      if p + 1 + c.toNat < d.length then .label c.toNat else .malformed
    else if c.toNat < 192 then .malformed
    else
      match d[p + 1]? with
      | none => .malformed
      | some b =>
        if (c.toNat - 192) * 256 + b.toNat < d.length then .pointer ((c.toNat - 192) * 256 + b.toNat)
        else .malformed

/-- The labels of the name at p, by their lengths, and whether they end in the root; j
pointers have been followed already. -/
inductive Walk (d : List UInt8) : Nat → Nat → List Nat → Bool → Prop where
  | root {j p} (hj : j < maxJumps) (h : elementAt d p = .root) : Walk d j p [] true
  | rejected {j p} (hj : j < maxJumps) (h : elementAt d p = .malformed) : Walk d j p [] false
  | exhausted {p} : Walk d maxJumps p [] false
  | label {j p len ls e} (hj : j < maxJumps) (h : elementAt d p = .label len)
      (hrest : Walk d j (p + 1 + len) ls e) : Walk d j p (len :: ls) e
  | pointer {j p t ls e} (hj : j < maxJumps) (h : elementAt d p = .pointer t)
      (hrest : Walk d (j + 1) t ls e) : Walk d j p ls e

/- The bytes a name takes in storage: each label and the dot behind it. -/
def textLength (ls : List Nat) : Nat := (ls.map (· + 1)).sum

/-- The labels and their dots fit into the array, and a name that ends in the root has a
label unless its first byte is the root. -/
def NameFits (d : List UInt8) (p : Nat) : Prop :=
  ∀ ls e, Walk d 0 p ls e →
    textLength ls ≤ maxDName ∧ (e = true → ls = [] → elementAt d p = .root)

theorem pointer_bits (c : UInt8) : c &&& 0xc0 = 0xc0 ↔ 192 ≤ c.toNat := by
  have h : ∀ x : BitVec 8, x &&& 192#8 = 192#8 ↔ 192 ≤ x.toNat := by decide
  rw [← UInt8.toBitVec_inj]
  exact h c.toBitVec

theorem reserved_bits {c : UInt8} (hc : c.toNat < 192) :
    (c &&& 0x40 = 0x40 ∨ c &&& 0x80 = 0x80) ↔ 64 ≤ c.toNat := by
  have h : ∀ x : BitVec 8, x.toNat < 192 →
      (x &&& 64#8 = 64#8 ∨ x &&& 128#8 = 128#8 ↔ 64 ≤ x.toNat) := by decide
  rw [← UInt8.toBitVec_inj, ← UInt8.toBitVec_inj]
  exact h c.toBitVec hc

theorem label_bits {c : UInt8} (hc : c.toNat < 64) :
    ¬ c &&& 0xc0 = 0xc0 ∧ ¬ (c &&& 0x40 = 0x40 ∨ c &&& 0x80 = 0x80) := by
  rw [pointer_bits, reserved_bits (by omega)]
  omega

theorem pointer_target {c : UInt8} (b : UInt8) (hc : 192 ≤ c.toNat) :
    (join16 (c ^^^ 0xc0) b).toNat = (c.toNat - 192) * 256 + b.toNat := by
  have h : ∀ x : BitVec 8, 192 ≤ x.toNat → (x ^^^ 192#8).toNat = x.toNat - 192 := by decide
  have hx : (c ^^^ 0xc0).toNat = c.toNat - 192 := h c.toBitVec hc
  rw [toNat_join16, hx]

theorem indices_add (size k l : Nat) :
    indices size k ++ indices (size + k) l = indices size (k + l) := by
  rw [indices, indices, indices, List.range_add, List.map_append, List.map_map]
  congr 1
  apply List.map_congr_left
  intro j _
  simp only [Function.comp_apply, Nat.add_assoc]

/- The bytes behind each element. -/
inductive Reads (d : List UInt8) (p : Nat) : Element → Prop where
  | outside (h : d[p]? = none) : Reads d p .malformed
  | root (h : d[p]? = some 0) : Reads d p .root
  | label {c} (h : d[p]? = some c) (hzero : c ≠ 0) (hc : c.toNat < 64)
      (hin : p + 1 + c.toNat < d.length) : Reads d p (.label c.toNat)
  | cutLabel {c} (h : d[p]? = some c) (hzero : c ≠ 0) (hc : c.toNat < 64)
      (hout : d[p + 1 + c.toNat]? = none) : Reads d p .malformed
  | reserved {c} (h : d[p]? = some c) (hzero : c ≠ 0) (hlow : 64 ≤ c.toNat)
      (hhigh : c.toNat < 192) : Reads d p .malformed
  | cutPointer {c} (h : d[p]? = some c) (hzero : c ≠ 0) (hc : 192 ≤ c.toNat)
      (hout : d[p + 1]? = none) : Reads d p .malformed
  | pointer {c b} (h : d[p]? = some c) (hzero : c ≠ 0) (hc : 192 ≤ c.toNat)
      (hb : d[p + 1]? = some b) (hin : (c.toNat - 192) * 256 + b.toNat < d.length) :
      Reads d p (.pointer ((c.toNat - 192) * 256 + b.toNat))
  | wildPointer {c b} (h : d[p]? = some c) (hzero : c ≠ 0) (hc : 192 ≤ c.toNat)
      (hb : d[p + 1]? = some b) (hout : d[(c.toNat - 192) * 256 + b.toNat]? = none) :
      Reads d p .malformed

theorem reads_elementAt (d : List UInt8) (p : Nat) : Reads d p (elementAt d p) := by
  unfold elementAt
  split
  · rename_i h
    exact .outside h
  rename_i c h
  split
  · rename_i hzero
    exact .root (h.trans (congrArg some (UInt8.toNat_inj.mp hzero)))
  rename_i hpos
  have hzero : c ≠ 0 := fun hc => hpos (by rw [hc]; rfl)
  split
  · rename_i hc
    split
    · rename_i hin
      exact .label h hzero hc hin
    · rename_i hout
      exact .cutLabel h hzero hc (List.getElem?_eq_none (Nat.le_of_not_lt hout))
  rename_i hlow
  split
  · rename_i hhigh
    exact .reserved h hzero (Nat.le_of_not_lt hlow) hhigh
  rename_i hc
  split
  · rename_i hout
    exact .cutPointer h hzero (Nat.le_of_not_lt hc) hout
  rename_i b hb
  split
  · rename_i hin
    exact .pointer h hzero (Nat.le_of_not_lt hc) hb hin
  · rename_i hout
    exact .wildPointer h hzero (Nat.le_of_not_lt hc) hb
      (List.getElem?_eq_none (Nat.le_of_not_lt hout))

theorem reads_of_elementAt {d : List UInt8} {p : Nat} {e : Element} (h : elementAt d p = e) :
    Reads d p e := by
  have hr := reads_elementAt d p
  rw [h] at hr
  exact hr

section Turns
variable {d : List UInt8} {p : Nat} {c : UInt8} {jumps : Nat}

theorem turn_root (hc : d[p]? = some c) (hj : jumps < maxJumps) (h : elementAt d p = .root)
    (fuel size : Nat) : loopStores d (fuel + 1) (p + 1) c jumps size = ([], .terminate size) := by
  have hr := reads_of_elementAt h
  cases hr with
  | root hzero =>
    rw [hc] at hzero
    cases hzero
    simp [loopStores, Nat.ne_of_lt hj]

theorem turn_malformed (hc : d[p]? = some c) (hj : jumps < maxJumps)
    (h : elementAt d p = .malformed) (fuel size : Nat) :
    ∃ stop, loopStores d (fuel + 1) (p + 1) c jumps size = ([], .stopped stop) := by
  have hr := reads_of_elementAt h
  cases hr with
  | outside hnone =>
    rw [hc] at hnone
    cases hnone
  | cutLabel hx hzero hlow hout =>
    rw [hc] at hx
    cases hx
    obtain ⟨hptr, hres⟩ := label_bits hlow
    exact ⟨.failed eFormErr, by simp only [loopStores, hzero, hj, hptr, hres, hout, ne_eq, not_false_eq_true,
      and_self, if_true, if_false]⟩
  | reserved hx hzero hlow hhigh =>
    rw [hc] at hx
    cases hx
    have hptr : ¬ c &&& 0xc0 = 0xc0 := by rw [pointer_bits]; omega
    have hres := (reserved_bits hhigh).mpr hlow
    exact ⟨.failed eNotImp, by simp only [loopStores, hzero, hj, hptr, hres, ne_eq, not_false_eq_true, and_self,
      if_true, if_false]⟩
  | cutPointer hx hzero hhigh hout =>
    rw [hc] at hx
    cases hx
    have hptr := (pointer_bits c).mpr hhigh
    exact ⟨.failed eFormErr, by simp only [loopStores, hzero, hj, hptr, hout, ne_eq, not_false_eq_true, and_self,
      if_true]⟩
  | wildPointer hx hzero hhigh hb hout =>
    rw [hc] at hx
    cases hx
    have hptr := (pointer_bits c).mpr hhigh
    exact ⟨.failed eFormErr, by simp only [loopStores, hzero, hj, hptr, hb, pointer_target _ hhigh, hout, ne_eq,
      not_false_eq_true, and_self, if_true]⟩

theorem turn_label {len : Nat} (hc : d[p]? = some c) (hj : jumps < maxJumps)
    (h : elementAt d p = .label len) (fuel size : Nat) :
    ∃ c', d[p + 1 + len]? = some c' ∧ loopStores d (fuel + 1) (p + 1) c jumps size =
      (indices size (len + 1) ++
          (loopStores d fuel (p + 1 + len + 1) c' jumps (size + (len + 1))).1,
        (loopStores d fuel (p + 1 + len + 1) c' jumps (size + (len + 1))).2) := by
  have hr := reads_of_elementAt h
  cases hr with
  | label hx hzero hlow hin =>
    rw [hc] at hx
    cases hx
    obtain ⟨hptr, hres⟩ := label_bits hlow
    refine ⟨_, List.getElem?_eq_getElem hin, ?_⟩
    simp only [loopStores, hzero, hj, hptr, hres, List.getElem?_eq_getElem hin, ne_eq,
      not_false_eq_true, and_self, if_true, if_false]
    rfl

theorem turn_pointer {t : Nat} (hc : d[p]? = some c) (hj : jumps < maxJumps)
    (h : elementAt d p = .pointer t) (fuel size : Nat) :
    ∃ c', d[t]? = some c' ∧ loopStores d (fuel + 1) (p + 1) c jumps size =
      loopStores d fuel (t + 1) c' (jumps + 1) size := by
  have hr := reads_of_elementAt h
  cases hr with
  | pointer hx hzero hhigh hb hin =>
    rw [hc] at hx
    cases hx
    refine ⟨_, List.getElem?_eq_getElem hin, ?_⟩
    have hptr := (pointer_bits c).mpr hhigh
    simp only [loopStores, hzero, hj, hptr, hb, pointer_target _ hhigh,
      List.getElem?_eq_getElem hin, ne_eq, not_false_eq_true, and_self, if_true]

end Turns

theorem exists_walk (d : List UInt8) {j : Nat} (hj : j ≤ maxJumps) (p : Nat) :
    ∃ ls e, Walk d j p ls e := by
  generalize hm : (maxJumps - j) * (d.length + 1) + (d.length - p) = m
  induction m using Nat.strongRecOn generalizing j p with
  | ind m ih =>
    cases Nat.lt_or_eq_of_le hj with
    | inr heq => exact ⟨[], false, heq ▸ .exhausted⟩
    | inl hlt =>
      cases h : elementAt d p with
      | root => exact ⟨[], true, .root hlt h⟩
      | malformed => exact ⟨[], false, .rejected hlt h⟩
      | label len =>
        have hr := reads_of_elementAt h
        cases hr with
        | @label c _ _ _ hin =>
          obtain ⟨ls, e, hw⟩ := ih _ (by omega) hj (p + 1 + c.toNat) rfl
          exact ⟨_, e, .label hlt h hw⟩
      | pointer t =>
        have hr := reads_of_elementAt h
        have hsplit : maxJumps - j = maxJumps - (j + 1) + 1 := by omega
        rw [hsplit, Nat.succ_mul] at hm
        cases hr with
        | @pointer c b _ _ _ _ hin =>
          obtain ⟨ls, e, hw⟩ := ih _ (by omega) (j := j + 1) hlt
            ((c.toNat - 192) * 256 + b.toNat) rfl
          exact ⟨ls, e, .pointer hlt h hw⟩

/- Whether the loop ends in front of the final store. -/
def LabelExit.Ends (size : Nat) (e : Bool) (exit : LabelExit) : Prop :=
  if e then exit = .terminate size else ∃ stop, exit = .stopped stop

/-- The loop stores the labels of the name, one behind the other. The induction is on the
walk; the fuel falls with the jumps left and the bytes left. -/
theorem loopStores_walk {d : List UInt8} {j p : Nat} {ls : List Nat} {e : Bool}
    (h : Walk d j p ls e) {c : UInt8} (hc : d[p]? = some c) {fuel : Nat}
    (hfuel : (maxJumps - j) * (d.length + 1) + (d.length - p) < fuel) (size : Nat) :
    (loopStores d fuel (p + 1) c j size).1 = indices size (textLength ls) ∧
      (loopStores d fuel (p + 1) c j size).2.Ends (size + textLength ls) e := by
  induction h generalizing c fuel size with
  | root hj h =>
    cases fuel with
    | zero => omega
    | succ fuel =>
      rw [turn_root hc hj h]
      exact ⟨rfl, rfl⟩
  | rejected hj h =>
    cases fuel with
    | zero => omega
    | succ fuel =>
      obtain ⟨stop, hstop⟩ := turn_malformed hc hj h fuel size
      rw [hstop]
      exact ⟨rfl, stop, rfl⟩
  | exhausted =>
    cases fuel with
    | zero => omega
    | succ fuel =>
      simp only [loopStores, Nat.lt_irrefl, and_false, if_false, if_true]
      exact ⟨rfl, _, rfl⟩
  | @label j p len ls e hj h hrest ih =>
    cases fuel with
    | zero => omega
    | succ fuel =>
      obtain ⟨c', hc', hturn⟩ := turn_label hc hj h fuel size
      have hlt := (List.getElem?_eq_some_iff.mp hc').1
      have hless : (maxJumps - j) * (d.length + 1) + (d.length - (p + 1 + len)) < fuel := by omega
      obtain ⟨hstores, hends⟩ := ih hc' hless (size + (len + 1))
      have hlen : textLength (len :: ls) = len + 1 + textLength ls := rfl
      rw [hturn, hstores, hlen, indices_add]
      rw [Nat.add_assoc] at hends
      exact ⟨rfl, hends⟩
  | @pointer j p t ls e hj h hrest ih =>
    cases fuel with
    | zero => omega
    | succ fuel =>
      obtain ⟨c', hc', hturn⟩ := turn_pointer hc hj h fuel size
      have hlt := (List.getElem?_eq_some_iff.mp hc').1
      have hsplit : maxJumps - j = maxJumps - (j + 1) + 1 := by omega
      rw [hsplit, Nat.succ_mul] at hfuel
      rw [hturn]
      exact ih hc' (by omega) size

/- The indices that ReadLabel stores to, from the name in the packet. -/
theorem readLabelStores_walk {d : List UInt8} {p : Nat} {ls : List Nat} {e : Bool}
    (h : Walk d 0 p ls e) (hroot : elementAt d p ≠ .root) :
    readLabelStores d p =
      indices 0 (textLength ls) ++ if e then [(textLength ls : Int) - 1] else [] := by
  unfold readLabelStores
  cases hc : d[p]? with
  | none =>
    have hbad : elementAt d p = .malformed := by rw [elementAt, hc]
    cases h with
    | root _ h => exact absurd h hroot
    | rejected _ _ => rfl
    | label _ h _ =>
      rw [hbad] at h
      cases h
    | pointer _ h _ =>
      rw [hbad] at h
      cases h
  | some c =>
    have hzero : c ≠ 0 := by
      intro hzero
      refine hroot ?_
      rw [elementAt, hc, hzero]
      rfl
    have hfuel : (maxJumps - 0) * (d.length + 1) + (d.length - p) < labelFuel d.length := by
      simp only [labelFuel, maxJumps]
      omega
    obtain ⟨hstores, hends⟩ := loopStores_walk h hc hfuel 0
    rw [Nat.zero_add] at hends
    simp only [hzero, if_false]
    generalize loopStores d (labelFuel d.length) (p + 1) c 0 0 = out at hstores hends
    obtain ⟨is, exit⟩ := out
    cases e with
    | true =>
      have hexit : exit = .terminate (textLength ls) := hends
      rw [hexit, ← hstores]
      rfl
    | false =>
      obtain ⟨stop, hexit⟩ := hends
      have hexit : exit = .stopped stop := hexit
      rw [hexit, ← hstores]
      exact (List.append_nil is).symm

def InStorage (i : Int) : Prop := 0 ≤ i ∧ i < maxDName

theorem indices_inStorage (k : Nat) : (∀ i ∈ indices 0 k, InStorage i) ↔ k ≤ maxDName := by
  constructor
  · intro h
    cases k with
    | zero => exact Nat.zero_le _
    | succ k =>
      have hlast := h k (List.mem_map.mpr ⟨k, List.mem_range.mpr (Nat.lt_succ_self k), by simp⟩)
      have hlt := hlast.2
      omega
  · intro hk i hi
    obtain ⟨j, hj, rfl⟩ := List.mem_map.mp hi
    have hlt := List.mem_range.mp hj
    exact ⟨by omega, by omega⟩

theorem textLength_eq_zero {ls : List Nat} : textLength ls = 0 ↔ ls = [] := by
  cases ls with
  | nil => exact iff_of_true rfl rfl
  | cons l ls => simp [textLength]

/- The name at p fits if the one walk from there does. -/
theorem stores_inside_of_walk {d : List UInt8} {p : Nat} {ls : List Nat} {e : Bool}
    (h : Walk d 0 p ls e) :
    (∀ i ∈ readLabelStores d p, InStorage i) ↔
      textLength ls ≤ maxDName ∧ (e = true → ls = [] → elementAt d p = .root) := by
  by_cases hroot : elementAt d p = .root
  · have hr := reads_of_elementAt hroot
    cases hr with
    | root hc =>
      have hstores : readLabelStores d p = [0] := by
        unfold readLabelStores
        rw [hc]
        rfl
      have hnil : ls = [] := by
        cases h with
        | root _ _ => rfl
        | rejected _ _ => rfl
        | label _ h _ =>
          rw [hroot] at h
          cases h
        | pointer _ h _ =>
          rw [hroot] at h
          cases h
      rw [hstores, hnil]
      refine iff_of_true ?_ ⟨Nat.zero_le _, fun _ _ => hroot⟩
      intro i hi
      rw [List.mem_singleton.mp hi]
      exact ⟨Int.le_refl 0, by decide⟩
  · rw [readLabelStores_walk h hroot]
    simp only [List.mem_append, or_imp, forall_and, indices_inStorage]
    refine and_congr_right fun hle => ?_
    cases e with
    | false => simp
    | true =>
      have hpos : InStorage ((textLength ls : Int) - 1) ↔ ls ≠ [] := by
        rw [InStorage, ne_eq, ← textLength_eq_zero]
        omega
      simp [hpos, hroot]

/-- ReadLabel stays inside the array exactly when the name in the packet fits. -/
theorem readLabel_stores_inside_iff (d : List UInt8) (p : Nat) :
    (∀ i ∈ readLabelStores d p, InStorage i) ↔ NameFits d p := by
  obtain ⟨ls, e, h⟩ := exists_walk d (Nat.zero_le maxJumps) p
  constructor
  · intro hin ls' e' h'
    exact (stores_inside_of_walk h').mp hin
  · intro hfits
    exact (stores_inside_of_walk h).mpr (hfits ls e h)

/- The loop with its stores ends as the loop that returns the bytes does, and has stored
   what that one returns. -/
def Agrees (st : LabelState) (out : List Int × LabelExit) :
    Except (Stop Code) (LabelState × Nat) → Prop
  | .ok (st', _) => ∃ k, st'.out.length = st.out.length + k ∧
      out = (indices st.out.length k, if st'.jumps = maxJumps then .stopped (.failed eFormErr)
        else .terminate st'.out.length)
  | .error stop => out.2 = .stopped stop

theorem agrees_label {st : LabelState} {label : List UInt8} {k : Nat} (hk : label.length = k)
    {rest : List Int} {exit : LabelExit} {out : Except (Stop Code) (LabelState × Nat)}
    (h : Agrees { st with out := st.out ++ label ++ [dot] } (rest, exit) out) :
    Agrees st (indices st.out.length (k + 1) ++ rest, exit) out := by
  cases out with
  | error stop => exact h
  | ok x =>
    obtain ⟨m, hlen, hout⟩ := h
    have hsize : (st.out ++ label ++ [dot]).length = st.out.length + (k + 1) := by
      rw [List.length_append, List.length_append, List.length_singleton, hk, Nat.add_assoc]
    simp only [hsize] at hlen hout
    cases hout
    exact ⟨k + 1 + m, by rw [hlen, Nat.add_assoc], by rw [indices_add]⟩

theorem loopStores_agrees (d : List UInt8) (fuel pos : Nat) (c : UInt8) (st : LabelState) :
    Agrees st (loopStores d fuel pos c st.jumps st.out.length)
      ((readLabelLoop fuel c st).run d d.length pos) := by
  induction fuel generalizing pos c st with
  | zero => rfl
  | succ fuel ih =>
    rw [readLabelLoop, loopStores]
    by_cases hloop : c ≠ 0 ∧ st.jumps < maxJumps
    · rw [if_pos hloop, if_pos hloop]
      by_cases hptr : c &&& 0xc0 = 0xc0
      · rw [if_pos hptr, if_pos hptr]
        cases hb : d[pos]? with
        | none =>
          rw [bind_of_error (followPointer_cut c hb)]
          rfl
        | some b =>
          have hfollow := followPointer_some c hb
          by_cases ht : (join16 (c ^^^ 0xc0) b).toNat < d.length
          · rw [if_neg (Nat.not_le.mpr ht)] at hfollow
            rw [bind_of_ok hfollow, bind_of_ok (vreadU8_ok ht ht)]
            simp only [List.getElem?_eq_getElem ht]
            exact ih _ _ { st with jumps := st.jumps + 1, resume := pos + 1 }
          · rw [if_pos (Nat.le_of_not_lt ht)] at hfollow
            rw [bind_of_error hfollow]
            simp only [List.getElem?_eq_none (Nat.le_of_not_lt ht)]
            rfl
      · rw [if_neg hptr, if_neg hptr]
        by_cases hres : c &&& 0x40 = 0x40 ∨ c &&& 0x80 = 0x80
        · rw [if_pos hres, if_pos hres]
          rfl
        · rw [if_neg hres, if_neg hres]
          by_cases hlt : pos + c.toNat < d.length
          · rw [bind_of_ok (takeLabel_ok hlt), bind_of_ok (vreadU8_ok hlt hlt)]
            simp only [List.getElem?_eq_getElem hlt]
            have hlabel : ((d.drop pos).take c.toNat).length = c.toNat := by
              rw [List.length_take, List.length_drop]
              omega
            have hrest := ih (pos + c.toNat + 1) d[pos + c.toNat]
              { st with out := st.out ++ (d.drop pos).take c.toNat ++ [dot] }
            have hsize : (st.out ++ (d.drop pos).take c.toNat ++ [dot]).length =
                st.out.length + c.toNat + 1 := by
              rw [List.length_append, List.length_append, List.length_singleton, hlabel]
            simp only [hsize] at hrest
            exact agrees_label hlabel hrest
          · rw [bind_of_error (takeLabel_cut (Nat.le_of_not_lt hlt))]
            simp only [List.getElem?_eq_none (Nat.le_of_not_lt hlt)]
            rfl
    · rw [if_neg hloop, if_neg hloop]
      exact ⟨0, rfl, rfl⟩

/- A packet whose name at position 1 is a pointer to the root byte at position 0, and one
   whose name is seventeen labels of 63 bytes. -/
def pointerToRoot : List UInt8 := [0, 0xc0, 0]

def longName : List UInt8 :=
  (List.replicate 17 (63 :: List.replicate 63 97)).flatten ++ [0]

/-- The first stores to storage[-1], the second to storage[1025]. -/
theorem stores_outside :
    (pointerToRoot.length ≤ 2267 ∧ ∃ i ∈ readLabelStores pointerToRoot 1, ¬ InStorage i) ∧
      longName.length ≤ 2267 ∧ ∃ i ∈ readLabelStores longName 0, ¬ InStorage i := by
  refine ⟨⟨by decide, -1, by decide, by simp [InStorage]⟩, by decide +kernel, 1025, ?_, ?_⟩
  · decide +kernel
  · simp [InStorage, maxDName]

end DnsWrapper.Dns
