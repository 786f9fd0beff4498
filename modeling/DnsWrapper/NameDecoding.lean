import DnsWrapper.LabelStores
import DnsWrapper.NameWire

/-! Names as RFC 1035 decodes them, and what ReadLabel makes of them. It finds the labels of
every name with at most four compression pointers; where it goes on reading is a variable
that each pointer overwrites, so that the last pointer decides and not the first one. -/
namespace DnsWrapper.Dns
open ByteReader ByteWord NetCommon

/-- The name at p: its labels, the position behind each compression pointer that is
followed, and the position behind the zero byte. -/
inductive Decodes (d : List UInt8) : Nat → List (List UInt8) → List Nat → Nat → Prop where
  | root {p} (h : d[p]? = some 0) : Decodes d p [] [] (p + 1)
  | label {p c labels ends q} (h : d[p]? = some c) (hlow : 1 ≤ c.toNat) (hhigh : c.toNat ≤ 63)
      (hin : p + 1 + c.toNat ≤ d.length) (hrest : Decodes d (p + 1 + c.toNat) labels ends q) :
      Decodes d p ((d.drop (p + 1)).take c.toNat :: labels) ends q
  | pointer {p c b labels ends q} (h : d[p]? = some c) (hc : 192 ≤ c.toNat)
      (hb : d[p + 1]? = some b) (hin : (c.toNat - 192) * 256 + b.toNat < d.length)
      (hrest : Decodes d ((c.toNat - 192) * 256 + b.toNat) labels ends q) :
      Decodes d p labels ((p + 2) :: ends) q

/- The labels and the number of pointers that a decoder has met on its way from p, at any
   moment of it. -/
inductive Met (d : List UInt8) : Nat → List (List UInt8) → Nat → Prop where
  | start {p} : Met d p [] 0
  | label {p c labels k} (h : d[p]? = some c) (hlow : 1 ≤ c.toNat) (hhigh : c.toNat ≤ 63)
      (hin : p + 1 + c.toNat ≤ d.length) (hrest : Met d (p + 1 + c.toNat) labels k) :
      Met d p ((d.drop (p + 1)).take c.toNat :: labels) k
  | pointer {p c b labels k} (h : d[p]? = some c) (hc : 192 ≤ c.toNat)
      (hb : d[p + 1]? = some b) (hin : (c.toNat - 192) * 256 + b.toNat < d.length)
      (hrest : Met d ((c.toNat - 192) * 256 + b.toNat) labels k) : Met d p labels (k + 1)

def dottedName (labels : List (List UInt8)) : List UInt8 := [dot].intercalate labels

/- What ReadLabel leaves at the front of the array: the labels with their dots, the last of
   which the final store replaces by NUL. Nothing, if that store falls on storage[-1]. -/
def LabelState.stored (st : LabelState) : List UInt8 :=
  if st.out = [] then [] else st.out.dropLast ++ [0]

/- ReadLabel, returning the bytes it leaves in storage. -/
def readLabelStorage : Reader Code (List UInt8) := do
  let c ← vreadU8
  if c = 0 then pure [0]
  else do
    let size ← nominal
    let st ← readLabelLoop (labelFuel size) c { jumps := 0, out := [], resume := 0 }
    if st.jumps = maxJumps then fail eFormErr
    else if st.resume > 0 then do
      seek st.resume
      pure st.stored
    else pure st.stored

/- The array as a string, or its earlier contents if nothing was stored. -/
def storedName (old : CString) (bs : List UInt8) : CString :=
  if bs = [] then old else CString.ofArray bs

theorem ofArray_nul (bs : List UInt8) : CString.ofArray (bs ++ [0]) = CString.ofArray bs := by
  have htake : (bs ++ [0]).takeWhile (fun b => b != 0) = bs.takeWhile fun b => b != 0 := by
    rw [List.takeWhile_append]
    split
    · rename_i hall
      have hself : bs.takeWhile (fun b => b != 0) = bs := by
        exact List.IsPrefix.eq_of_length (List.takeWhile_prefix _) hall
      simp [hself]
    · rfl
  simp only [CString.ofArray, htake]

theorem name_stored (st : LabelState) (old : CString) : st.name old = storedName old st.stored := by
  unfold LabelState.name LabelState.stored storedName
  by_cases h : st.out = []
  · simp [h]
  · simp [h, ofArray_nul]

/-- readLabel is ReadLabel with the array read as a string. -/
theorem readLabel_storage (old : CString) (buf : List UInt8) (n p : Nat) :
    (readLabel old).run buf n p =
      (readLabelStorage >>= fun bs => pure (storedName old bs)).run buf n p := by
  rw [readLabel, readLabelStorage, bind_apply, bind_apply, bind_apply]
  cases vreadU8.run buf n p with
  | error e => rfl
  | ok v =>
    obtain ⟨c, q⟩ := v
    by_cases hc : c = 0
    · simp only [if_pos hc]
      rfl
    · simp only [if_neg hc, bind_apply]
      cases (nominal : Reader Code Nat).run buf n q with
      | error e => rfl
      | ok v =>
        obtain ⟨size, q⟩ := v
        simp only
        cases (readLabelLoop (labelFuel size) c ⟨0, [], 0⟩).run buf n q with
        | error e => rfl
        | ok v =>
          obtain ⟨st, q⟩ := v
          by_cases hj : st.jumps = maxJumps
          · simp only [if_pos hj]
            rfl
          · simp only [if_neg hj, name_stored]
            by_cases hres : st.resume > 0
            · simp only [if_pos hres]
              rfl
            · simp only [if_neg hres]
              rfl

theorem stable_storage : Stable readLabelStorage := by
  apply stable_bind stable_vreadU8
  intro c
  apply stable_ite
  · exact stable_pure _
  · apply stable_bind stable_nominal
    intro size
    apply stable_bind (stable_readLabelLoop _ _ _)
    intro st
    apply stable_ite
    · exact stable_fail _
    · apply stable_ite
      · exact stable_bind (stable_seek _) fun _ => stable_pure _
      · exact stable_pure _

section Loop
variable {d : List UInt8}

/- A length byte that is not zero, from what decoding says of it. -/
theorem ne_zero_of_toNat {c : UInt8} (h : 1 ≤ c.toNat) : c ≠ 0 := by
  rintro rfl
  exact absurd h (by decide)

theorem lt_length_of_decodes {p : Nat} {labels : List (List UInt8)} {ends : List Nat} {q : Nat}
    (h : Decodes d p labels ends q) : p < d.length := by
  cases h with
  | root h => exact (List.getElem?_eq_some_iff.mp h).1
  | label h _ _ _ _ => exact (List.getElem?_eq_some_iff.mp h).1
  | pointer h _ _ _ _ => exact (List.getElem?_eq_some_iff.mp h).1

/-- A zero byte is the root, whatever follows it. -/
theorem decodes_zero {p : Nat} {labels : List (List UInt8)} {ends : List Nat} {q : Nat}
    (hzero : d[p]? = some 0) (h : Decodes d p labels ends q) :
    labels = [] ∧ ends = [] ∧ q = p + 1 := by
  cases h with
  | root h => exact ⟨rfl, rfl, rfl⟩
  | label h hlow _ _ _ =>
    rw [hzero] at h
    cases h
    exact absurd hlow (by decide)
  | pointer h hc _ _ _ =>
    rw [hzero] at h
    cases h
    exact absurd hc (by decide)

/-- The loop of ReadLabel over a name: its labels are stored one behind the other, each
pointer counts as a jump, and the last one is where the reading goes on. -/
theorem readLabelLoop_decodes {p : Nat} {labels : List (List UInt8)} {ends : List Nat} {q : Nat}
    (h : Decodes d p labels ends q) {c : UInt8} (hc : d[p]? = some c) (st : LabelState)
    (hj : st.jumps + ends.length < maxJumps) {fuel : Nat}
    (hfuel : (maxJumps - st.jumps) * (d.length + 1) + (d.length - p) < fuel) :
    (readLabelLoop fuel c st).run d d.length (p + 1) =
      .ok ({ jumps := st.jumps + ends.length
             out := st.out ++ labels.flatMap fun l => l ++ [dot]
             resume := ends.getLastD st.resume }, q) := by
  induction h generalizing c st fuel with
  | root h =>
    rw [hc] at h
    cases h
    cases fuel with
    | zero => omega
    | succ fuel =>
      rw [readLabelLoop, if_neg (by simp), pure_apply]
      simp
  | @label p x labels ends q h hlow hhigh hin hrest ih =>
    rw [hc] at h
    cases h
    cases fuel with
    | zero => omega
    | succ fuel =>
      have hnext := lt_length_of_decodes hrest
      obtain ⟨hptr, hres⟩ := label_bits (show x.toNat < 64 by omega)
      rw [readLabelLoop, if_pos ⟨ne_zero_of_toNat hlow, by omega⟩, if_neg hptr, if_neg hres,
        bind_of_ok (takeLabel_ok hnext), bind_of_ok (vreadU8_ok hnext hnext),
        ih (List.getElem?_eq_getElem hnext)
          { st with out := st.out ++ (d.drop (p + 1)).take x.toNat ++ [dot] } hj
          (by simp only; omega)]
      simp
  | @pointer p x b labels ends q h hhigh hb hin hrest ih =>
    rw [hc] at h
    cases h
    cases fuel with
    | zero => omega
    | succ fuel =>
      have hptr := (pointer_bits x).mpr hhigh
      have hfollow := followPointer_some x hb
      rw [pointer_target b hhigh, if_neg (Nat.not_le.mpr hin)] at hfollow
      have hsplit : maxJumps - st.jumps = maxJumps - (st.jumps + 1) + 1 := by omega
      rw [hsplit, Nat.succ_mul] at hfuel
      rw [List.length_cons] at hj
      rw [readLabelLoop, if_pos ⟨ne_zero_of_toNat (by omega), by omega⟩, if_pos hptr,
        bind_of_ok hfollow, bind_of_ok (vreadU8_ok hin hin),
        ih (List.getElem?_eq_getElem hin) { st with jumps := st.jumps + 1, resume := p + 1 + 1 }
          (by simp only; omega) (by simp only; omega)]
      rw [List.getLastD_cons, List.length_cons, Nat.add_comm ends.length, ← Nat.add_assoc st.jumps]

end Loop

section Storage
variable {d : List UInt8} {p : Nat}

/- The end of the name as ReadLabel takes it: behind the last pointer it follows. -/
def lastEnd (ends : List Nat) (q : Nat) : Nat := ends.getLastD q

/- The end of the name as RFC 1035 has it: behind the first pointer. -/
def firstEnd (ends : List Nat) (q : Nat) : Nat := ends.headD q

/- What is left in the array for a name with these labels. -/
def storedLabels (labels : List (List UInt8)) (ends : List Nat) : List UInt8 :=
  if labels = [] then if ends = [] then [0] else [] else dottedName labels ++ [0]

theorem pos_of_mem_ends {labels : List (List UInt8)} {ends : List Nat} {q : Nat}
    (h : Decodes d p labels ends q) : ∀ e ∈ ends, 0 < e := by
  induction h with
  | root h => exact nofun
  | label h hlow hhigh hin hrest ih => exact ih
  | pointer h hc hb hin hrest ih =>
    rw [List.forall_mem_cons]
    exact ⟨Nat.succ_pos _, ih⟩

theorem stored_labels (j r : Nat) (labels : List (List UInt8)) :
    LabelState.stored ⟨j, labels.flatMap fun l => l ++ [dot], r⟩ =
      if labels = [] then [] else dottedName labels ++ [0] := by
  rw [LabelState.stored]
  by_cases hl : labels = []
  · simp [hl]
  · have hne : labels.flatMap (fun l => l ++ [dot]) ≠ [] := by
      obtain ⟨l, rest, rfl⟩ := List.exists_cons_of_ne_nil hl
      simp
    rw [if_neg hne, if_neg hl, dropLast_flatMap_dot hl, dottedName]

/-- ReadLabel on a name with at most four pointers. -/
theorem storage_decodes {labels : List (List UInt8)} {ends : List Nat} {q : Nat}
    (h : Decodes d p labels ends q) (hk : ends.length < maxJumps) :
    readLabelStorage.run d d.length p = .ok (storedLabels labels ends, lastEnd ends q) := by
  have hp := lt_length_of_decodes h
  have hc : d[p]? = some d[p] := List.getElem?_eq_getElem hp
  rw [readLabelStorage, bind_of_ok (vreadU8_ok hp hp)]
  by_cases hzero : d[p] = 0
  · rw [hzero] at hc
    obtain ⟨rfl, rfl, rfl⟩ := decodes_zero hc h
    rw [if_pos hzero]
    rfl
  · have hfuel : (maxJumps - 0) * (d.length + 1) + (d.length - p) < labelFuel d.length := by
      simp only [labelFuel, maxJumps]
      omega
    have hloop := readLabelLoop_decodes h hc ⟨0, [], 0⟩ (by simpa using hk) hfuel
    have hn : (nominal : Reader Code Nat).run d d.length (p + 1) = .ok (d.length, p + 1) := rfl
    rw [if_neg hzero, bind_of_ok hn, bind_of_ok hloop]
    simp only [Nat.zero_add, List.nil_append, stored_labels]
    rw [if_neg (Nat.ne_of_lt hk)]
    cases ends with
    | nil =>
      have hlabels : labels ≠ [] := by
        rintro rfl
        cases h with
        | root h =>
          rw [hc] at h
          exact hzero (Option.some.inj h)
      rw [if_neg (by simp), pure_apply, storedLabels, if_neg hlabels, if_neg hlabels]
      rfl
    | cons e ends =>
      have hpos : (e :: ends).getLastD 0 > 0 := by
        rw [List.getLastD_cons, ← List.getLast_eq_getLastD (List.cons_ne_nil e ends)]
        exact pos_of_mem_ends h _ (List.getLast_mem _)
      have hend : (e :: ends).getLastD 0 = lastEnd (e :: ends) q := rfl
      have hstored : storedLabels labels (e :: ends) =
          if labels = [] then [] else dottedName labels ++ [0] := rfl
      rw [if_pos hpos, hend, hstored]
      rfl

theorem length_label {c : UInt8} (h : p + 1 + c.toNat ≤ d.length) :
    ((d.drop (p + 1)).take c.toNat).length = c.toNat := by
  rw [List.length_take, List.length_drop]
  omega

/- A walk that ends in the root is a name, with the jumps that are left for its pointers. -/
theorem decodes_of_walk {j : Nat} {ls : List Nat} {e : Bool} (h : Walk d j p ls e)
    (he : e = true) : ∃ labels ends q, Decodes d p labels ends q ∧
      j + ends.length < maxJumps ∧ labels.map List.length = ls := by
  induction h with
  | @root j p hj h =>
    have hr := reads_of_elementAt h
    cases hr with
    | root hc => exact ⟨[], [], _, .root hc, hj, rfl⟩
  | rejected hj h => cases he
  | exhausted => cases he
  | @label j p len ls e hj h hrest ih =>
    have hr := reads_of_elementAt h
    obtain ⟨labels, ends, q, hd, hlt, hls⟩ := ih he
    cases hr with
    | @label c hc hzero hlow hin =>
      have hpos : 1 ≤ c.toNat := Nat.pos_of_ne_zero fun hz => hzero (UInt8.toNat_inj.mp hz)
      refine ⟨_, ends, q, .label hc hpos (by omega) (by omega) hd, hlt, ?_⟩
      rw [List.map_cons, hls, length_label (by omega)]
  | @pointer j p t ls e hj h hrest ih =>
    have hr := reads_of_elementAt h
    obtain ⟨labels, ends, q, hd, hlt, hls⟩ := ih he
    cases hr with
    | pointer hc hzero hhigh hb hin =>
      refine ⟨labels, _, q, .pointer hc hhigh hb hin hd, ?_, hls⟩
      rw [List.length_cons]
      omega

/- A walk that is rejected makes ReadLabel fail. -/
theorem storage_rejected {ls : List Nat} (h : Walk d 0 p ls false) (bs : List UInt8) (q : Nat) :
    readLabelStorage.run d d.length p ≠ .ok (bs, q) := by
  intro hrun
  obtain ⟨c, p₁, hread, hrun⟩ := bind_eq_ok.mp hrun
  obtain he | ⟨hp, b, he⟩ := vreadU8_cases d p
  · rw [he] at hread
    cases hread
  have hb : d[p]? = some c ∧ p₁ = p + 1 := by
    rw [vreadU8_ok hp hp] at hread
    cases hread
    exact ⟨List.getElem?_eq_getElem hp, rfl⟩
  obtain ⟨hc, rfl⟩ := hb
  by_cases hzero : c = 0
  · have hroot : elementAt d p = .root := by
      rw [elementAt, hc, hzero]
      rfl
    cases h with
    | rejected _ hbad =>
      rw [hroot] at hbad
      cases hbad
    | label _ hbad _ =>
      rw [hroot] at hbad
      cases hbad
    | pointer _ hbad _ =>
      rw [hroot] at hbad
      cases hbad
  · have hfuel : (maxJumps - 0) * (d.length + 1) + (d.length - p) < labelFuel d.length := by
      simp only [labelFuel, maxJumps]
      omega
    obtain ⟨_, stop, hstop⟩ := loopStores_walk h hc hfuel 0
    have hagree := loopStores_agrees d (labelFuel d.length) (p + 1) c ⟨0, [], 0⟩
    rw [if_neg hzero] at hrun
    obtain ⟨size, p₂, hsize, hrun⟩ := bind_eq_ok.mp hrun
    cases hsize
    obtain ⟨st, p₃, hloop, hrun⟩ := bind_eq_ok.mp hrun
    rw [hloop] at hagree
    obtain ⟨k, _, hout⟩ := hagree
    have hexit := hstop.symm.trans (congrArg Prod.snd hout)
    by_cases hjumps : st.jumps = maxJumps
    · rw [if_pos hjumps] at hrun
      cases hrun
    · simp only [if_neg hjumps] at hexit
      cases hexit

/-- ReadLabel succeeds exactly on the names with at most four pointers. -/
theorem storage_ok_iff {bs : List UInt8} {q' : Nat} :
    readLabelStorage.run d d.length p = .ok (bs, q') ↔
      ∃ labels ends q, Decodes d p labels ends q ∧ ends.length < maxJumps ∧
        bs = storedLabels labels ends ∧ q' = lastEnd ends q := by
  constructor
  · intro hrun
    obtain ⟨ls, e, hwalk⟩ := exists_walk d (Nat.zero_le maxJumps) p
    cases e with
    | false => exact absurd hrun (storage_rejected hwalk bs q')
    | true =>
      obtain ⟨labels, ends, q, hd, hlt, _⟩ := decodes_of_walk hwalk rfl
      rw [Nat.zero_add] at hlt
      rw [storage_decodes hd hlt] at hrun
      cases hrun
      exact ⟨labels, ends, q, hd, hlt, rfl, rfl⟩
  · rintro ⟨labels, ends, q, hd, hlt, rfl, rfl⟩
    exact storage_decodes hd hlt

end Storage

section Chains
variable {d : List UInt8} {p q : Nat} {labels : List (List UInt8)} {ends : List Nat}

/-- A position has one name. -/
theorem decodes_unique (h : Decodes d p labels ends q) {labels' : List (List UInt8)}
    {ends' : List Nat} {q' : Nat} (h' : Decodes d p labels' ends' q') :
    labels = labels' ∧ ends = ends' ∧ q = q' := by
  induction h generalizing labels' ends' q' with
  | root h =>
    obtain ⟨rfl, rfl, rfl⟩ := decodes_zero h h'
    exact ⟨rfl, rfl, rfl⟩
  | label h hlow hhigh hin hrest ih =>
    cases h' with
    | root h' =>
      rw [h] at h'
      cases h'
      exact absurd hlow (by decide)
    | label h' _ _ _ hrest' =>
      rw [h] at h'
      cases h'
      obtain ⟨rfl, rfl, rfl⟩ := ih hrest'
      exact ⟨rfl, rfl, rfl⟩
    | pointer h' hc _ _ _ =>
      rw [h] at h'
      cases h'
      omega
  | pointer h hc hb hin hrest ih =>
    cases h' with
    | root h' =>
      rw [h] at h'
      cases h'
      exact absurd hc (by decide)
    | label h' _ hhigh _ _ =>
      rw [h] at h'
      cases h'
      omega
    | pointer h' _ hb' _ hrest' =>
      rw [h] at h'
      cases h'
      rw [hb] at hb'
      cases hb'
      obtain ⟨rfl, rfl, rfl⟩ := ih hrest'
      exact ⟨rfl, rfl, rfl⟩

/- Each pointer of a name starts a name of its own, with the pointers that follow it. -/
theorem decodes_at_pointer (h : Decodes d p labels ends q) {e : Nat} (he : e ∈ ends) :
    ∃ p' labels' rest, e = p' + 2 ∧ Decodes d p' labels' (e :: rest) q ∧ (e :: rest) <:+ ends := by
  induction h with
  | root h => cases he
  | label h hlow hhigh hin hrest ih => exact ih he
  | @pointer p c b labels ends q h hc hb hin hrest ih =>
    cases he with
    | head => exact ⟨p, labels, ends, rfl, .pointer h hc hb hin hrest, List.suffix_refl _⟩
    | tail _ he =>
      obtain ⟨p', labels', rest, hp', hd, hsuffix⟩ := ih he
      exact ⟨p', labels', rest, hp', hd, hsuffix.trans (List.suffix_cons _ _)⟩

/-- No pointer is followed twice on the way to the root. -/
theorem ends_nodup (h : Decodes d p labels ends q) : ends.Nodup := by
  induction h with
  | root h => exact List.nodup_nil
  | label h hlow hhigh hin hrest ih => exact ih
  | @pointer p c b labels ends q h hc hb hin hrest ih =>
    refine List.nodup_cons.mpr ⟨?_, ih⟩
    intro hmem
    obtain ⟨p', labels', rest, hp', hd, hsuffix⟩ := decodes_at_pointer hrest hmem
    have hsame : p' = p := by omega
    rw [hsame] at hd
    obtain ⟨_, hends, _⟩ := decodes_unique (.pointer h hc hb hin hrest) hd
    have hlen := hsuffix.length_le
    rw [← hends, List.length_cons] at hlen
    omega

theorem lastEnd_ne_firstEnd (h : Decodes d p labels ends q) (hk : 2 ≤ ends.length) :
    lastEnd ends q ≠ firstEnd ends q := by
  have hnodup := ends_nodup h
  match ends, hk, hnodup with
  | e :: x :: rest, _, hnodup =>
    have hlast : lastEnd (e :: x :: rest) q ∈ x :: rest := by
      rw [lastEnd, List.getLastD_cons, List.getLastD_cons,
        ← List.getLast_eq_getLastD (List.cons_ne_nil x rest)]
      exact List.getLast_mem _
    intro heq
    have hfirst : firstEnd (e :: x :: rest) q = e := rfl
    rw [heq, hfirst] at hlast
    exact (List.nodup_cons.mp hnodup).1 hlast

theorem lastEnd_eq_firstEnd (hk : ends.length ≤ 1) (q : Nat) : lastEnd ends q = firstEnd ends q := by
  match ends, hk with
  | [], _ => rfl
  | [e], _ => rfl

theorem met_decodes (h : Decodes d p labels ends q) : Met d p labels ends.length := by
  induction h with
  | root h => exact .start
  | label h hlow hhigh hin hrest ih => exact .label h hlow hhigh hin ih
  | pointer h hc hb hin hrest ih => exact .pointer h hc hb hin ih

end Chains

/- What a walk meets, with the bytes of the labels. -/
theorem met_of_walk {d : List UInt8} {j p : Nat} {ls : List Nat} {e : Bool}
    (h : Walk d j p ls e) : ∃ labels k, Met d p labels k ∧ labels.map List.length = ls := by
  induction h with
  | root hj h => exact ⟨[], 0, .start, rfl⟩
  | rejected hj h => exact ⟨[], 0, .start, rfl⟩
  | exhausted => exact ⟨[], 0, .start, rfl⟩
  | @label j p len ls e hj h hrest ih =>
    obtain ⟨labels, k, hmet, hls⟩ := ih
    have hr := reads_of_elementAt h
    cases hr with
    | @label c hc hzero hlow hin =>
      have hpos : 1 ≤ c.toNat := Nat.pos_of_ne_zero fun hz => hzero (UInt8.toNat_inj.mp hz)
      refine ⟨_, k, .label hc hpos (by omega) (by omega) hmet, ?_⟩
      rw [List.map_cons, hls, length_label (by omega)]
  | @pointer j p t ls e hj h hrest ih =>
    obtain ⟨labels, k, hmet, hls⟩ := ih
    have hr := reads_of_elementAt h
    cases hr with
    | pointer hc hzero hhigh hb hin => exact ⟨labels, k + 1, .pointer hc hhigh hb hin hmet, hls⟩

theorem length_dottedName {labels : List (List UInt8)} (h : labels ≠ []) :
    (dottedName labels).length + 1 = textLength (labels.map List.length) := by
  have hflat : (labels.flatMap fun l => l ++ [dot]).length = textLength (labels.map List.length) := by
    simp [textLength, List.length_flatMap, Function.comp_def]
  obtain ⟨l, rest, rfl⟩ := List.exists_cons_of_ne_nil h
  rw [dottedName, ← dropLast_flatMap_dot h, List.length_dropLast, hflat]
  exact Nat.sub_add_cancel (by simp [textLength]; omega)

section Names
variable {d : List UInt8} {p : Nat}

/-- On its way from p a decoder meets at most one pointer and at most 1024 bytes of dotted
name. -/
def SmallName (d : List UInt8) (p : Nat) : Prop :=
  ∀ labels k, Met d p labels k → k ≤ 1 ∧ (dottedName labels).length ≤ 1024

theorem nameFits_of_small (h : SmallName d p) (hne : ∀ ends q, ¬ Decodes d p [] ends q) :
    NameFits d p := by
  intro ls e hwalk
  obtain ⟨labels, k, hmet, hls⟩ := met_of_walk hwalk
  constructor
  · by_cases hl : labels = []
    · rw [← hls, hl]
      exact Nat.zero_le _
    · have hlen := length_dottedName hl
      have hle := (h labels k hmet).2
      rw [← hls, ← hlen]
      exact Nat.succ_le_succ hle
  · intro he hnil
    obtain ⟨labels', ends, q, hd, _, hls'⟩ := decodes_of_walk hwalk he
    rw [hnil, List.map_eq_nil_iff] at hls'
    rw [hls'] at hd
    exact absurd hd (hne ends q)

theorem storage_within (d : List UInt8) (p : Nat) :
    readLabelStorage.run d d.length p ≠ .error .outOfRange := by
  intro hrange
  by_cases hp : p ≤ d.length
  · have hin := within_readLabel CString.empty d p hp
    rw [readLabel_storage, bind_of_error hrange] at hin
    obtain ⟨c, hc⟩ := hin
    cases hc
  · have hcut : readLabelStorage.run d d.length p = .error (.failed eFormErr) :=
      bind_of_error (vread_fail readU8 d (by omega))
    rw [hcut] at hrange
    cases hrange

/- Behind the packet stands what was in the array before; ReadLabel does not see it. -/
theorem storage_stale (d stale : List UInt8) (p : Nat) :
    readLabelStorage.run (d ++ stale) d.length p = readLabelStorage.run d d.length p :=
  stable_storage d stale d.length p (storage_within d p)

/-- Where a name uses at most one pointer and fits into the array, ReadLabel succeeds exactly
if RFC 1035 decoding does; it stays inside the array, stores the dotted name with a NUL behind
it, and goes on behind the zero byte or behind the pointer. -/
theorem readLabel_decodes_iff (d stale : List UInt8) (p : Nat) (h : SmallName d p)
    (hne : ∀ ends q, ¬ Decodes d p [] ends q) :
    ((∃ bs q, readLabelStorage.run (d ++ stale) d.length p = .ok (bs, q)) ↔
      ∃ labels ends q, Decodes d p labels ends q) ∧
    (∀ i ∈ readLabelStores d p, InStorage i) ∧
    ∀ labels ends q, Decodes d p labels ends q →
      readLabelStorage.run (d ++ stale) d.length p =
        .ok (dottedName labels ++ [0], firstEnd ends q) := by
  have hone : ∀ labels ends q, Decodes d p labels ends q → ends.length ≤ 1 :=
    fun labels ends q hd => (h labels ends.length (met_decodes hd)).1
  have hread : ∀ labels ends q, Decodes d p labels ends q →
      readLabelStorage.run (d ++ stale) d.length p =
        .ok (dottedName labels ++ [0], firstEnd ends q) := by
    intro labels ends q hd
    have hlabels : labels ≠ [] := by
      rintro rfl
      exact hne ends q hd
    have hk := hone labels ends q hd
    rw [storage_stale, storage_decodes hd (Nat.lt_of_le_of_lt hk (by decide)), storedLabels,
      if_neg hlabels, lastEnd_eq_firstEnd hk]
  refine ⟨⟨?_, ?_⟩, ?_, hread⟩
  · rintro ⟨bs, q, hrun⟩
    rw [storage_stale] at hrun
    obtain ⟨labels, ends, q, hd, _⟩ := storage_ok_iff.mp hrun
    exact ⟨labels, ends, q, hd⟩
  · rintro ⟨labels, ends, q, hd⟩
    exact ⟨_, _, hread labels ends q hd⟩
  · exact (readLabel_stores_inside_iff d p).mpr (nameFits_of_small h hne)

/-- A name over two to four pointers that fits into the array and is not the root's. -/
structure ChainedName (d : List UInt8) (p : Nat) (labels : List (List UInt8)) (ends : List Nat)
    (q : Nat) : Prop where
  decodes : Decodes d p labels ends q
  two_le : 2 ≤ ends.length
  le_four : ends.length ≤ 4
  nonempty : labels ≠ []
  length_le : (dottedName labels).length ≤ 1024

/-- ReadLabel stores such a name, but goes on behind its last pointer, which is never the
first one. -/
theorem chained_name_resumes_wrong (d stale : List UInt8) (p : Nat) (labels : List (List UInt8))
    (ends : List Nat) (q : Nat) (h : ChainedName d p labels ends q) :
    readLabelStorage.run (d ++ stale) d.length p =
        .ok (dottedName labels ++ [0], lastEnd ends q) ∧
      readLabelStorage.run (d ++ stale) d.length p ≠
        .ok (dottedName labels ++ [0], firstEnd ends q) := by
  have hrun : readLabelStorage.run (d ++ stale) d.length p =
      .ok (dottedName labels ++ [0], lastEnd ends q) := by
    rw [storage_stale, storage_decodes h.decodes (Nat.lt_of_le_of_lt h.le_four (by decide)),
      storedLabels, if_neg h.nonempty]
  refine ⟨hrun, ?_⟩
  rw [hrun]
  intro heq
  exact lastEnd_ne_firstEnd h.decodes h.two_le (Prod.mk.inj (Except.ok.inj heq)).2

end Names

/- A datagram with three questions: for a, for a over a pointer to it, and for a over a
   pointer to this pointer. -/
def chainedQuestions : List UInt8 :=
  [0, 7, 1, 0, 0, 3, 0, 0, 0, 0, 0, 0, 1, 97, 0, 0, 1, 0, 1, 0xc0, 12, 0, 1, 0, 1,
    0xc0, 19, 0, 1, 0, 1]

theorem decodes_first : Decodes chainedQuestions 12 [[97]] [] 15 :=
  .label (c := 1) rfl (by decide) (by decide) (by decide) (.root rfl)

theorem decodes_second : Decodes chainedQuestions 19 [[97]] [21] 15 :=
  .pointer (c := 0xc0) (b := 12) rfl (by decide) rfl (by decide) decodes_first

theorem chainedQuestions_chained : ChainedName chainedQuestions 25 [[97]] [27, 21] 15 where
  decodes := .pointer (c := 0xc0) (b := 19) rfl (by decide) rfl (by decide) decodes_second
  two_le := by decide
  le_four := by decide
  nonempty := by decide
  length_le := by decide

/-- After the third name the reading goes on at 21, inside the second question. -/
theorem chained_name_not_resumed :
    ChainedName chainedQuestions 25 [[97]] [27, 21] 15 ∧
      readLabelStorage.run chainedQuestions 31 25 = .ok ([97, 0], 21) ∧
      readLabelStorage.run chainedQuestions 31 25 ≠
        .ok (dottedName [[97]] ++ [0], firstEnd [27, 21] 15) :=
  ⟨chainedQuestions_chained, rfl, nofun⟩

theorem chained_name_resumes_wrong_questions :
    ChainedName chainedQuestions 25 [[97]] [27, 21] 15 ∧
      readLabelStorage.run (chainedQuestions ++ [0]) 31 25 ≠
        .ok (dottedName [[97]] ++ [0], firstEnd [27, 21] 15) :=
  ⟨chainedQuestions_chained,
    (chained_name_resumes_wrong chainedQuestions [0] 25 _ _ _ chainedQuestions_chained).2⟩

theorem met_root {labels : List (List UInt8)} {k : Nat} (h : Met chainedQuestions 14 labels k) :
    labels = [] ∧ k = 0 := by
  have hbyte : chainedQuestions[14]? = some 0 := rfl
  cases h with
  | start => exact ⟨rfl, rfl⟩
  | label hc hlow _ _ _ =>
    rw [hbyte] at hc
    cases hc
    exact absurd hlow (by decide)
  | pointer hc hlow _ _ _ =>
    rw [hbyte] at hc
    cases hc
    exact absurd hlow (by decide)

theorem met_first {labels : List (List UInt8)} {k : Nat} (h : Met chainedQuestions 12 labels k) :
    (labels = [] ∨ labels = [[97]]) ∧ k = 0 := by
  have hbyte : chainedQuestions[12]? = some 1 := rfl
  cases h with
  | start => exact ⟨.inl rfl, rfl⟩
  | label hc _ _ _ hrest =>
    rw [hbyte] at hc
    cases hc
    obtain ⟨rfl, rfl⟩ := met_root hrest
    exact ⟨.inr rfl, rfl⟩
  | pointer hc hlow _ _ _ =>
    rw [hbyte] at hc
    cases hc
    exact absurd hlow (by decide)

theorem small_second : SmallName chainedQuestions 19 := by
  have hbyte : chainedQuestions[19]? = some 0xc0 := rfl
  have hnext : chainedQuestions[20]? = some 12 := rfl
  intro labels k h
  cases h with
  | start => decide
  | label hc _ hhigh _ _ =>
    rw [hbyte] at hc
    cases hc
    exact absurd hhigh (by decide)
  | pointer hc _ hb _ hrest =>
    rw [hbyte] at hc
    cases hc
    rw [hnext] at hb
    cases hb
    obtain ⟨hlabels, rfl⟩ := met_first hrest
    obtain rfl | rfl := hlabels
    · decide
    · decide

theorem readLabel_decodes_iff_second :
    SmallName chainedQuestions 19 ∧
      readLabelStorage.run (chainedQuestions ++ [0]) 31 19 = .ok ([97, 0], 21) := by
  have hne : ∀ ends q, ¬ Decodes chainedQuestions 19 [] ends q := by
    intro ends q hd
    cases (decodes_unique decodes_second hd).1
  exact ⟨small_second,
    (readLabel_decodes_iff chainedQuestions [0] 19 small_second hne).2.2 _ _ _ decodes_second⟩

end DnsWrapper.Dns
