import DnsWrapper.LabelReader

/-! Names on the wire. WriteLabel leaves its last reserved byte unwritten, so a name is
encoded as its labels followed by a zero only where the buffer was zero before. -/
namespace DnsWrapper.Dns
open ByteReader ByteWriter ByteWord NetCommon

def labelWire (label : List UInt8) : List UInt8 := UInt8.ofNat label.length :: label

def labelsWire (labels : List (List UInt8)) : List UInt8 := labels.flatMap labelWire

/-- What WriteLabel makes of any name: one length byte for each part between dots. -/
def nameWire (name : CString) : List UInt8 := labelsWire (name.bytes.splitOn dot) ++ [0]

/- The labels of cs when the bytes cur of the first one have been seen already. -/
def labelsFrom (cur cs : List UInt8) : List (List UInt8) := (cs.splitOn dot).modifyHead (cur ++ ·)

theorem labelsFrom_empty (cs : List UInt8) : labelsFrom [] cs = cs.splitOn dot := by
  obtain ⟨l, ls, h⟩ := List.exists_cons_of_ne_nil (List.splitOn_ne_nil dot cs)
  simp [labelsFrom, h]

theorem labelsFrom_nil (cur : List UInt8) : labelsFrom cur [] = [cur] := by
  simp [labelsFrom, List.splitOn_nil]

theorem labelsFrom_dot (cur cs : List UInt8) :
    labelsFrom cur (dot :: cs) = cur :: labelsFrom [] cs := by
  rw [labelsFrom_empty, labelsFrom, List.splitOn_cons_eq_if_modifyHead]
  simp

theorem labelsFrom_char (cur : List UInt8) {c : UInt8} (cs : List UInt8) (hc : c ≠ dot) :
    labelsFrom cur (c :: cs) = labelsFrom (cur ++ [c]) cs := by
  rw [labelsFrom, List.splitOn_cons_eq_if_modifyHead, if_neg (by simpa using hc)]
  simp [labelsFrom, List.modifyHead_modifyHead, Function.comp_def]

theorem labelsWire_length (cur cs : List UInt8) :
    (labelsWire (labelsFrom cur cs)).length = cur.length + cs.length + 1 := by
  induction cs generalizing cur with
  | nil => simp [labelsFrom_nil, labelsWire, labelWire]
  | cons c cs ih =>
    by_cases hc : c = dot
    · have hrest := ih []
      rw [hc, labelsFrom_dot]
      simp only [labelsWire, List.flatMap_cons, labelWire, List.length_append, List.length_cons,
        List.length_nil] at hrest ⊢
      omega
    · rw [labelsFrom_char cur cs hc, ih]
      simp only [List.length_append, List.length_cons, List.length_nil]
      omega

theorem nameWire_length (name : CString) : (nameWire name).length = name.bytes.length + 2 := by
  rw [nameWire, List.length_append, ← labelsFrom_empty, labelsWire_length]
  simp

/- WriteLabel inside a label: out is finished, the slot after it is still zero, cur has
   been copied behind the slot, and k zero bytes follow. -/
def midLabel (out cur : List UInt8) (k : Nat) : LabelWriter where
  buf := out ++ 0 :: cur ++ List.replicate k 0
  pos := out.length + 1 + cur.length
  slot := out.length
  len := UInt8.ofNat cur.length

theorem writeLength_midLabel (out cur : List UInt8) (k : Nat) :
    writeLength (midLabel out cur (k + 1)) = some (midLabel (out ++ labelWire cur) [] k) := by
  have hslot : out.length < (out ++ 0 :: cur ++ List.replicate (k + 1) (0 : UInt8)).length := by
    simp
  have hset : (out ++ 0 :: cur ++ List.replicate (k + 1) 0).set out.length
      (UInt8.ofNat cur.length) = out ++ labelWire cur ++ 0 :: List.replicate k 0 := by
    simp [labelWire, List.replicate_succ]
  simp only [writeLength, midLabel, store_eq_some hslot, hset, Option.map_some, Option.some.injEq,
    LabelWriter.mk.injEq]
  refine ⟨by simp, ?_, ?_, rfl⟩
  · simp only [labelWire, List.length_append, List.length_cons, List.length_nil]
    omega
  · simp only [labelWire, List.length_append, List.length_cons]
    omega

theorem writeChar_midLabel (out cur : List UInt8) {c : UInt8} (k : Nat) (hc : c ≠ dot) :
    writeChar c (midLabel out cur (k + 1)) = some (midLabel out (cur ++ [c]) k) := by
  have hpos : out.length + 1 + cur.length <
      (out ++ 0 :: cur ++ List.replicate (k + 1) (0 : UInt8)).length := by
    simp only [List.length_append, List.length_cons, List.length_replicate]
    omega
  have hset : (out ++ 0 :: cur ++ List.replicate (k + 1) 0).set (out.length + 1 + cur.length) c =
      out ++ 0 :: (cur ++ [c]) ++ List.replicate k 0 := by
    have hlen : out.length + 1 + cur.length = (out ++ 0 :: cur).length := by
      simp only [List.length_append, List.length_cons]
      omega
    rw [hlen, List.set_append_right _ _ (Nat.le_refl _)]
    simp [List.replicate_succ]
  simp only [writeChar, if_neg hc, midLabel, store_eq_some hpos, hset, Option.map_some,
    Option.some.injEq, LabelWriter.mk.injEq]
  refine ⟨trivial, ?_, trivial, ?_⟩
  · simp only [List.length_append, List.length_cons, List.length_nil]
    omega
  · simp

theorem writeLabelLoop_midLabel (cs out cur : List UInt8) (k : Nat) (hk : cs.length ≤ k) :
    ∃ out' cur', writeLabelLoop cs (midLabel out cur k) =
        some (midLabel out' cur' (k - cs.length)) ∧
      out' ++ labelWire cur' = out ++ labelsWire (labelsFrom cur cs) := by
  induction cs generalizing out cur k with
  | nil => exact ⟨out, cur, rfl, by simp [labelsFrom_nil, labelsWire]⟩
  | cons c cs ih =>
    obtain ⟨j, rfl⟩ : ∃ j, k = j + 1 := ⟨k - 1, by simp at hk; omega⟩
    simp only [List.length_cons, Nat.add_le_add_iff_right, Nat.add_sub_add_right] at hk ⊢
    by_cases hc : c = dot
    · obtain ⟨out', cur', hloop, heq⟩ := ih (out ++ labelWire cur) [] j hk
      refine ⟨out', cur', ?_, ?_⟩
      · rw [writeLabelLoop, writeChar, if_pos hc, writeLength_midLabel, Option.bind_some, hloop]
      · rw [heq, hc, labelsFrom_dot]
        simp [labelsWire]
    · obtain ⟨out', cur', hloop, heq⟩ := ih out (cur ++ [c]) j hk
      refine ⟨out', cur', ?_, ?_⟩
      · rw [writeLabelLoop, writeChar_midLabel out cur j hc, Option.bind_some, hloop]
      · rw [heq, labelsFrom_char cur cs hc]

/-- Into zeros, WriteLabel writes the labels of any name and the cursor passes one zero. -/
theorem emits_writeLabel (name : CString) : Emits (writeLabel name) (nameWire name) := by
  intro out k hk
  rw [nameWire_length] at hk
  obtain ⟨j, rfl⟩ : ∃ j, k = j + 3 + name.bytes.length := ⟨k - 3 - name.bytes.length, by omega⟩
  have hstart : LabelWriter.mk (out ++ List.replicate (j + 3 + name.bytes.length) 0)
      (out.length + 1) out.length 0 = midLabel out [] (j + 2 + name.bytes.length) := by
    have hk : j + 3 + name.bytes.length = j + 2 + name.bytes.length + 1 := by omega
    rw [hk, List.replicate_succ]
    simp [midLabel]
  obtain ⟨out', cur', hloop, heq⟩ := writeLabelLoop_midLabel name.bytes out []
    (j + 2 + name.bytes.length) (by omega)
  rw [labelsFrom_empty] at heq
  rw [Nat.add_sub_cancel] at hloop
  simp only [writeLabel, hstart, hloop, Option.bind_eq_bind, Option.bind_some,
    writeLength_midLabel, Option.pure_def, heq]
  -- the byte after the label is the zero that ends the name; the last store is behind it
  have hbuf : (midLabel (out ++ labelsWire (name.bytes.splitOn dot)) [] (j + 1)).buf =
      out ++ nameWire name ++ List.replicate (j + 1) 0 := by
    simp [midLabel, nameWire]
  have hpos : (midLabel (out ++ labelsWire (name.bytes.splitOn dot)) [] (j + 1)).pos =
      (out ++ nameWire name).length := by
    simp only [midLabel, nameWire, List.length_append, List.length_cons, List.length_nil]
    omega
  have hroom : (out ++ nameWire name).length <
      (out ++ nameWire name ++ List.replicate (j + 1) (0 : UInt8)).length := by
    rw [List.length_append, List.length_append, List.length_append, List.length_replicate]
    omega
  have hset : (out ++ nameWire name ++ List.replicate (j + 1) 0).set (out ++ nameWire name).length
      0 = out ++ nameWire name ++ List.replicate (j + 1) 0 := by
    rw [List.set_append_right _ _ (Nat.le_refl _), Nat.sub_self, List.replicate_succ,
      List.set_cons_zero]
  have hrest : j + 3 + name.bytes.length - (nameWire name).length = j + 1 := by
    rw [nameWire_length]
    omega
  rw [hbuf, hpos, store_eq_some hroom, Option.bind_some, hset, hrest, List.length_append]

/- The stores of the loop, into any buffer. -/
theorem writeLabelLoop_some (cs : List UInt8) {s : LabelWriter} (hs : s.slot < s.pos)
    (h : s.pos + cs.length ≤ s.buf.length) : ∃ t, writeLabelLoop cs s = some t := by
  induction cs generalizing s with
  | nil => exact ⟨s, rfl⟩
  | cons c cs ih =>
    simp only [List.length_cons] at h
    by_cases hc : c = dot
    · have hstore := store_eq_some (b := s.len) (show s.slot < s.buf.length by omega)
      simp only [writeLabelLoop, writeChar, if_pos hc, writeLength, hstore, Option.map_some,
        Option.bind_some]
      exact ih (by simp only; omega) (by simp only [List.length_set]; omega)
    · have hstore := store_eq_some (b := c) (show s.pos < s.buf.length by omega)
      simp only [writeLabelLoop, writeChar, if_neg hc, hstore, Option.map_some, Option.bind_some]
      exact ih (by simp only; omega) (by simp only [List.length_set]; omega)

/- What the loop and the last length byte leave alone: all before the first slot. -/
structure LabelFrame (p k : Nat) (s t : LabelWriter) : Prop where
  pos : t.pos = s.pos + k
  slot : p ≤ t.slot ∧ t.slot < t.pos
  length : t.buf.length = s.buf.length
  before : t.buf.take p = s.buf.take p

theorem LabelFrame.trans {p j k : Nat} {s t u : LabelWriter} (h₁ : LabelFrame p j s t)
    (h₂ : LabelFrame p k t u) : LabelFrame p (j + k) s u where
  pos := by rw [h₂.pos, h₁.pos, Nat.add_assoc]
  slot := h₂.slot
  length := h₂.length.trans h₁.length
  before := h₂.before.trans h₁.before

theorem take_store {i p : Nat} {b : UInt8} {buf buf' : List UInt8} (hp : p ≤ i)
    (h : store i b buf = some buf') : buf'.take p = buf.take p ∧ buf'.length = buf.length := by
  unfold store at h
  split at h
  · cases h
    exact ⟨List.take_set_of_le hp, List.length_set⟩
  · cases h

theorem writeLength_frame {p : Nat} {s t : LabelWriter} (hs : p ≤ s.slot ∧ s.slot < s.pos)
    (h : writeLength s = some t) : LabelFrame p 1 s t := by
  obtain ⟨buf, hb, rfl⟩ := Option.map_eq_some_iff.mp h
  obtain ⟨htake, hlen⟩ := take_store hs.1 hb
  exact ⟨rfl, ⟨by simp only; omega, by simp only; omega⟩, hlen, htake⟩

theorem writeChar_frame {p : Nat} {c : UInt8} {s t : LabelWriter}
    (hs : p ≤ s.slot ∧ s.slot < s.pos) (h : writeChar c s = some t) : LabelFrame p 1 s t := by
  unfold writeChar at h
  split at h
  · exact writeLength_frame hs h
  · obtain ⟨buf, hb, rfl⟩ := Option.map_eq_some_iff.mp h
    obtain ⟨htake, hlen⟩ := take_store (Nat.le_trans hs.1 (Nat.le_of_lt hs.2)) hb
    exact ⟨rfl, ⟨hs.1, by simp only; omega⟩, hlen, htake⟩

theorem writeLabelLoop_frame {p : Nat} {cs : List UInt8} {s t : LabelWriter}
    (hs : p ≤ s.slot ∧ s.slot < s.pos) (h : writeLabelLoop cs s = some t) :
    LabelFrame p cs.length s t := by
  induction cs generalizing s with
  | nil =>
    cases h
    exact ⟨rfl, hs, rfl, rfl⟩
  | cons c cs ih =>
    obtain ⟨u, hu, h⟩ := Option.bind_eq_some_iff.mp h
    have hfirst := writeChar_frame hs hu
    have hrest := hfirst.trans (ih hfirst.slot h)
    rwa [Nat.add_comm] at hrest

/- A run of WriteLabel that succeeds, taken apart. -/
theorem writeLabel_eq_some {name : CString} {buf buf' : List UInt8} {p q : Nat}
    (h : (writeLabel name).run buf p = some (buf', q)) :
    q = p + name.bytes.length + 2 ∧ q < buf.length ∧ buf'.length = buf.length ∧
      buf'.take p = buf.take p := by
  obtain ⟨s, hs, h⟩ := Option.bind_eq_some_iff.mp h
  obtain ⟨t, ht, h⟩ := Option.bind_eq_some_iff.mp h
  obtain ⟨buf₁, hb, h⟩ := Option.bind_eq_some_iff.mp h
  cases h
  have hloop := writeLabelLoop_frame (p := p) ⟨Nat.le_refl p, Nat.lt_succ_self p⟩ hs
  have hframe := hloop.trans (writeLength_frame hloop.slot ht)
  have hpos : t.pos = p + name.bytes.length + 2 := by
    rw [hframe.pos]
    simp only
    omega
  obtain ⟨htake, hlen⟩ := take_store (p := p) (by omega) hb
  have hlt : t.pos < t.buf.length := by
    by_contra hge
    rw [store_eq_none (by omega)] at hb
    cases hb
  rw [hframe.length] at hlt hlen
  exact ⟨hpos, hlt, hlen, htake.trans hframe.before⟩

theorem keeps_writeLabel (name : CString) : Keeps (writeLabel name) := by
  intro buf p buf' q h
  obtain ⟨hq, _, _, htake⟩ := writeLabel_eq_some h
  exact ⟨by omega, htake⟩

def LabelWriter.extend (s : LabelWriter) (extra : List UInt8) : LabelWriter :=
  { s with buf := s.buf ++ extra }

theorem writeLength_extend {s t : LabelWriter} (extra : List UInt8) (h : writeLength s = some t) :
    writeLength (s.extend extra) = some (t.extend extra) := by
  obtain ⟨buf, hb, rfl⟩ := Option.map_eq_some_iff.mp h
  simp only [writeLength, LabelWriter.extend, store_append extra hb, Option.map_some]

theorem writeChar_extend {c : UInt8} {s t : LabelWriter} (extra : List UInt8)
    (h : writeChar c s = some t) : writeChar c (s.extend extra) = some (t.extend extra) := by
  unfold writeChar at h ⊢
  by_cases hc : c = dot
  · rw [if_pos hc] at h ⊢
    exact writeLength_extend extra h
  · rw [if_neg hc] at h ⊢
    obtain ⟨buf, hb, rfl⟩ := Option.map_eq_some_iff.mp h
    simp only [LabelWriter.extend, store_append extra hb, Option.map_some]

theorem writeLabelLoop_extend {cs : List UInt8} {s t : LabelWriter} (extra : List UInt8)
    (h : writeLabelLoop cs s = some t) :
    writeLabelLoop cs (s.extend extra) = some (t.extend extra) := by
  induction cs generalizing s with
  | nil =>
    cases h
    rfl
  | cons c cs ih =>
    obtain ⟨u, hu, h⟩ := Option.bind_eq_some_iff.mp h
    rw [writeLabelLoop, writeChar_extend extra hu, Option.bind_some, ih h]

theorem local_writeLabel (name : CString) : Local (writeLabel name) := by
  intro buf p buf' q extra h
  obtain ⟨s, hs, h⟩ := Option.bind_eq_some_iff.mp h
  obtain ⟨t, ht, h⟩ := Option.bind_eq_some_iff.mp h
  obtain ⟨buf₁, hb, h⟩ := Option.bind_eq_some_iff.mp h
  cases h
  have hloop := writeLabelLoop_extend extra hs
  have hlen := writeLength_extend extra ht
  have hlast := store_append extra hb
  simp only [LabelWriter.extend] at hloop hlen hlast
  simp only [writeLabel, Option.bind_eq_bind, hloop, Option.bind_some, hlen, hlast, Option.pure_def]

/-- The last store of WriteLabel falls one byte behind the name it wrote. -/
theorem extent_writeLabel (name : CString) :
    Extent (writeLabel name) (name.bytes.length + 2) (name.bytes.length + 3) where
  le := by omega
  defined buf p h := by
    obtain ⟨s, hs⟩ := writeLabelLoop_some name.bytes
      (s := ⟨buf, p + 1, p, 0⟩) (Nat.lt_succ_self p) (by simp only; omega)
    have hloop := writeLabelLoop_frame (p := p) ⟨Nat.le_refl p, Nat.lt_succ_self p⟩ hs
    have hslot : s.slot < s.buf.length := by
      have h₁ := hloop.slot.2
      have h₂ := hloop.pos
      have h₃ := hloop.length
      simp only at h₂ h₃
      omega
    have ht : writeLength s = some ⟨s.buf.set s.slot s.len, s.pos + 1, s.pos, 0⟩ := by
      rw [writeLength, store_eq_some hslot, Option.map_some]
    have hend : s.pos + 1 < (s.buf.set s.slot s.len).length := by
      rw [List.length_set, hloop.length, hloop.pos]
      simp only
      omega
    have hrun : (writeLabel name).run buf p =
        some ((s.buf.set s.slot s.len).set (s.pos + 1) 0, s.pos + 1) := by
      simp only [writeLabel, hs, ht, Option.bind_eq_bind, Option.bind_some, Option.pure_def,
        store_eq_some hend]
    refine ⟨(s.buf.set s.slot s.len).set (s.pos + 1) 0, ?_, (writeLabel_eq_some hrun).2.2.1⟩
    rw [hrun]
    obtain ⟨hq, _⟩ := writeLabel_eq_some hrun
    rw [hq, Nat.add_assoc]
  undefined buf p _ h := by
    cases hrun : (writeLabel name).run buf p with
    | none => rfl
    | some x =>
      obtain ⟨buf', q⟩ := x
      obtain ⟨hq, hlt, _⟩ := writeLabel_eq_some hrun
      omega

/-- Labels of 1 to 63 bytes without dot, joined by dots, in at most 1024 bytes. -/
def Dotted (name : CString) : Prop :=
  ∃ labels, labels ≠ [] ∧ (∀ l ∈ labels, 1 ≤ l.length ∧ l.length ≤ 63 ∧ dot ∉ l) ∧
    name.bytes = [dot].intercalate labels ∧ name.bytes.length ≤ 1024

/- A length byte below 64 is neither a pointer nor a reserved label type. -/
theorem lengthByte_plain {k : Nat} (h₁ : 1 ≤ k) (h₂ : k ≤ 63) :
    UInt8.ofNat k ≠ 0 ∧ UInt8.ofNat k &&& 0xc0 ≠ 0xc0 ∧
      ¬ (UInt8.ofNat k &&& 0x40 = 0x40 ∨ UInt8.ofNat k &&& 0x80 = 0x80) := by
  have hall : ∀ j : Fin 64, 1 ≤ j.val → UInt8.ofNat j.val ≠ 0 ∧
      UInt8.ofNat j.val &&& 0xc0 ≠ 0xc0 ∧
      ¬ (UInt8.ofNat j.val &&& 0x40 = 0x40 ∨ UInt8.ofNat j.val &&& 0x80 = 0x80) := by decide
  exact hall ⟨k, by omega⟩ h₁

theorem yields_vreadU8 (b : UInt8) : Yields vreadU8 [b] b := yields_vreadByte b

/- The check before the copy asks for one byte more than the label has. -/
theorem yields_takeLabel {α : Type} {c : UInt8} {l cs : List UInt8} {f : List UInt8 → Reader Code α}
    {a : α} (hc : c.toNat = l.length) (hcs : cs ≠ []) (hf : Yields (f l) cs a) :
    Yields (takeLabel c >>= f) (l ++ cs) a := by
  intro pre post n hn
  have hpos : 0 < cs.length := List.length_pos_iff.mpr hcs
  simp only [List.length_append] at hn
  have hlen : pre.length + c.toNat ≤ (pre ++ (l ++ cs) ++ post).length := by
    simp only [List.length_append]
    omega
  have htake : (takeLabel c).run (pre ++ (l ++ cs) ++ post) n pre.length =
      .ok (l, pre.length + l.length) := by
    have hb := bytes_ok (ε := Code) (pre ++ (l ++ cs) ++ post) n c.toNat pre.length hlen
    rw [takeLabel, bind_of_ok (a := pre.length) (q := pre.length) rfl,
      bind_of_ok (a := n) (q := pre.length) rfl, if_neg (by omega), hb, hc]
    simp
  rw [bind_of_ok htake]
  have hrest := hf (pre ++ l) post n (by simp only [List.length_append]; omega)
  simpa [List.append_assoc, Nat.add_assoc] using hrest

/-- The loop of ReadLabel over labels without pointers, by induction on the labels. -/
theorem yields_readLabelLoop (labels : List (List UInt8)) (fuel : Nat) (st : LabelState)
    (hl : ∀ l ∈ labels, 1 ≤ l.length ∧ l.length ≤ 63) (hj : st.jumps < maxJumps)
    (hfuel : labels.length < fuel) :
    Yields (vreadU8 >>= fun c => readLabelLoop fuel c st) (labelsWire labels ++ [0])
      { st with out := st.out ++ labels.flatMap fun l => l ++ [dot] } := by
  induction labels generalizing fuel st with
  | nil =>
    obtain ⟨fuel, rfl⟩ : ∃ f, fuel = f + 1 := ⟨fuel - 1, by simp at hfuel; omega⟩
    have hend : Yields (readLabelLoop (fuel + 1) 0 st) [] st := by
      rw [readLabelLoop, if_neg (by simp)]
      exact yields_pure st
    have h := yields_bind (f := fun c => readLabelLoop (fuel + 1) c st) (yields_vreadU8 0) hend
    simpa [labelsWire] using h
  | cons l labels ih =>
    obtain ⟨fuel, rfl⟩ : ∃ f, fuel = f + 1 := ⟨fuel - 1, by omega⟩
    obtain ⟨h₁, h₂⟩ := hl l List.mem_cons_self
    obtain ⟨hne, hptr, hres⟩ := lengthByte_plain h₁ h₂
    have hlen : (UInt8.ofNat l.length).toNat = l.length := by
      rw [UInt8.toNat_ofNat']
      omega
    have hrest := ih fuel { st with out := st.out ++ l ++ [dot] }
      (fun m hm => hl m (List.mem_cons_of_mem l hm)) hj
      (by simpa using hfuel)
    have hstep : Yields (readLabelLoop (fuel + 1) (UInt8.ofNat l.length) st)
        (l ++ (labelsWire labels ++ [0]))
        { st with out := st.out ++ (l :: labels).flatMap fun l => l ++ [dot] } := by
      rw [readLabelLoop, if_pos ⟨hne, hj⟩, if_neg hptr, if_neg hres]
      apply yields_takeLabel hlen (by simp)
      simpa using hrest
    have h := yields_bind (f := fun c => readLabelLoop (fuel + 1) c st)
      (yields_vreadU8 (UInt8.ofNat l.length)) hstep
    simpa [labelsWire, labelWire] using h

theorem dropLast_flatMap_dot {labels : List (List UInt8)} (h : labels ≠ []) :
    (labels.flatMap fun l => l ++ [dot]).dropLast = [dot].intercalate labels := by
  induction labels with
  | nil => exact absurd rfl h
  | cons l labels ih =>
    cases labels with
    | nil => simp
    | cons m labels =>
      have hrest := ih (by simp)
      have hne : ((m :: labels).flatMap fun l => l ++ [dot]) ≠ [] := by simp
      rw [List.flatMap_cons, List.dropLast_append_of_ne_nil hne, hrest]
      simp [List.intercalate_cons_of_ne_nil]

theorem length_le_labelsWire (labels : List (List UInt8)) :
    labels.length ≤ (labelsWire labels).length := by
  induction labels with
  | nil => exact Nat.le_refl _
  | cons l labels ih =>
    simp only [labelsWire, List.flatMap_cons, labelWire, List.length_append,
      List.length_cons] at ih ⊢
    omega

/-- ReadLabel gives back a dotted name, whatever the array held before. -/
theorem yields_readLabel (old : CString) {name : CString} (h : Dotted name) :
    Yields (readLabel old) (nameWire name) name := by
  obtain ⟨labels, hne, hl, hname, _⟩ := h
  intro pre post n hn
  have hsplit : name.bytes.splitOn dot = labels := by
    rw [hname, List.splitOn_intercalate dot (fun l hl' => (hl l hl').2.2) hne]
  rw [nameWire, hsplit] at hn ⊢
  obtain ⟨l, rest, rfl⟩ := List.exists_cons_of_ne_nil hne
  obtain ⟨hc, _⟩ := lengthByte_plain (hl l List.mem_cons_self).1 (hl l List.mem_cons_self).2.1
  have hfuel : (l :: rest).length < labelFuel n := by
    have hshort := length_le_labelsWire (l :: rest)
    simp only [List.length_append, labelFuel, maxJumps] at hn ⊢
    omega
  have hloop := yields_readLabelLoop (l :: rest) (labelFuel n) ⟨0, [], 0⟩
    (fun m hm => ⟨(hl m hm).1, (hl m hm).2.1⟩) (by decide) hfuel pre post n hn
  have hbuf : pre ++ (labelsWire (l :: rest) ++ [0]) ++ post = pre ++ [UInt8.ofNat l.length] ++
      (l ++ labelsWire rest ++ [0] ++ post) := by simp [labelsWire, labelWire]
  have hfirst := yields_vreadU8 (UInt8.ofNat l.length) pre (l ++ labelsWire rest ++ [0] ++ post) n
    (by simp [labelsWire, labelWire] at hn ⊢; omega)
  rw [← hbuf] at hfirst
  rw [bind_of_ok hfirst] at hloop
  have hout : (l :: rest).flatMap (fun l => l ++ [dot]) ≠ [] := by simp
  have hresult : LabelState.name ⟨0, [] ++ (l :: rest).flatMap fun l => l ++ [dot], 0⟩ old =
      name := by
    rw [LabelState.name, List.nil_append, if_neg hout, dropLast_flatMap_dot hne, ← hname,
      CString.ofArray_of_noNul]
  have hsize : (nominal : Reader Code Nat).run (pre ++ (labelsWire (l :: rest) ++ [0]) ++ post) n
      (pre.length + [UInt8.ofNat l.length].length) =
        .ok (n, pre.length + [UInt8.ofNat l.length].length) := rfl
  rw [readLabel, bind_of_ok hfirst, if_neg hc, bind_of_ok hsize, bind_of_ok hloop,
    if_neg (by simp [maxJumps]), if_neg (by simp), hresult, pure_apply]

theorem yields_readLabel_root (old : CString) : Yields (readLabel old) [0] CString.empty :=
  yields_bind (yields_vreadU8 0) (yields_pure CString.empty)

end DnsWrapper.Dns
