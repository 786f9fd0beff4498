import Mathlib.Data.List.Basic

/-! Writers into a byte array with a cursor. A store at or past the end of the array
makes the run undefined. -/
namespace DnsWrapper.ByteWriter
variable {α : Type}

def store (i : Nat) (b : UInt8) (buf : List UInt8) : Option (List UInt8) :=
  if i < buf.length then some (buf.set i b) else none

structure Writer where
  run : List UInt8 → Nat → Option (List UInt8 × Nat)

def done : Writer := ⟨fun buf p => some (buf, p)⟩

def put (b : UInt8) : Writer := ⟨fun buf p => (store p b buf).map fun buf' => (buf', p + 1)⟩

def andThen (v w : Writer) : Writer :=
  ⟨fun buf p => (v.run buf p).bind fun (buf', q) => w.run buf' q⟩

def putAll : List UInt8 → Writer
  | [] => done
  | b :: bs => andThen (put b) (putAll bs)

def all (w : α → Writer) : List α → Writer
  | [] => done
  | a :: as => andThen (w a) (all w as)

theorem store_eq_some {i : Nat} {b : UInt8} {buf : List UInt8} (h : i < buf.length) :
    store i b buf = some (buf.set i b) := if_pos h

theorem store_eq_none {i : Nat} {b : UInt8} {buf : List UInt8} (h : buf.length ≤ i) :
    store i b buf = none := if_neg (by omega)

theorem andThen_of_some {v w : Writer} {buf buf' : List UInt8} {p q : Nat}
    (h : v.run buf p = some (buf', q)) : (andThen v w).run buf p = w.run buf' q := by
  simp [andThen, h]

theorem andThen_eq_some {v w : Writer} {buf : List UInt8} {p : Nat} {x : List UInt8 × Nat}
    (h : (andThen v w).run buf p = some x) :
    ∃ buf' q, v.run buf p = some (buf', q) ∧ w.run buf' q = some x := by
  obtain ⟨⟨buf', q⟩, hv, hw⟩ := Option.bind_eq_some_iff.mp h
  exact ⟨buf', q, hv, hw⟩

theorem put_eq_some {b : UInt8} {buf buf' : List UInt8} {p q : Nat}
    (h : (put b).run buf p = some (buf', q)) : p < buf.length ∧ buf' = buf.set p b ∧ q = p + 1 := by
  by_cases hp : p < buf.length
  · simp only [put, store_eq_some hp, Option.map_some, Option.some.injEq, Prod.mk.injEq] at h
    exact ⟨hp, h.1.symm, h.2.symm⟩
  · simp [put, store_eq_none (b := b) (show buf.length ≤ p by omega)] at h

/- Into a zero-filled tail with room for one byte more, the writer appends bs. -/
def Emits (w : Writer) (bs : List UInt8) : Prop :=
  ∀ out k, bs.length < k → w.run (out ++ List.replicate k 0) out.length =
    some (out ++ bs ++ List.replicate (k - bs.length) 0, out.length + bs.length)

/- The bytes are determined: two such lists end at the same cursor. -/
theorem emits_unique {w : Writer} {bs cs : List UInt8} (hb : Emits w bs) (hc : Emits w cs) :
    bs = cs := by
  have h := hb [] (bs.length + cs.length + 1) (by omega)
  rw [hc [] (bs.length + cs.length + 1) (by omega), Option.some.injEq, Prod.mk.injEq] at h
  simp only [List.nil_append, List.length_nil, Nat.zero_add] at h
  exact (List.append_inj h.1 h.2).1.symm

theorem emits_done : Emits done [] := by
  intro out k _
  simp [done]

theorem emits_put (b : UInt8) : Emits (put b) [b] := by
  intro out k h
  obtain ⟨j, rfl⟩ : ∃ j, k = j + 1 := ⟨k - 1, by simp at h; omega⟩
  have hlt : out.length < (out ++ List.replicate (j + 1) (0 : UInt8)).length := by simp
  have hset : (out ++ List.replicate (j + 1) 0).set out.length b =
      out ++ [b] ++ List.replicate j 0 := by
    simp [List.replicate_succ]
  simp [put, store_eq_some hlt, hset]

theorem emits_andThen {v w : Writer} {bs cs : List UInt8} (hv : Emits v bs) (hw : Emits w cs) :
    Emits (andThen v w) (bs ++ cs) := by
  intro out k h
  simp only [List.length_append] at h ⊢
  rw [andThen_of_some (hv out k (by omega))]
  have h₂ := hw (out ++ bs) (k - bs.length) (by omega)
  rw [List.length_append] at h₂
  rw [h₂, List.append_assoc out bs cs, Nat.sub_sub, Nat.add_assoc]

theorem emits_putAll (bs : List UInt8) : Emits (putAll bs) bs := by
  induction bs with
  | nil => exact emits_done
  | cons b bs ih => exact emits_andThen (emits_put b) ih

theorem emits_all {w : α → Writer} {enc : α → List UInt8} (as : List α)
    (h : ∀ a ∈ as, Emits (w a) (enc a)) : Emits (all w as) (as.flatMap enc) := by
  induction as with
  | nil => exact emits_done
  | cons a as ih =>
    exact emits_andThen (h a List.mem_cons_self)
      (ih fun b hb => h b (List.mem_cons_of_mem a hb))

/-- Started at p, the writer moves the cursor by adv, and it is defined exactly on the
arrays that hold the p + hi bytes up to its furthest store. -/
structure Extent (w : Writer) (adv hi : Nat) : Prop where
  le : adv ≤ hi
  defined : ∀ buf p, p + hi ≤ buf.length →
    ∃ buf', w.run buf p = some (buf', p + adv) ∧ buf'.length = buf.length
  undefined : ∀ buf p, p ≤ buf.length → buf.length < p + hi → w.run buf p = none

theorem Extent.of_run {w : Writer} {adv hi : Nat} (h : Extent w adv hi) {buf buf' : List UInt8}
    {p q : Nat} (hp : p ≤ buf.length) (hrun : w.run buf p = some (buf', q)) :
    q = p + adv ∧ p + hi ≤ buf.length ∧ buf'.length = buf.length := by
  by_cases hfit : p + hi ≤ buf.length
  · obtain ⟨b, he, hlen⟩ := h.defined buf p hfit
    rw [hrun] at he
    cases he
    exact ⟨rfl, hfit, hlen⟩
  · rw [h.undefined buf p hp (by omega)] at hrun
    cases hrun

theorem extent_done : Extent done 0 0 where
  le := Nat.le_refl _
  defined buf p _ := ⟨buf, rfl, rfl⟩
  undefined buf p h₁ h₂ := by omega

theorem extent_put (b : UInt8) : Extent (put b) 1 1 where
  le := Nat.le_refl _
  defined buf p h := by
    refine ⟨buf.set p b, ?_, by simp⟩
    simp [put, store_eq_some (b := b) (show p < buf.length by omega)]
  undefined buf p h₁ h₂ := by
    simp [put, store_eq_none (b := b) (show buf.length ≤ p by omega)]

theorem extent_andThen {v w : Writer} {a b h k : Nat} (hv : Extent v a h) (hw : Extent w b k) :
    Extent (andThen v w) (a + b) (max h (a + k)) where
  le := by
    have := hv.le
    have := hw.le
    omega
  defined buf p hp := by
    obtain ⟨buf₁, he, hlen⟩ := hv.defined buf p (by omega)
    obtain ⟨buf₂, he₂, hlen₂⟩ := hw.defined buf₁ (p + a) (by omega)
    refine ⟨buf₂, ?_, by omega⟩
    rw [andThen_of_some he, he₂, Nat.add_assoc]
  undefined buf p h₁ h₂ := by
    by_cases hf : p + h ≤ buf.length
    · obtain ⟨buf₁, he, hlen⟩ := hv.defined buf p hf
      have := hv.le
      rw [andThen_of_some he]
      exact hw.undefined buf₁ (p + a) (by omega) (by omega)
    · simp [andThen, hv.undefined buf p h₁ (by omega)]

theorem extent_putAll (bs : List UInt8) : Extent (putAll bs) bs.length bs.length := by
  induction bs with
  | nil => exact extent_done
  | cons b bs ih =>
    have h := extent_andThen (extent_put b) ih
    rwa [Nat.max_eq_right (by omega), Nat.add_comm 1] at h

theorem all_append (w : α → Writer) (as bs : List α) :
    all w (as ++ bs) = andThen (all w as) (all w bs) := by
  induction as with
  | nil => simp [all, andThen, done]
  | cons a as ih => simp [all, ih, andThen, Option.bind_assoc]

/-- The writer leaves everything before the cursor as it was. -/
def Keeps (w : Writer) : Prop :=
  ∀ buf p buf' q, w.run buf p = some (buf', q) → p ≤ q ∧ buf'.take p = buf.take p

theorem keeps_done : Keeps done := by
  intro buf p buf' q h
  cases h
  exact ⟨Nat.le_refl p, rfl⟩

theorem keeps_put (b : UInt8) : Keeps (put b) := by
  intro buf p buf' q h
  obtain ⟨_, rfl, rfl⟩ := put_eq_some h
  exact ⟨by omega, by simp [List.take_set_of_le]⟩

theorem keeps_andThen {v w : Writer} (hv : Keeps v) (hw : Keeps w) : Keeps (andThen v w) := by
  intro buf p buf' q h
  obtain ⟨buf₁, r, he, h⟩ := andThen_eq_some h
  obtain ⟨hpr, ht⟩ := hv buf p buf₁ r he
  obtain ⟨hrq, ht₂⟩ := hw buf₁ r buf' q h
  refine ⟨Nat.le_trans hpr hrq, ?_⟩
  rw [← ht, ← Nat.min_eq_left hpr, ← List.take_take, ← List.take_take, ht₂]

theorem keeps_putAll (bs : List UInt8) : Keeps (putAll bs) := by
  induction bs with
  | nil => exact keeps_done
  | cons b bs ih => exact keeps_andThen (keeps_put b) ih

/-- What the writer did in a buffer it does in a longer one, and leaves the rest alone. -/
def Local (w : Writer) : Prop :=
  ∀ buf p buf' q extra, w.run buf p = some (buf', q) →
    w.run (buf ++ extra) p = some (buf' ++ extra, q)

theorem store_append {i : Nat} {b : UInt8} {buf buf' : List UInt8} (extra : List UInt8)
    (h : store i b buf = some buf') : store i b (buf ++ extra) = some (buf' ++ extra) := by
  by_cases hi : i < buf.length
  · rw [store_eq_some hi] at h
    cases h
    rw [store_eq_some (by rw [List.length_append]; omega), List.set_append_left _ _ hi]
  · rw [store_eq_none (by omega)] at h
    cases h

theorem local_done : Local done := by
  intro buf p buf' q extra h
  cases h
  rfl

theorem local_put (b : UInt8) : Local (put b) := by
  intro buf p buf' q extra h
  obtain ⟨hp, rfl, rfl⟩ := put_eq_some h
  simp only [put, store_append extra (store_eq_some hp), Option.map_some]

theorem local_andThen {v w : Writer} (hv : Local v) (hw : Local w) : Local (andThen v w) := by
  intro buf p buf' q extra h
  obtain ⟨buf₁, r, he, h⟩ := andThen_eq_some h
  rw [andThen_of_some (hv buf p buf₁ r extra he)]
  exact hw buf₁ r buf' q extra h

theorem local_putAll (bs : List UInt8) : Local (putAll bs) := by
  induction bs with
  | nil => exact local_done
  | cons b bs ih => exact local_andThen (local_put b) ih

theorem local_all {w : α → Writer} (h : ∀ a, Local (w a)) (as : List α) : Local (all w as) := by
  induction as with
  | nil => exact local_done
  | cons a as ih => exact local_andThen (h a) ih

/- A zero-filled buffer that the writer fits gets its bytes also without room for one more. -/
theorem emits_inside {w : Writer} {bs : List UInt8} {adv hi n : Nat} (he : Emits w bs)
    (hl : Local w) (hx : Extent w adv hi) (hn : hi ≤ n) :
    ∃ buf, w.run (List.replicate n 0) 0 = some (buf, bs.length) ∧ buf.take bs.length = bs := by
  obtain ⟨buf, hrun, hlen⟩ := hx.defined (List.replicate n 0) 0 (by simpa using hn)
  have hlong := hl _ 0 buf _ (List.replicate (bs.length + 1) 0) hrun
  rw [List.replicate_append_replicate] at hlong
  have hemits := he [] (n + (bs.length + 1)) (by omega)
  simp only [List.nil_append, List.length_nil, Nat.zero_add] at hemits hlong hrun
  rw [hemits, Option.some.injEq, Prod.mk.injEq] at hlong
  obtain ⟨hbytes, hadv⟩ := hlong
  have hfits : bs.length ≤ buf.length := by
    rw [hlen, List.length_replicate, hadv]
    exact Nat.le_trans hx.le hn
  refine ⟨buf, by rw [hrun, hadv], ?_⟩
  rw [← List.take_append_of_le_length hfits, ← hbytes, List.take_left]

end DnsWrapper.ByteWriter
