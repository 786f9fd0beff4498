import Mathlib.Data.List.Dedup
import Mathlib.Data.List.Induction
import Mathlib.Data.List.Nodup
import Mathlib.Data.List.Perm.Subperm

/-! Tables with one entry for a key and room for a number of entries. A new entry for a key
replaces the old one; what a full table gives up for a new key is left open. -/
namespace DnsWrapper.KeyedTable
open scoped List
variable {α κ : Type} {key : α → κ} {room : Nat} {victim : List α → α → Option Nat}

/- b is the last of its key in the history. -/
def IsLast (key : α → κ) (as : List α) (b : α) : Prop :=
  ∃ pre post, as = pre ++ b :: post ∧ ∀ a ∈ post, key a ≠ key b

/- An entry of another key goes on being the last of its key. -/
theorem isLast_append {as : List α} {a b : α} (h : IsLast key as b) (hne : key a ≠ key b) :
    IsLast key (as ++ [a]) b := by
  obtain ⟨pre, post, rfl, hpost⟩ := h
  refine ⟨pre, post ++ [a], by simp, ?_⟩
  rw [List.forall_mem_append, List.forall_mem_singleton]
  exact ⟨hpost, hne⟩

theorem isLast_concat (as : List α) (a : α) : IsLast key (as ++ [a]) a :=
  ⟨as, [], rfl, nofun⟩

theorem isLast_unique {as : List α} {a b : α} (ha : IsLast key as a) (hb : IsLast key as b)
    (h : key a = key b) : a = b := by
  obtain ⟨pre, post, rfl, hpost⟩ := ha
  obtain ⟨pre', post', heq, hpost'⟩ := hb
  obtain ⟨mid, hpre, hrest⟩ | ⟨mid, hpre, hrest⟩ := List.append_eq_append_iff.mp heq
  · cases mid with
    | nil =>
      rw [List.nil_append] at hrest
      exact (List.cons.inj hrest).1
    | cons x mid =>
      rw [List.cons_append] at hrest
      obtain ⟨rfl, rfl⟩ := List.cons.inj hrest
      exact absurd h.symm (hpost b (List.mem_append_right _ List.mem_cons_self))
  · cases mid with
    | nil =>
      rw [List.nil_append] at hrest
      exact (List.cons.inj hrest).1.symm
    | cons x mid =>
      rw [List.cons_append] at hrest
      obtain ⟨rfl, rfl⟩ := List.cons.inj hrest
      exact absurd h (hpost' a (List.mem_append_right _ List.mem_cons_self))

/- The keys of a table are different, and each entry is the last of its key. -/
structure Sound (key : α → κ) (as t : List α) : Prop where
  distinct : (t.map key).Nodup
  last : ∀ b ∈ t, IsLast key as b

theorem key_ne_of_nodup {t : List α} (h : (t.map key).Nodup) {i j : Nat} {a b : α}
    (ha : t[i]? = some a) (hb : t[j]? = some b) (hij : i ≠ j) : key a ≠ key b := by
  intro heq
  have hi : i < (t.map key).length := by
    rw [List.length_map]
    exact (List.getElem?_eq_some_iff.mp ha).1
  apply hij
  apply (List.getElem?_inj hi h).mp
  rw [List.getElem?_map, List.getElem?_map, ha, hb, Option.map_some, Option.map_some, heq]

/- An entry is replaced by one of its key. -/
theorem map_key_set {t : List α} {i : Nat} {a b : α} (hi : t[i]? = some b) (hb : key b = key a) :
    (t.set i a).map key = t.map key := by
  apply List.ext_getElem?
  intro j
  rw [List.getElem?_map, List.getElem?_map]
  by_cases hij : i = j
  · subst hij
    rw [List.getElem?_set_self (List.getElem?_eq_some_iff.mp hi).1, hi, Option.map_some,
      Option.map_some, hb]
  · rw [List.getElem?_set_ne hij]

/- A place is overwritten, and no other place has the key. -/
theorem Sound.set {as t : List α} (h : Sound key as t) {i : Nat} {a : α}
    (hothers : ∀ j b, j ≠ i → t[j]? = some b → key b ≠ key a) :
    Sound key (as ++ [a]) (t.set i a) where
  distinct := by
    rw [List.map_set, List.nodup_iff_getElem?_ne_getElem?]
    intro j k hjk hk
    have hold := List.nodup_iff_getElem?_ne_getElem?.mp h.distinct
    rw [List.length_set, List.length_map] at hk
    have hat : ∀ l, l < t.length → l ≠ i → some (key a) ≠ (t.map key)[l]? := by
      intro l hl hli heq
      rw [List.getElem?_map, List.getElem?_eq_getElem hl, Option.map_some] at heq
      exact hothers l _ hli (List.getElem?_eq_getElem hl) (Option.some.inj heq).symm
    by_cases hji : i = j
    · subst hji
      rw [List.getElem?_set_self (by simpa using by omega),
        List.getElem?_set_ne (by omega)]
      exact hat k hk (by omega)
    · rw [List.getElem?_set_ne hji]
      by_cases hki : i = k
      · subst hki
        rw [List.getElem?_set_self (by simpa using hk)]
        exact (hat j (by omega) (by omega)).symm
      · rw [List.getElem?_set_ne hki]
        exact hold j k hjk (by simpa using hk)
  last b hb := by
    obtain ⟨j, hj⟩ := List.mem_iff_getElem?.mp hb
    by_cases hji : i = j
    · subst hji
      rw [List.getElem?_set_self'] at hj
      obtain ⟨_, _, rfl⟩ := Option.map_eq_some_iff.mp hj
      exact isLast_concat as _
    · rw [List.getElem?_set_ne hji] at hj
      exact isLast_append (h.last b (List.mem_of_getElem? hj)) (hothers j b (Ne.symm hji) hj).symm

variable [DecidableEq κ]

/- The entry of its key is replaced, or it is added, or it goes to the place that a full table
   gives up. -/
def put (key : α → κ) (room : Nat) (victim : List α → α → Option Nat) (t : List α) (a : α) :
    List α :=
  match t.findIdx? fun b => key b = key a with
  | some i => t.set i a
  | none =>
    if t.length < room then t ++ [a]
    else match victim t a with
      | some i => t.set i a
      | none => t

/- The table after a history. -/
def fill (key : α → κ) (room : Nat) (victim : List α → α → Option Nat) (as : List α) : List α :=
  as.foldl (put key room victim) []

theorem fill_append (as : List α) (a : α) :
    fill key room victim (as ++ [a]) = put key room victim (fill key room victim as) a := by
  rw [fill, List.foldl_append]
  rfl

/- The ways a table can change. -/
theorem put_cases (key : α → κ) (room : Nat) (victim : List α → α → Option Nat) (t : List α)
    (a : α) :
    (∃ i, (∃ b, t[i]? = some b ∧ key b = key a) ∧ put key room victim t a = t.set i a) ∨
    ((∀ b ∈ t, key b ≠ key a) ∧ t.length < room ∧ put key room victim t a = t ++ [a]) ∨
    ((∀ b ∈ t, key b ≠ key a) ∧ room ≤ t.length ∧
      ((∃ i, put key room victim t a = t.set i a) ∨ put key room victim t a = t)) := by
  rw [put]
  cases hfind : t.findIdx? fun b => key b = key a with
  | some i =>
    obtain ⟨hi, hkey, _⟩ := List.findIdx?_eq_some_iff_getElem.mp hfind
    exact .inl ⟨i, ⟨t[i], List.getElem?_eq_getElem hi, of_decide_eq_true hkey⟩, rfl⟩
  | none =>
    have hno : ∀ b ∈ t, key b ≠ key a := by simpa [List.findIdx?_eq_none_iff] using hfind
    by_cases hroom : t.length < room
    · exact .inr (.inl ⟨hno, hroom, if_pos hroom⟩)
    · refine .inr (.inr ⟨hno, Nat.not_lt.mp hroom, ?_⟩)
      simp only [if_neg hroom]
      cases victim t a with
      | some i => exact .inl ⟨i, rfl⟩
      | none => exact .inr rfl

theorem sound_put {as t : List α} (h : Sound key as t) (a : α) :
    Sound key (as ++ [a]) (put key room victim t a) := by
  obtain ⟨i, ⟨b, hi, hb⟩, hput⟩ | ⟨hno, _, hput⟩ | ⟨hno, _, ⟨i, hput⟩ | hput⟩ :=
    put_cases key room victim t a
  · rw [hput]
    apply h.set
    intro j c hji hj
    rw [← hb]
    exact key_ne_of_nodup h.distinct hj hi hji
  · rw [hput]
    refine ⟨?_, ?_⟩
    · rw [List.map_append, List.map_singleton, List.nodup_append]
      refine ⟨h.distinct, List.nodup_singleton _, ?_⟩
      intro x hx y hy heq
      obtain ⟨b, hb, rfl⟩ := List.mem_map.mp hx
      rw [List.mem_singleton.mp hy] at heq
      exact hno b hb heq
    · rw [List.forall_mem_append, List.forall_mem_singleton]
      exact ⟨fun b hb => isLast_append (h.last b hb) (hno b hb).symm, isLast_concat as a⟩
  · rw [hput]
    exact h.set fun j b _ hj => hno b (List.mem_of_getElem? hj)
  · rw [hput]
    exact ⟨h.distinct, fun b hb => isLast_append (h.last b hb) (hno b hb).symm⟩

/-- Whatever a full table gives up, each entry is the last of its key in the history. -/
theorem sound_fill (as : List α) : Sound key as (fill key room victim as) := by
  induction as using List.reverseRecOn with
  | nil => exact ⟨List.nodup_nil, nofun⟩
  | append_singleton as a ih =>
    rw [fill_append]
    exact sound_put ih a

/- The keys of a table and one more that a history has after them. -/
theorem length_lt_dedup {as t : List α} {a : α} (hdistinct : (t.map key).Nodup)
    (hsub : ∀ k ∈ t.map key, k ∈ as.map key) (hno : key a ∉ t.map key) :
    t.length < ((as ++ [a]).map key).dedup.length := by
  have hcount : (key a :: t.map key) <+~ ((as ++ [a]).map key).dedup := by
    refine List.subperm_of_subset (List.nodup_cons.mpr ⟨hno, hdistinct⟩) ?_
    intro x hx
    rw [List.mem_dedup, List.map_append, List.mem_append, List.map_singleton]
    obtain rfl | hx := List.mem_cons.mp hx
    · exact .inr List.mem_cons_self
    · exact .inl (hsub x hx)
  have hlen := hcount.length_le
  rwa [List.length_cons, List.length_map] at hlen

/-- While the keys of the history are not more than the places, every key has its entry. -/
theorem key_mem_fill {as : List α} (h : (as.map key).dedup.length ≤ room) :
    ∀ k, k ∈ (fill key room victim as).map key ↔ k ∈ as.map key := by
  induction as using List.reverseRecOn with
  | nil => exact fun k => Iff.rfl
  | append_singleton as a ih =>
    have hsub : (as.map key).dedup.length ≤ ((as ++ [a]).map key).dedup.length := by
      rw [List.map_append]
      refine (List.subperm_of_subset (List.nodup_dedup _) ?_).length_le
      intro k hk
      rw [List.mem_dedup] at hk ⊢
      exact List.mem_append_left _ hk
    have hold := ih (Nat.le_trans hsub h)
    intro k
    rw [fill_append, List.map_append, List.map_singleton, List.mem_append, List.mem_singleton]
    obtain ⟨i, ⟨b, hi, hb⟩, hput⟩ | ⟨hno, _, hput⟩ | ⟨hno, hfull, _⟩ :=
      put_cases key room victim (fill key room victim as) a
    · -- the keys of the table are what they were
      rw [hput, map_key_set hi hb, hold]
      constructor
      · exact .inl
      · rintro (hk | rfl)
        · exact hk
        · rw [← hb, ← hold]
          exact List.mem_map_of_mem (List.mem_of_getElem? hi)
    · rw [hput, List.map_append, List.map_singleton, List.mem_append, List.mem_singleton, hold]
    · -- a full table without the key would need more keys than there are places
      have hlt := length_lt_dedup (sound_fill as).distinct (fun x => (hold x).mp) (a := a) (by
        intro hmem
        obtain ⟨b, hb, heq⟩ := List.mem_map.mp hmem
        exact hno b hb heq)
      omega

/-- So the table is then exactly the last entries of the history. -/
theorem mem_fill_iff {as : List α} (h : (as.map key).dedup.length ≤ room) (b : α) :
    b ∈ fill key room victim as ↔ IsLast key as b := by
  constructor
  · exact (sound_fill as).last b
  · intro hb
    have hmem : key b ∈ as.map key := by
      obtain ⟨pre, post, rfl, _⟩ := hb
      exact List.mem_map_of_mem (List.mem_append_right _ List.mem_cons_self)
    obtain ⟨c, hc, hkey⟩ := List.mem_map.mp ((key_mem_fill h (key b)).mpr hmem)
    rw [← isLast_unique ((sound_fill as).last c hc) hb hkey]
    exact hc

end DnsWrapper.KeyedTable
