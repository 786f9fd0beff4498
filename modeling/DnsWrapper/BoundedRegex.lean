import Mathlib.Computability.Language

/-! Regular expressions with bounded repetition only. A backtracking matcher is run by the
structure of the expression; it accepts exactly the language. -/
namespace DnsWrapper.BoundedRegex
variable {α : Type}

inductive Regex (α : Type) where
  | eps
  | cls (p : α → Bool)
  | alt (r s : Regex α)
  | seq (r s : Regex α)

namespace Regex

def opt (r : Regex α) : Regex α := .alt r .eps

/- The expression k times. -/
def times (r : Regex α) : Nat → Regex α
  | 0 => .eps
  | k + 1 => .seq r (times r k)

/- At most k times. -/
def upTo (r : Regex α) : Nat → Regex α
  | 0 => .eps
  | k + 1 => opt (.seq r (upTo r k))

/- The bounds m and n of r{m,n}. -/
def between (r : Regex α) (m n : Nat) : Regex α := .seq (times r m) (upTo r (n - m))

def lang : Regex α → Language α
  | eps => 1
  | cls p => {w | ∃ a, p a = true ∧ w = [a]}
  | alt r s => lang r + lang s
  | seq r s => lang r * lang s

/- What can be left of a text behind a match at its front, in the order of the attempts. -/
def rests : Regex α → List α → List (List α)
  | eps, w => [w]
  | cls _, [] => []
  | cls p, a :: w => if p a then [w] else []
  | alt r s, w => rests r w ++ rests s w
  | seq r s, w => (rests r w).flatMap (rests s)

def regexMatch (r : Regex α) (w : List α) : Bool := (rests r w).any List.isEmpty

@[simp] theorem mem_lang_eps {w : List α} : w ∈ lang (.eps : Regex α) ↔ w = [] := Iff.rfl

@[simp] theorem mem_lang_cls {p : α → Bool} {w : List α} :
    w ∈ lang (.cls p) ↔ ∃ a, p a = true ∧ w = [a] := Iff.rfl

@[simp] theorem mem_lang_alt {r s : Regex α} {w : List α} :
    w ∈ lang (.alt r s) ↔ w ∈ lang r ∨ w ∈ lang s := Iff.rfl

@[simp] theorem mem_lang_seq {r s : Regex α} {w : List α} :
    w ∈ lang (.seq r s) ↔ ∃ u ∈ lang r, ∃ v ∈ lang s, u ++ v = w := Language.mem_mul

theorem mem_rests (r : Regex α) (w t : List α) :
    t ∈ rests r w ↔ ∃ u, u ∈ lang r ∧ u ++ t = w := by
  induction r generalizing w t with
  | eps => simp [rests, eq_comm]
  | cls p =>
    cases w with
    | nil => simp [rests]
    | cons a w =>
      rw [rests]
      split_ifs with h
      · rw [List.mem_singleton]
        constructor
        · rintro rfl
          exact ⟨[a], ⟨a, h, rfl⟩, rfl⟩
        · rintro ⟨_, ⟨b, _, rfl⟩, heq⟩
          cases heq
          rfl
      · apply iff_of_false List.not_mem_nil
        rintro ⟨_, ⟨b, hb, rfl⟩, heq⟩
        cases heq
        exact h hb
  | alt r s ihr ihs => simp [rests, ihr, ihs, or_and_right, exists_or]
  | seq r s ihr ihs =>
    simp only [rests, List.mem_flatMap, ihr, ihs, mem_lang_seq]
    constructor
    · rintro ⟨m, ⟨u, hu, rfl⟩, v, hv, rfl⟩
      exact ⟨u ++ v, ⟨u, hu, v, hv, rfl⟩, List.append_assoc u v t⟩
    · rintro ⟨_, ⟨u, hu, v, hv, rfl⟩, rfl⟩
      exact ⟨v ++ t, ⟨u, hu, (List.append_assoc u v t).symm⟩, v, hv, rfl⟩

/-- The matcher accepts exactly the words of the language. -/
theorem regexMatch_iff (r : Regex α) (w : List α) : r.regexMatch w = true ↔ w ∈ lang r := by
  simp only [regexMatch, List.any_eq_true, List.isEmpty_iff, exists_eq_right, mem_rests,
    List.append_nil]

/- Every symbol that the expression can match has the property. -/
def Over (P : α → Prop) : Regex α → Prop
  | eps => True
  | cls p => ∀ a, p a = true → P a
  | alt r s => Over P r ∧ Over P s
  | seq r s => Over P r ∧ Over P s

theorem over_times {P : α → Prop} {r : Regex α} (h : Over P r) (k : Nat) : Over P (times r k) := by
  induction k with
  | zero => trivial
  | succ k ih => exact ⟨h, ih⟩

theorem over_upTo {P : α → Prop} {r : Regex α} (h : Over P r) (k : Nat) : Over P (upTo r k) := by
  induction k with
  | zero => trivial
  | succ k ih => exact ⟨⟨h, ih⟩, trivial⟩

theorem over_between {P : α → Prop} {r : Regex α} (h : Over P r) (m n : Nat) :
    Over P (between r m n) := ⟨over_times h m, over_upTo h (n - m)⟩

theorem forall_of_mem_lang {P : α → Prop} {r : Regex α} (h : Over P r) {w : List α}
    (hw : w ∈ lang r) : ∀ a ∈ w, P a := by
  induction r generalizing w with
  | eps =>
    cases hw
    nofun
  | cls p =>
    obtain ⟨a, ha, rfl⟩ := hw
    exact List.forall_mem_singleton.mpr (h a ha)
  | alt r s ihr ihs =>
    cases hw with
    | inl hw => exact ihr h.1 hw
    | inr hw => exact ihs h.2 hw
  | seq r s ihr ihs =>
    obtain ⟨u, hu, v, hv, rfl⟩ := mem_lang_seq.mp hw
    exact List.forall_mem_append.mpr ⟨ihr h.1 hu, ihs h.2 hv⟩

theorem mem_lang_times {r : Regex α} {ws : List (List α)} (h : ∀ w ∈ ws, w ∈ lang r) :
    ws.flatten ∈ lang (times r ws.length) := by
  induction ws with
  | nil => rfl
  | cons w ws ih =>
    rw [List.forall_mem_cons] at h
    exact mem_lang_seq.mpr ⟨w, h.1, ws.flatten, ih h.2, rfl⟩

section Class
variable {p : α → Bool}

theorem mem_lang_times_cls {k : Nat} {w : List α} :
    w ∈ lang (times (.cls p) k) ↔ w.length = k ∧ ∀ a ∈ w, p a = true := by
  induction k generalizing w with
  | zero => simp +contextual [times]
  | succ k ih =>
    rw [times, mem_lang_seq]
    constructor
    · rintro ⟨_, ⟨a, ha, rfl⟩, v, hv, rfl⟩
      have htail := ih.mp hv
      exact ⟨by simp [htail.1], List.forall_mem_cons.mpr ⟨ha, htail.2⟩⟩
    · rintro ⟨hlen, hall⟩
      obtain ⟨a, v, rfl⟩ := List.exists_cons_of_length_eq_add_one hlen
      rw [List.forall_mem_cons] at hall
      exact ⟨[a], ⟨a, hall.1, rfl⟩, v, ih.mpr ⟨Nat.succ.inj hlen, hall.2⟩, rfl⟩

theorem mem_lang_upTo_cls {k : Nat} {w : List α} :
    w ∈ lang (upTo (.cls p) k) ↔ w.length ≤ k ∧ ∀ a ∈ w, p a = true := by
  induction k generalizing w with
  | zero => simp +contextual [upTo]
  | succ k ih =>
    rw [upTo, opt, mem_lang_alt, mem_lang_eps, mem_lang_seq]
    cases w with
    | nil => simp
    | cons a v =>
      rw [List.forall_mem_cons, List.length_cons, Nat.add_le_add_iff_right]
      constructor
      · rintro (⟨_, ⟨b, hb, rfl⟩, u, hu, heq⟩ | h)
        · cases heq
          exact ⟨(ih.mp hu).1, hb, (ih.mp hu).2⟩
        · cases h
      · rintro ⟨hlen, ha, hall⟩
        exact .inl ⟨[a], ⟨a, ha, rfl⟩, v, ih.mpr ⟨hlen, hall⟩, rfl⟩

/-- A class between m and n times: as many symbols, all of the class. -/
theorem mem_lang_between_cls {m n : Nat} (hmn : m ≤ n) {w : List α} :
    w ∈ lang (between (.cls p) m n) ↔
      m ≤ w.length ∧ w.length ≤ n ∧ ∀ a ∈ w, p a = true := by
  rw [between, mem_lang_seq]
  constructor
  · rintro ⟨u, hu, v, hv, rfl⟩
    have hfront := mem_lang_times_cls.mp hu
    have hback := mem_lang_upTo_cls.mp hv
    rw [List.length_append]
    exact ⟨by omega, by omega, List.forall_mem_append.mpr ⟨hfront.2, hback.2⟩⟩
  · rintro ⟨hlow, hhigh, hall⟩
    refine ⟨w.take m, mem_lang_times_cls.mpr ⟨?_, ?_⟩, w.drop m, mem_lang_upTo_cls.mpr ⟨?_, ?_⟩,
      List.take_append_drop m w⟩
    · rw [List.length_take]
      omega
    · exact fun a ha => hall a (List.mem_of_mem_take ha)
    · rw [List.length_drop]
      omega
    · exact fun a ha => hall a (List.mem_of_mem_drop ha)

end Class

section Separated
variable [DecidableEq α] {r : Regex α} {sep : α}

/- The expression k + 1 times, with the separator in between. -/
theorem mem_lang_joined {k : Nat} {w : List α} :
    w ∈ lang (.seq r (times (.seq (.cls (· = sep)) r) k)) ↔
      ∃ gs : List (List α), gs.length = k + 1 ∧ (∀ g ∈ gs, g ∈ lang r) ∧
        [sep].intercalate gs = w := by
  induction k generalizing w with
  | zero =>
    simp only [times, mem_lang_seq, mem_lang_eps]
    constructor
    · rintro ⟨u, hu, _, rfl, rfl⟩
      exact ⟨[u], rfl, List.forall_mem_singleton.mpr hu, by simp⟩
    · rintro ⟨gs, hlen, hall, rfl⟩
      obtain ⟨g, rfl⟩ := List.length_eq_one_iff.mp hlen
      exact ⟨g, hall g List.mem_cons_self, [], rfl, by simp⟩
  | succ k ih =>
    rw [mem_lang_seq]
    constructor
    · rintro ⟨u, hu, _, htail, rfl⟩
      obtain ⟨_, ⟨_, ⟨c, hc, rfl⟩, v, hv, rfl⟩, t, ht, rfl⟩ := mem_lang_seq.mp htail
      obtain ⟨gs, hlen, hall, heq⟩ := ih.mp (mem_lang_seq.mpr ⟨v, hv, t, ht, rfl⟩)
      rw [decide_eq_true_eq] at hc
      have hne : gs ≠ [] := List.ne_nil_of_length_eq_add_one hlen
      refine ⟨u :: gs, by rw [List.length_cons, hlen], List.forall_mem_cons.mpr ⟨hu, hall⟩, ?_⟩
      rw [List.intercalate_cons_of_ne_nil hne, heq, hc]
      simp
    · rintro ⟨gs, hlen, hall, rfl⟩
      obtain ⟨u, gs, rfl⟩ := List.exists_cons_of_length_eq_add_one hlen
      rw [List.forall_mem_cons] at hall
      have hgs : gs.length = k + 1 := Nat.succ.inj hlen
      have hne : gs ≠ [] := List.ne_nil_of_length_eq_add_one hgs
      obtain ⟨v, hv, t, ht, heq⟩ := mem_lang_seq.mp (ih.mpr ⟨gs, hgs, hall.2, rfl⟩)
      refine ⟨u, hall.1, sep :: v ++ t, ?_, ?_⟩
      · exact mem_lang_seq.mpr ⟨sep :: v, ⟨[sep], ⟨sep, decide_eq_true rfl, rfl⟩, v, hv, rfl⟩, t, ht, rfl⟩
      · rw [List.intercalate_cons_of_ne_nil hne, ← heq]
        simp

/-- Where the expression never matches the separator, these are the words that the separator
cuts into k + 1 matches. -/
theorem mem_lang_separated [BEq α] [LawfulBEq α] (hover : Over (· ≠ sep) r) {k : Nat} {w : List α} :
    w ∈ lang (.seq r (times (.seq (.cls (· = sep)) r) k)) ↔
      (w.splitOn sep).length = k + 1 ∧ ∀ g ∈ w.splitOn sep, g ∈ lang r := by
  rw [mem_lang_joined]
  constructor
  · rintro ⟨gs, hlen, hall, rfl⟩
    have hfree : ∀ g ∈ gs, sep ∉ g := by
      intro g hg hmem
      exact forall_of_mem_lang hover (hall g hg) sep hmem rfl
    rw [List.splitOn_intercalate sep hfree (List.ne_nil_of_length_eq_add_one hlen)]
    exact ⟨hlen, hall⟩
  · rintro ⟨hlen, hall⟩
    exact ⟨_, hlen, hall, List.intercalate_splitOn sep⟩

end Separated

end Regex

end DnsWrapper.BoundedRegex
