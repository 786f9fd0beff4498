import Mathlib.Data.List.Nodup
import Mathlib.Logic.Function.Basic

/-! Singly linked chains in a memory of next fields: what a chain is, when a write leaves it
alone, how two chains are joined at the last node of the first, and the walk to that node. -/
namespace DnsWrapper.PointerChain
variable {α : Type}

/- The pointer p leads through the nodes of the list, in this order, and to no other. -/
def Chain (next : α → Option α) : Option α → List α → Prop
  | p, [] => p = none
  | p, a :: l => p = some a ∧ Chain next (next a) l

/- The last node of a chain. The walk is given up after as many nodes as the first
   argument says. -/
def last (next : α → Option α) : Nat → α → Option α
  | 0, _ => none
  | k + 1, a =>
    match next a with
    | none => some a
    | some b => last next k b

theorem last_chain {next : α → Option α} {l : List α} {a z : α} {k : Nat}
    (h : Chain next (some a) (l ++ [z])) (hk : l.length < k) : last next k a = some z := by
  induction l generalizing a k with
  | nil =>
    obtain ⟨ha, hz⟩ := h
    cases ha
    cases k with
    | zero => cases hk
    | succ k =>
      rw [Chain] at hz
      rw [last, hz]
  | cons b l ih =>
    obtain ⟨ha, hrest⟩ := h
    cases ha
    cases k with
    | zero => cases hk
    | succ k =>
      cases hb : next b with
      | none =>
        rw [hb] at hrest
        cases l with
        | nil => cases hrest.1
        | cons c l => cases hrest.1
      | some c =>
        rw [hb] at hrest
        simp only [last, hb]
        exact ih hrest (Nat.lt_of_succ_lt_succ hk)

theorem chain_none {next : α → Option α} {l : List α} (h : Chain next none l) : l = [] := by
  cases l with
  | nil => rfl
  | cons a l => cases h.1

theorem chain_end {next : α → Option α} {p : Option α} {l : List α} {z : α}
    (h : Chain next p (l ++ [z])) : next z = none := by
  induction l generalizing p with
  | nil => exact h.2
  | cons b l ih => exact ih h.2

variable [DecidableEq α]

/-- A write to a node outside the chain. -/
theorem Chain.frame {next : α → Option α} {p : Option α} {l : List α} (h : Chain next p l)
    {a : α} (ha : a ∉ l) (v : Option α) : Chain (Function.update next a v) p l := by
  induction l generalizing p with
  | nil => exact h
  | cons b l ih =>
    obtain ⟨hb, hrest⟩ := h
    rw [List.mem_cons, not_or] at ha
    refine ⟨hb, ?_⟩
    rw [Function.update_of_ne (Ne.symm ha.1)]
    exact ih hrest ha.2

/-- A write to the last node joins a second chain to it. -/
theorem Chain.join {next : α → Option α} {p q : Option α} {l m : List α} {z : α}
    (h : Chain next p (l ++ [z])) (hq : Chain next q m) (hnodup : (l ++ z :: m).Nodup) :
    Chain (Function.update next z q) p (l ++ z :: m) := by
  induction l generalizing p with
  | nil =>
    obtain ⟨hz, _⟩ := h
    refine ⟨hz, ?_⟩
    rw [Function.update_self]
    exact hq.frame (List.nodup_cons.mp hnodup).1 q
  | cons b l ih =>
    obtain ⟨hb, hrest⟩ := h
    rw [List.cons_append, List.nodup_cons, List.mem_append, List.mem_cons] at hnodup
    have hne : b ≠ z := fun h => hnodup.1 (.inr (.inl h))
    refine ⟨hb, ?_⟩
    rw [Function.update_of_ne hne]
    exact ih hrest hnodup.2

/-- A node outside the chain is put in front of it. -/
theorem Chain.push {next : α → Option α} {p : Option α} {l : List α} {a : α}
    (h : Chain next p l) (ha : a ∉ l) : Chain (Function.update next a p) (some a) (a :: l) := by
  refine ⟨rfl, ?_⟩
  rw [Function.update_self]
  exact h.frame ha p

end DnsWrapper.PointerChain
