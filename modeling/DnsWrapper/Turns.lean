import Mathlib.Order.WellFounded

/-! Loops given by their turns: a turn goes on from a next state or stops with a result. A rank
that every turn lowers bounds the number of turns, and after that number the result is there. -/
namespace DnsWrapper.Turns
variable {σ ρ : Type}

inductive Turn (σ ρ : Type) where
  | next (s : σ)
  | stop (r : ρ)

/- The result, if it is there after as many turns as the first argument says. -/
def iterate (turn : σ → Turn σ ρ) : Nat → σ → Option ρ
  | 0, _ => none
  | k + 1, s =>
    match turn s with
    | .next t => iterate turn k t
    | .stop r => some r

/- The loop without a bound on its turns. -/
inductive Ends (turn : σ → Turn σ ρ) : σ → ρ → Prop
  | stop {s : σ} {r : ρ} (h : turn s = .stop r) : Ends turn s r
  | next {s t : σ} {r : ρ} (h : turn s = .next t) (ht : Ends turn t r) : Ends turn s r

variable {turn : σ → Turn σ ρ}

theorem Ends.of_stop {s : σ} {r r' : ρ} (h : Ends turn s r) (hs : turn s = .stop r') : r = r' := by
  cases h with
  | stop h =>
    rw [hs] at h
    cases h
    rfl
  | next h _ =>
    rw [hs] at h
    cases h

theorem Ends.of_next {s t : σ} {r : ρ} (h : Ends turn s r) (hs : turn s = .next t) :
    Ends turn t r := by
  cases h with
  | stop h =>
    rw [hs] at h
    cases h
  | next h ht =>
    rw [hs] at h
    cases h
    exact ht

theorem Ends.unique {s : σ} {r r' : ρ} (h : Ends turn s r) (h' : Ends turn s r') : r = r' := by
  induction h with
  | stop h => exact (h'.of_stop h).symm
  | next h _ ih => exact ih (h'.of_next h)

theorem iterate_stop {s : σ} {r : ρ} (h : turn s = .stop r) (k : Nat) :
    iterate turn (k + 1) s = some r := by
  rw [iterate, h]

theorem iterate_next {s t : σ} (h : turn s = .next t) (k : Nat) :
    iterate turn (k + 1) s = iterate turn k t := by
  rw [iterate, h]

theorem ends_of_iterate {k : Nat} {s : σ} {r : ρ} (h : iterate turn k s = some r) :
    Ends turn s r := by
  induction k generalizing s with
  | zero => cases h
  | succ k ih =>
    cases hs : turn s with
    | next t =>
      rw [iterate_next hs] at h
      exact .next hs (ih h)
    | stop r' =>
      rw [iterate_stop hs] at h
      cases h
      exact .stop hs

section Rank
variable {rank : σ → Nat} (hrank : ∀ s t, turn s = .next t → rank t < rank s)
include hrank

/-- No sequence of turns goes on for ever. -/
theorem wellFounded_of_rank : WellFounded fun t s => turn s = .next t :=
  Subrelation.wf (fun {t s} h => hrank s t h) (measure rank).wf

/-- More turns than the rank of the first state are enough. -/
theorem exists_iterate_of_rank {k : Nat} {s : σ} (hk : rank s < k) :
    ∃ r, iterate turn k s = some r := by
  induction k generalizing s with
  | zero => cases hk
  | succ k ih =>
    cases hs : turn s with
    | next t =>
      have hlt := hrank s t hs
      rw [iterate_next hs]
      exact ih (by omega)
    | stop r => exact ⟨r, iterate_stop hs k⟩

end Rank
end DnsWrapper.Turns
