import Mathlib.Tactic.Linarith

/-! A moving average over about N samples, kept as a sum scaled by N with a division that rounds
towards zero, and started anew by the sample after a mean of 0. Its mean stays between 0 and
whatever bounds the samples. -/
namespace DnsWrapper.MovingAverage

structure Average where
  mean : Int
  sum : Int

namespace Average

def add (N : Int) (a : Average) (x : Int) : Average :=
  let sum := if a.mean = 0 then x * N else a.sum + (x - a.mean)
  { mean := sum.tdiv N, sum }

/- The average of samples between 0 and D. -/
structure Within (N D : Int) (a : Average) : Prop where
  mean : a.mean = a.sum.tdiv N
  nonneg : 0 ≤ a.sum
  le : a.sum ≤ N * D

variable {N D x : Int} {a : Average}

theorem add_of_zero (hN : 0 < N) (h : a.mean = 0) : a.add N x = ⟨x, x * N⟩ := by
  simp only [add, h, if_true, Int.mul_tdiv_cancel x (Int.ne_of_gt hN)]

theorem add_of_ne_zero (h : a.mean ≠ 0) :
    a.add N x = ⟨(a.sum + (x - a.mean)).tdiv N, a.sum + (x - a.mean)⟩ := by
  simp only [add, h, if_false]

theorem Within.mean_eq (h : a.Within N D) : a.mean = a.sum / N := by
  rw [h.mean, Int.tdiv_eq_ediv_of_nonneg h.nonneg]

theorem Within.mean_nonneg (hN : 0 < N) (h : a.Within N D) : 0 ≤ a.mean := by
  rw [h.mean_eq]
  exact Int.ediv_nonneg h.nonneg (Int.le_of_lt hN)

theorem Within.mean_le (hN : 0 < N) (h : a.Within N D) : a.mean ≤ D := by
  rw [h.mean_eq]
  exact Int.ediv_le_of_le_mul hN (by linarith [h.le])

theorem Within.mono {D' : Int} (hN : 0 < N) (h : a.Within N D) (hD : D ≤ D') : a.Within N D' :=
  ⟨h.mean, h.nonneg, h.le.trans (Int.mul_le_mul_of_nonneg_left hD (Int.le_of_lt hN))⟩

theorem within_of_zero (hN : 0 < N) (h : a.mean = 0) (hx : 0 ≤ x) (hD : x ≤ D) :
    (a.add N x).Within N D := by
  rw [add_of_zero hN h]
  refine ⟨(Int.mul_tdiv_cancel x (Int.ne_of_gt hN)).symm, Int.mul_nonneg hx (Int.le_of_lt hN), ?_⟩
  rw [Int.mul_comm]
  exact Int.mul_le_mul_of_nonneg_left hD (Int.le_of_lt hN)

/-- One more sample. The sum loses the mean and gains at most D; it is at its bound only
where the mean is D as well. -/
theorem Within.add (hN : 0 < N) (h : a.Within N D) (hx : 0 ≤ x) (hD : x ≤ D) :
    (a.add N x).Within N D := by
  by_cases hzero : a.mean = 0
  · exact within_of_zero hN hzero hx hD
  · have hnonneg := h.mean_nonneg hN
    have hle := h.mean_le hN
    have hfloor : N * a.mean ≤ a.sum := by
      rw [h.mean_eq]
      exact Int.mul_ediv_self_le (Int.ne_of_gt hN)
    have hceil : a.sum < N * a.mean + N := by
      rw [h.mean_eq]
      exact Int.lt_mul_ediv_self_add hN
    have hlower : 0 ≤ a.sum + (x - a.mean) := by nlinarith
    have hupper : a.sum + (x - a.mean) ≤ N * D := by
      obtain heq | hlt := Int.le_iff_eq_or_lt.mp hle
      · linarith [h.le]
      · nlinarith
    rw [add_of_ne_zero hzero]
    exact ⟨rfl, hlower, hupper⟩

end Average
end DnsWrapper.MovingAverage
