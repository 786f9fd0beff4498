import Mathlib.Data.List.Basic

/-! Registers that calls put values into. If every call changes what a view of the state shows
only by putting in the value that it gives to this view, then after any calls the view shows the
values given, put in one after the other; and if putting in only adds, as or-ing does, it shows
the last of them exactly when that one covers all the others. -/
namespace DnsWrapper.StickyBits
variable {σ ε α β : Type}

/-- The step law of a view, for runs. -/
theorem view_run (view : σ → β) {step : σ → ε → σ} {given : ε → Option α} {put : β → α → β}
    (hstep : ∀ s e, view (step s e) = (given e).elim (view s) (put (view s))) (s : σ)
    (es : List ε) : view (es.foldl step s) = (es.filterMap given).foldl put (view s) := by
  induction es generalizing s with
  | nil => rfl
  | cons e es ih =>
    rw [List.foldl_cons, ih, hstep]
    cases he : given e with
    | none =>
      rw [List.filterMap_cons_none he]
      rfl
    | some v =>
      rw [List.filterMap_cons_some he]
      rfl

section Fold
variable {put : β → α → β} {P : β → Prop}

theorem foldl_iff {Q : α → Prop} (h : ∀ b v, P (put b v) ↔ P b ∧ Q v) (b : β) (vs : List α) :
    P (vs.foldl put b) ↔ P b ∧ ∀ v ∈ vs, Q v := by
  induction vs generalizing b with
  | nil => simp
  | cons v vs ih => rw [List.foldl_cons, ih, h, List.forall_mem_cons, and_assoc]

theorem foldl_of_mem (hkeep : ∀ b v, P b → P (put b v)) {v : α} (hput : ∀ b, P (put b v)) (b : β)
    {vs : List α} (hv : v ∈ vs) : P (vs.foldl put b) := by
  have hrest : ∀ (ws : List α) (b : β), P b → P (ws.foldl put b) := by
    intro ws
    induction ws with
    | nil => exact fun _ hb => hb
    | cons w ws ih => exact fun b hb => ih (put b w) (hkeep b w hb)
  induction hv generalizing b with
  | head vs => exact hrest vs _ (hput b)
  | tail w _ ih => exact ih (put b w)

end Fold

section Semilattice
variable (op : α → α → α) [Std.Associative op]

theorem op_idem_left [Std.IdempotentOp op] (a b : α) : op a (op a b) = op a b := by
  have hassoc : op (op a a) b = op a (op a b) := Std.Associative.assoc a a b
  have hidem : op a a = a := Std.IdempotentOp.idempotent a
  rw [← hassoc, hidem]

theorem op_idem_right [Std.IdempotentOp op] (a b : α) : op (op a b) b = op a b := by
  have hassoc : op (op a b) b = op a (op b b) := Std.Associative.assoc a b b
  have hidem : op b b = b := Std.IdempotentOp.idempotent b
  rw [hassoc, hidem]

variable [Std.Commutative op]

theorem op_swap (a b c : α) : op (op a b) c = op (op a c) b := by
  have hassoc : ∀ c b, op (op a b) c = op a (op b c) := fun c b => Std.Associative.assoc a b c
  have hcomm : op b c = op c b := Std.Commutative.comm b c
  rw [hassoc, hassoc, hcomm]

variable [Std.IdempotentOp op]

/- A value is covered by v if it adds nothing to v. -/
theorem covered_op (a w v : α) : op (op a w) v = v ↔ op a v = v ∧ op w v = v := by
  have hassoc : op (op a w) v = op a (op w v) := Std.Associative.assoc a w v
  constructor
  · intro h
    constructor
    · calc op a v = op a (op a (op w v)) := by rw [← hassoc, h]
        _ = op a (op w v) := op_idem_left op a (op w v)
        _ = v := by rw [← hassoc, h]
    · calc op w v = op v w := Std.Commutative.comm w v
        _ = op (op (op a w) v) w := by rw [h]
        _ = op (op (op a w) w) v := op_swap op (op a w) v w
        _ = op (op a w) v := by rw [op_idem_right op a w]
        _ = v := h
  · rintro ⟨ha, hw⟩
    rw [hassoc, hw, ha]

/- Each of the values put in stays in. -/
theorem op_foldl (b : α) {v : α} {vs : List α} (hv : v ∈ vs) :
    op (vs.foldl op b) v = vs.foldl op b := by
  have hkeep : ∀ x w, op x v = x → op (op x w) v = op x w := by
    intro x w hx
    rw [op_swap op, hx]
  exact foldl_of_mem hkeep (op_idem_right op · v) b hv

/-- What was put in last is all there is if it covers what was there and everything else
that was put in, and only then. -/
theorem foldl_eq_last_iff (b : α) (vs : List α) :
    vs.foldl op b = vs.getLast?.getD b ↔
      ∀ v, vs.getLast? = some v → op b v = v ∧ ∀ w ∈ vs, op w v = v := by
  cases hlast : vs.getLast? with
  | none =>
    rw [List.getLast?_eq_none_iff] at hlast
    rw [hlast]
    exact iff_of_true rfl nofun
  | some v =>
    have hcovered := foldl_iff (P := fun x => op x v = v) (covered_op op · · v) b vs
    rw [op_foldl op b (List.mem_of_getLast? hlast)] at hcovered
    rw [Option.getD_some, hcovered]
    constructor
    · intro h u hu
      cases hu
      exact h
    · exact fun h => h v rfl

end Semilattice
end DnsWrapper.StickyBits
