import Mathlib.Data.List.Forall2
import Mathlib.Data.List.Perm.Subperm

/-! Runs of a machine whose step may be undefined, with three rules: what every step keeps
holds after every run, a machine that simulates another one step by step does so over runs,
and a machine that hands out only what it was given can match its answers one-to-one with
what was asked. -/
namespace DnsWrapper.Runs
open scoped List
variable {σ ε ω κ α β : Type}

/- The final state and the output of each event. -/
def run (step : σ → ε → Option (σ × ω)) : σ → List ε → Option (σ × List ω)
  | s, [] => some (s, [])
  | s, e :: es => do
    let (s, o) ← step s e
    let (s, os) ← run step s es
    pure (s, o :: os)

theorem run_cons {step : σ → ε → Option (σ × ω)} {s t : σ} {e : ε} {es : List ε} {os : List ω}
    (h : run step s (e :: es) = some (t, os)) :
    ∃ u o os', step s e = some (u, o) ∧ run step u es = some (t, os') ∧ os = o :: os' := by
  obtain ⟨⟨u, o⟩, hstep, h⟩ := Option.bind_eq_some_iff.mp h
  obtain ⟨⟨t', os'⟩, hrun, h⟩ := Option.bind_eq_some_iff.mp h
  cases h
  exact ⟨u, o, os', hstep, hrun, rfl⟩

theorem run_of_step {step : σ → ε → Option (σ × ω)} {s u t : σ} {e : ε} {es : List ε} {o : ω}
    {os : List ω} (he : step s e = some (u, o)) (h : run step u es = some (t, os)) :
    run step s (e :: es) = some (t, o :: os) := by
  simp [run, he, h]

theorem run_append {step : σ → ε → Option (σ × ω)} {s t u : σ} {es es' : List ε} {os os' : List ω}
    (h : run step s es = some (t, os)) (h' : run step t es' = some (u, os')) :
    run step s (es ++ es') = some (u, os ++ os') := by
  induction es generalizing s os with
  | nil =>
    cases h
    exact h'
  | cons e es ih =>
    obtain ⟨v, o, os₁, hstep, hrest, rfl⟩ := run_cons h
    simp [run, hstep, ih hrest]

/- Each event is admitted in the state that it meets. -/
def Admits (step : σ → ε → Option (σ × ω)) (ok : σ → ε → Prop) : σ → List ε → Prop
  | _, [] => True
  | s, e :: es => ok s e ∧ ∀ t o, step s e = some (t, o) → Admits step ok t es

theorem admits_of_forall {step : σ → ε → Option (σ × ω)} {ok : σ → ε → Prop} {es : List ε}
    (h : ∀ e ∈ es, ∀ s, ok s e) (s : σ) : Admits step ok s es := by
  induction es generalizing s with
  | nil => trivial
  | cons e es ih =>
    rw [List.forall_mem_cons] at h
    exact ⟨h.1 s, fun t _ _ => ih h.2 t⟩

theorem admits_and {step : σ → ε → Option (σ × ω)} {ok ok' : σ → ε → Prop} {s : σ} {es : List ε}
    (h : Admits step ok s es) (h' : Admits step ok' s es) :
    Admits step (fun s e => ok s e ∧ ok' s e) s es := by
  induction es generalizing s with
  | nil => trivial
  | cons e es ih =>
    exact ⟨⟨h.1, h'.1⟩, fun t o hstep => ih (h.2 t o hstep) (h'.2 t o hstep)⟩

/-- What holds at the start and is kept by every admitted step holds after every admitted run. -/
theorem run_invariant_admitted {step : σ → ε → Option (σ × ω)} {inv : σ → Prop}
    {ok : σ → ε → Prop} (hstep : ∀ s e t o, ok s e → inv s → step s e = some (t, o) → inv t)
    {s t : σ} {es : List ε} {os : List ω} (hok : Admits step ok s es) (hs : inv s)
    (h : run step s es = some (t, os)) : inv t := by
  induction es generalizing s os with
  | nil =>
    cases h
    exact hs
  | cons e es ih =>
    obtain ⟨u, o, os', he, hrest, rfl⟩ := run_cons h
    exact ih (hok.2 u o he) (hstep s e u o hok.1 hs he) hrest

/-- What holds at the start and is kept by every step whose event is of some kind holds after
every run over events of this kind. -/
theorem run_invariant_of {step : σ → ε → Option (σ × ω)} {inv : σ → Prop} {ok : ε → Prop}
    (hstep : ∀ s e t o, ok e → inv s → step s e = some (t, o) → inv t) {s t : σ} {es : List ε}
    {os : List ω} (hok : ∀ e ∈ es, ok e) (hs : inv s) (h : run step s es = some (t, os)) :
    inv t :=
  run_invariant_admitted hstep (admits_of_forall (fun e he _ => hok e he) s) hs h

/-- What every step keeps holds after every run. -/
theorem run_invariant {step : σ → ε → Option (σ × ω)} {inv : σ → Prop}
    (hstep : ∀ s e t o, inv s → step s e = some (t, o) → inv t) {s t : σ} {es : List ε}
    {os : List ω} (hs : inv s) (h : run step s es = some (t, os)) : inv t :=
  run_invariant_of (fun s e t o (_ : True) => hstep s e t o) (fun _ _ => trivial) hs h

/- The machine with a note beside its state, which no step looks at. -/
def noteStep (step : σ → ε → Option (σ × ω)) (note : σ → ε → σ → α → α) (x : σ × α) (e : ε) :
    Option ((σ × α) × ω) :=
  (step x.1 e).map fun y => ((y.1, note x.1 e y.1 x.2), y.2)

theorem noteStep_some {step : σ → ε → Option (σ × ω)} {note : σ → ε → σ → α → α} {x y : σ × α}
    {e : ε} {o : ω} (h : noteStep step note x e = some (y, o)) :
    step x.1 e = some (y.1, o) ∧ y.2 = note x.1 e y.1 x.2 := by
  obtain ⟨z, hz, heq⟩ := Option.map_eq_some_iff.mp h
  cases heq
  exact ⟨hz, rfl⟩

/-- Taking notes changes no run. -/
theorem run_note {step : σ → ε → Option (σ × ω)} (note : σ → ε → σ → α → α) {s t : σ}
    {es : List ε} {os : List ω} (h : run step s es = some (t, os)) (a : α) :
    ∃ b, run (noteStep step note) (s, a) es = some ((t, b), os) := by
  induction es generalizing s os a with
  | nil =>
    cases h
    exact ⟨a, rfl⟩
  | cons e es ih =>
    obtain ⟨u, o, os', he, hrest, rfl⟩ := run_cons h
    obtain ⟨b, hb⟩ := ih hrest (note s e u a)
    exact ⟨b, by simp [run, noteStep, he, hb]⟩

/-- If each output tells whether its step was admitted, then a run was admitted exactly
when all its outputs say so. -/
theorem admits_iff_outputs {step : σ → ε → Option (σ × ω)} {ok : σ → ε → Prop}
    {good : ω → Prop} (hstep : ∀ s e t o, step s e = some (t, o) → (ok s e ↔ good o))
    {s t : σ} {es : List ε} {os : List ω} (h : run step s es = some (t, os)) :
    Admits step ok s es ↔ ∀ o ∈ os, good o := by
  induction es generalizing s os with
  | nil =>
    cases h
    exact iff_of_true trivial nofun
  | cons e es ih =>
    obtain ⟨u, o, os', he, hrest, rfl⟩ := run_cons h
    rw [List.forall_mem_cons, ← ih hrest, ← hstep s e u o he]
    constructor
    · rintro ⟨hok, htail⟩
      exact ⟨hok, htail u o he⟩
    · rintro ⟨hok, htail⟩
      refine ⟨hok, ?_⟩
      intro v o' he'
      rw [he] at he'
      cases he'
      exact htail

/- The event and the step behind one output of a run, and what every step keeps before it. -/
theorem run_output_inv {step : σ → ε → Option (σ × ω)} {inv : σ → Prop}
    (hinv : ∀ s e t o, inv s → step s e = some (t, o) → inv t) {s t : σ} {es : List ε}
    {os : List ω} (hs : inv s) (h : run step s es = some (t, os)) {j : Nat} {o : ω}
    (hj : os[j]? = some o) : ∃ e u v, es[j]? = some e ∧ inv u ∧ step u e = some (v, o) := by
  induction es generalizing s os j with
  | nil =>
    cases h
    cases hj
  | cons e es ih =>
    obtain ⟨u, o', os', he, hrest, rfl⟩ := run_cons h
    cases j with
    | zero =>
      cases hj
      exact ⟨e, s, u, rfl, hs, he⟩
    | succ j => exact ih (hinv s e u o' hs he) hrest hj

theorem run_output {step : σ → ε → Option (σ × ω)} {s t : σ} {es : List ε} {os : List ω}
    (h : run step s es = some (t, os)) {j : Nat} {o : ω} (hj : os[j]? = some o) :
    ∃ e u v, es[j]? = some e ∧ step u e = some (v, o) := by
  have htrue : ∀ (s : σ) (e : ε) (t : σ) (o : ω), True → step s e = some (t, o) → True :=
    fun _ _ _ _ _ _ => trivial
  obtain ⟨e, u, v, he, _, hstep⟩ := run_output_inv htrue trivial h hj
  exact ⟨e, u, v, he, hstep⟩

/-- The simulation rule. If from related states every admitted step is defined and leads
to related states, then every admitted run is defined and ends in related states. -/
theorem run_simulates {step : σ → ε → Option (σ × ω)} {ok : σ → ε → Prop} {rel : σ → α → Prop}
    {next : α → ε → α}
    (hstep : ∀ s a e, rel s a → ok s e → ∃ t o, step s e = some (t, o) ∧ rel t (next a e))
    {s : σ} {a : α} {es : List ε} (h : rel s a) (hok : Admits step ok s es) :
    ∃ t os, run step s es = some (t, os) ∧ rel t (es.foldl next a) := by
  induction es generalizing s a with
  | nil => exact ⟨s, [], rfl, h⟩
  | cons e es ih =>
    obtain ⟨hhead, htail⟩ := hok
    obtain ⟨u, o, he, hu⟩ := hstep s a e h hhead
    obtain ⟨t, os, hrun, ht⟩ := ih hu (htail u o he)
    exact ⟨t, o :: os, by simp [run, he, hrun], ht⟩

/-- The progress rule. If from states with an invariant every admitted step is defined and keeps it,
then every admitted run is defined. -/
theorem run_defined {step : σ → ε → Option (σ × ω)} {ok : σ → ε → Prop} {inv : σ → Prop}
    (hstep : ∀ s e, inv s → ok s e → ∃ t o, step s e = some (t, o) ∧ inv t) {s : σ} {es : List ε}
    (hs : inv s) (hok : Admits step ok s es) : ∃ t os, run step s es = some (t, os) := by
  induction es generalizing s with
  | nil => exact ⟨s, [], rfl⟩
  | cons e es ih =>
    obtain ⟨u, o, he, hu⟩ := hstep s e hs hok.1
    obtain ⟨t, os, hrun⟩ := ih hu (hok.2 u o he)
    exact ⟨t, o :: os, run_of_step he hrun⟩

/-- A condition on related states that says the same as ok can be checked on the abstract
side alone. -/
theorem admits_of_simulates {step : σ → ε → Option (σ × ω)} {ok : σ → ε → Prop}
    {rel : σ → α → Prop} {next : α → ε → α}
    (hstep : ∀ s a e, rel s a → ok s e → ∃ t o, step s e = some (t, o) ∧ rel t (next a e))
    {ok' : α → ε → Prop} (hok : ∀ s a e, rel s a → ok' a e → ok s e) {s : σ} {a : α}
    {es : List ε} (h : rel s a)
    (h' : Admits (fun a e => some (next a e, ())) ok' a es) : Admits step ok s es := by
  induction es generalizing s a with
  | nil => trivial
  | cons e es ih =>
    obtain ⟨hhead, htail⟩ := h'
    have hnow := hok s a e h hhead
    refine ⟨hnow, ?_⟩
    intro t o he
    obtain ⟨u, o', he', hu⟩ := hstep s a e h hnow
    rw [he] at he'
    cases he'
    exact ih hu (htail (next a e) () rfl)

/-- The hearing rule. If from related states every admitted step is a step of a second machine
on something it hears, with the same output, then every admitted run is a run of the second
machine on what it hears, with the same outputs. -/
theorem run_hears {step : σ → ε → Option (σ × ω)} {step' : α → β → Option (α × ω)}
    {ok : σ → ε → Prop} {rel : σ → α → Prop} {hears : ε → β → Prop}
    (hstep : ∀ s a e t o, rel s a → ok s e → step s e = some (t, o) →
      ∃ m b, hears e m ∧ step' a m = some (b, o) ∧ rel t b)
    {s t : σ} {a : α} {es : List ε} {os : List ω} (hrel : rel s a) (hok : Admits step ok s es)
    (h : run step s es = some (t, os)) :
    ∃ ms b, List.Forall₂ hears es ms ∧ run step' a ms = some (b, os) ∧ rel t b := by
  induction es generalizing s a os with
  | nil =>
    cases h
    exact ⟨[], a, .nil, rfl, hrel⟩
  | cons e es ih =>
    obtain ⟨u, o, os', he, hrest, rfl⟩ := run_cons h
    obtain ⟨m, b, hm, hb, hu⟩ := hstep s a e u o hrel hok.1 he
    obtain ⟨ms, c, hms, hc, ht⟩ := ih hu (hok.2 u o he) hrest
    exact ⟨m :: ms, c, .cons hm hms, run_of_step hb hc, ht⟩

/-- The history rule. What holds of the empty history and is kept when a step adds its event and
output holds of the history of every run. -/
theorem run_history {step : σ → ε → Option (σ × ω)} {P : List (ε × ω) → σ → Prop}
    (hstep : ∀ past s e t o, P past s → step s e = some (t, o) → P (past ++ [(e, o)]) t)
    {past : List (ε × ω)} {s t : σ} {es : List ε} {os : List ω} (hs : P past s)
    (h : run step s es = some (t, os)) : P (past ++ es.zip os) t := by
  induction es generalizing past s os with
  | nil =>
    cases h
    rwa [List.zip_nil_left, List.append_nil]
  | cons e es ih =>
    obtain ⟨u, o, os', he, hrest, rfl⟩ := run_cons h
    have hall := ih (hstep past s e u o hs he) hrest
    rwa [List.append_assoc, List.singleton_append, ← List.zip_cons_cons] at hall

/-- A part of the state that every step changes as a function says is folded over the run. -/
theorem run_foldl {step : σ → ε → Option (σ × ω)} {part : σ → α} {next : α → ε → α}
    (hstep : ∀ s e t o, step s e = some (t, o) → part t = next (part s) e) {s t : σ} {es : List ε}
    {os : List ω} (h : run step s es = some (t, os)) : part t = es.foldl next (part s) := by
  induction es generalizing s os with
  | nil =>
    cases h
    rfl
  | cons e es ih =>
    obtain ⟨u, o, os', he, hrest, rfl⟩ := run_cons h
    rw [List.foldl_cons, ← hstep s e u o he]
    exact ih hrest

/- The answers of a run, each with the number of the event that gave it. -/
def answersFrom (answers : ω → List κ) : Nat → List ω → List (Nat × κ)
  | _, [] => []
  | j, o :: os => (answers o).map (fun k => (j, k)) ++ answersFrom answers (j + 1) os

theorem answersFrom_map (g : κ → α) (answers : ω → List κ) (j : Nat) (os : List ω) :
    answersFrom (fun o => (answers o).map g) j os =
      (answersFrom answers j os).map fun x => (x.1, g x.2) := by
  induction os generalizing j with
  | nil => rfl
  | cons o os ih =>
    rw [answersFrom, answersFrom, ih, List.map_append, List.map_map, List.map_map]
    rfl

theorem mem_answersFrom {answers : ω → List κ} {os : List ω} {j : Nat} {o : ω} {k : κ}
    (hj : os[j]? = some o) (hk : k ∈ answers o) (n : Nat) :
    (n + j, k) ∈ answersFrom answers n os := by
  induction os generalizing n j with
  | nil => cases hj
  | cons o' os ih =>
    rw [answersFrom, List.mem_append]
    cases j with
    | zero =>
      cases hj
      exact .inl (List.mem_map.mpr ⟨k, hk, rfl⟩)
    | succ j =>
      have hrest := ih hj (n + 1)
      rw [Nat.add_assoc, Nat.add_comm 1 j] at hrest
      exact .inr hrest

theorem of_mem_answersFrom {answers : ω → List κ} {os : List ω} {n : Nat} :
    ∀ x ∈ answersFrom answers n os, ∃ l o, x.1 = n + l ∧ os[l]? = some o ∧ x.2 ∈ answers o := by
  induction os generalizing n with
  | nil => exact fun x hx => by cases hx
  | cons o os ih =>
    intro x hx
    rw [answersFrom, List.mem_append] at hx
    obtain hx | hx := hx
    · obtain ⟨k, hk, rfl⟩ := List.mem_map.mp hx
      exact ⟨0, o, rfl, rfl, hk⟩
    · obtain ⟨l, o', hl, ho', hk⟩ := ih x hx
      exact ⟨l + 1, o', by omega, ho', hk⟩

theorem exists_of_forall₂ {R : α → β → Prop} {as : List α} {bs : List β}
    (h : List.Forall₂ R as bs) {a : α} (ha : a ∈ as) : ∃ b, R a b := by
  induction h with
  | nil => cases ha
  | cons hab _ ih =>
    cases ha with
    | head => exact ⟨_, hab⟩
    | tail _ ha => exact ih ha

theorem exists_forall₂_of_sublist {R : α → β → Prop} {as as' : List α} {bs : List β}
    (hs : as' <+ as) (h : List.Forall₂ R as bs) : ∃ bs', bs' <+ bs ∧ List.Forall₂ R as' bs' := by
  induction hs generalizing bs with
  | slnil =>
    cases h
    exact ⟨[], List.Sublist.refl [], .nil⟩
  | cons a _ ih =>
    cases h with
    | cons _ hrest =>
      obtain ⟨bs', hsub, hall⟩ := ih hrest
      exact ⟨bs', hsub.cons _, hall⟩
  | cons_cons a _ ih =>
    cases h with
    | cons hab hrest =>
      obtain ⟨bs', hsub, hall⟩ := ih hrest
      exact ⟨_ :: bs', hsub.cons_cons _, .cons hab hall⟩

/- A matching of a list restricts to every part of it, in any order. -/
theorem exists_forall₂_of_subperm {R : α → β → Prop} {as as' : List α} {bs : List β}
    (hs : as' <+~ as) (h : List.Forall₂ R as bs) :
    ∃ bs', bs' <+~ bs ∧ List.Forall₂ R as' bs' := by
  obtain ⟨l, hperm, hsub⟩ := hs
  obtain ⟨bs₁, hsub₁, hall₁⟩ := exists_forall₂_of_sublist hsub h
  obtain ⟨bs₂, hall₂, hperm₂⟩ := List.perm_comp_forall₂ hperm.symm hall₁
  exact ⟨bs₂, hperm₂.subperm.trans hsub₁.subperm, hall₂⟩

/- The key k was asked for by event number i. -/
def AskedAt (asks : ε → Option κ) (es : List ε) (k : κ) (i : Nat) : Prop :=
  ∃ e, es[i]? = some e ∧ asks e = some k

theorem askedAt_lt {asks : ε → Option κ} {es : List ε} {k : κ} {i : Nat}
    (h : AskedAt asks es k i) : i < es.length := by
  obtain ⟨e, he, _⟩ := h
  exact (List.getElem?_eq_some_iff.mp he).1

theorem askedAt_append {asks : ε → Option κ} {es : List ε} (more : List ε) {k : κ} {i : Nat}
    (h : AskedAt asks es k i) : AskedAt asks (es ++ more) k i := by
  have hlt := askedAt_lt h
  obtain ⟨e, he, ha⟩ := h
  exact ⟨e, by rw [List.getElem?_append_left hlt, he], ha⟩

theorem forall₂_append_left {R : α → β → Prop} {as as' : List α} {bs : List β}
    (h : List.Forall₂ R (as ++ as') bs) :
    ∃ c d, bs = c ++ d ∧ List.Forall₂ R as c ∧ List.Forall₂ R as' d := by
  induction as generalizing bs with
  | nil => exact ⟨[], bs, rfl, .nil, h⟩
  | cons a as ih =>
    cases h with
    | cons hab hrest =>
      obtain ⟨c, d, rfl, hc, hd⟩ := ih hrest
      exact ⟨_ :: c, d, rfl, .cons hab hc, hd⟩

theorem nodup_of_subperm {as bs : List α} (h : as <+~ bs) (hb : bs.Nodup) : as.Nodup := by
  obtain ⟨l, hperm, hsub⟩ := h
  exact hperm.nodup_iff.mp (hb.sublist hsub)

/- The books after the events past: done are the events already matched with answers, used
   those matched with what is pending. -/
structure Ledger (asks : ε → Option κ) (past : List ε) (pending : List κ) (done used : List Nat) :
    Prop where
  matched : List.Forall₂ (AskedAt asks past) pending used
  bound : ∀ i ∈ done ++ used, i < past.length
  nodup : (done ++ used).Nodup

section Books
variable {asks : ε → Option κ} {past : List ε} {pending pending' answers : List κ}
  {done used : List Nat}

/- The event e enters the books under its number, if it asks. -/
theorem Ledger.enter (h : Ledger asks past pending done used) (e : ε) :
    Ledger asks (past ++ [e]) ((asks e).toList ++ pending) done
      ((asks e).toList.map (fun _ => past.length) ++ used) := by
  have hold := h.matched.imp fun k i hk => askedAt_append [e] hk
  have hbound : ∀ i ∈ done ++ used, i < (past ++ [e]).length := by
    intro i hi
    have hlt := h.bound i hi
    rw [List.length_append, List.length_singleton]
    omega
  cases ha : asks e with
  | none => exact ⟨hold, hbound, h.nodup⟩
  | some k =>
    have hnew : past.length ∉ done ++ used := fun hmem => Nat.lt_irrefl _ (h.bound _ hmem)
    have hperm : done ++ ([past.length] ++ used) ~ past.length :: (done ++ used) :=
      List.perm_middle
    refine ⟨.cons ⟨e, by simp, ha⟩ hold, ?_, hperm.nodup_iff.mpr (List.nodup_cons.mpr ⟨hnew, h.nodup⟩)⟩
    intro i hi
    obtain rfl | hi := List.mem_cons.mp (hperm.mem_iff.mp hi)
    · simp
    · exact hbound i hi

/- Part of what is pending is answered, part stays, the rest is forgotten. -/
theorem Ledger.settle (h : Ledger asks past pending done used)
    (hsub : answers ++ pending' <+~ pending) :
    ∃ now used', List.Forall₂ (AskedAt asks past) answers now ∧
      Ledger asks past pending' (done ++ now) used' := by
  obtain ⟨bs, hbs, hall⟩ := exists_forall₂_of_subperm hsub h.matched
  obtain ⟨now, used', rfl, hnow, hused'⟩ := forall₂_append_left hall
  have hdone : done ++ (now ++ used') <+~ done ++ used := (List.subperm_append_left done).mpr hbs
  refine ⟨now, used', hnow, hused', ?_, ?_⟩
  · intro i hi
    rw [List.append_assoc] at hi
    exact h.bound i (hdone.subset hi)
  · rw [List.append_assoc]
    exact nodup_of_subperm hdone h.nodup

end Books

section Matching
variable {step : σ → ε → Option (σ × ω)} {asks : ε → Option κ} {answers : ω → List κ}
  {pending : σ → List κ} {inv : σ → Prop}

/- The induction is on the events still to come; past are those before. -/
theorem answers_matched_from (hinv : ∀ s e t o, inv s → step s e = some (t, o) → inv t)
    (hstep : ∀ s e t o, inv s → step s e = some (t, o) →
      answers o ++ pending t <+~ (asks e).toList ++ pending s)
    (past : List ε) {s t : σ} {es : List ε} {os : List ω} (hs : inv s)
    (h : run step s es = some (t, os)) {done used : List Nat}
    (hbooks : Ledger asks past (pending s) done used) :
    ∃ matched, (done ++ matched).Nodup ∧
      List.Forall₂ (fun (a : Nat × κ) i => i ≤ a.1 ∧ AskedAt asks (past ++ es) a.2 i)
        (answersFrom answers past.length os) matched := by
  induction es generalizing past s os done used with
  | nil =>
    cases h
    refine ⟨[], ?_, .nil⟩
    rw [List.append_nil]
    exact (List.nodup_append.mp hbooks.nodup).1
  | cons e es ih =>
    obtain ⟨u, o, os', he, hrest, rfl⟩ := run_cons h
    obtain ⟨now, used', hnow, hbooks'⟩ := (hbooks.enter e).settle (hstep s e u o hs he)
    obtain ⟨matched, hnodup, hmatched⟩ := ih (past ++ [e]) (hinv s e u o hs he) hrest hbooks'
    refine ⟨now ++ matched, by rwa [← List.append_assoc], ?_⟩
    rw [List.length_append, List.length_singleton, List.append_assoc] at hmatched
    refine List.rel_append ?_ hmatched
    rw [List.forall₂_map_left_iff]
    refine hnow.imp fun k i hk => ⟨?_, ?_⟩
    · have hlt := askedAt_lt hk
      rw [List.length_append, List.length_singleton] at hlt
      exact Nat.lt_succ_iff.mp hlt
    · have happ := askedAt_append es hk
      rwa [List.append_assoc] at happ

/-- The ledger rule. If every step only answers or keeps pending what was pending before
or is asked by its own event, then the answers of a run can be matched with pairwise different
events, none of them later than its answer. -/
theorem answers_matched_now (hinv : ∀ s e t o, inv s → step s e = some (t, o) → inv t)
    (hstep : ∀ s e t o, inv s → step s e = some (t, o) →
      answers o ++ pending t <+~ (asks e).toList ++ pending s)
    {s t : σ} {es : List ε} {os : List ω} (hs : inv s) (hp : pending s = [])
    (h : run step s es = some (t, os)) :
    ∃ matched : List Nat, matched.Nodup ∧
      List.Forall₂ (fun (a : Nat × κ) i => i ≤ a.1 ∧ AskedAt asks es a.2 i)
        (answersFrom answers 0 os) matched := by
  have hbooks : Ledger asks [] (pending s) [] [] := by
    rw [hp]
    exact ⟨.nil, by simp, List.nodup_nil⟩
  exact answers_matched_from hinv hstep [] hs h hbooks

/-- If moreover no event asks and answers at once, they are matched with earlier events. -/
theorem answers_matched (hinv : ∀ s e t o, inv s → step s e = some (t, o) → inv t)
    (hask : ∀ s e t o, step s e = some (t, o) → answers o = [] ∨ asks e = none)
    (hstep : ∀ s e t o, inv s → step s e = some (t, o) →
      answers o ++ pending t <+~ (asks e).toList ++ pending s)
    {s t : σ} {es : List ε} {os : List ω} (hs : inv s) (hp : pending s = [])
    (h : run step s es = some (t, os)) :
    ∃ matched : List Nat, matched.Nodup ∧
      List.Forall₂ (fun (a : Nat × κ) i => i < a.1 ∧ AskedAt asks es a.2 i)
        (answersFrom answers 0 os) matched := by
  obtain ⟨matched, hnodup, hall⟩ := answers_matched_now hinv hstep hs hp h
  have hboth := (List.forall₂_and_left _ _).mpr ⟨of_mem_answersFrom, hall⟩
  refine ⟨matched, hnodup, hboth.imp ?_⟩
  rintro ⟨j, k⟩ i ⟨⟨l, o, hj, ho, hk⟩, hle, hasked⟩
  obtain ⟨e, u, v, he, hst⟩ := run_output h ho
  have hnone : asks e = none := by
    obtain hnil | hnone := hask u e v o hst
    · rw [hnil] at hk
      cases hk
    · exact hnone
  have hne : i ≠ j := by
    rintro rfl
    obtain ⟨e', he', ha⟩ := hasked
    obtain rfl : i = l := hj.trans (Nat.zero_add l)
    rw [he] at he'
    cases he'
    rw [hnone] at ha
    cases ha
  exact ⟨Nat.lt_of_le_of_ne hle hne, hasked⟩

end Matching

/-- The waiting rule. If every step goes on waiting or serves, and a step on a call always serves,
then a run with a call in it serves at some step. -/
theorem run_serves {step : σ → ε → Option (σ × ω)} {waits : σ → Prop} {ok calls : ε → Prop}
    {serves : ε → ω → Prop} (hkeep : ∀ s e t o, waits s → ok e → step s e = some (t, o) →
      waits t ∨ serves e o)
    (hcall : ∀ s e t o, waits s → calls e → step s e = some (t, o) → serves e o) {s t : σ}
    {es : List ε} {os : List ω} (hs : waits s) (hok : ∀ e ∈ es, ok e)
    (h : run step s es = some (t, os)) (hcalls : ∃ e ∈ es, calls e) :
    ∃ (j : Nat) (e : ε) (o : ω), es[j]? = some e ∧ os[j]? = some o ∧ serves e o := by
  induction es generalizing s os with
  | nil =>
    obtain ⟨e, he, _⟩ := hcalls
    cases he
  | cons e es ih =>
    obtain ⟨u, o, os', he, hrest, rfl⟩ := run_cons h
    rw [List.forall_mem_cons] at hok
    obtain ⟨c, hc, hcall'⟩ := hcalls
    obtain rfl | hc := List.mem_cons.mp hc
    · exact ⟨0, c, o, rfl, rfl, hcall s c u o hs hcall' he⟩
    · obtain hu | ho := hkeep s e u o hs hok.1 he
      · obtain ⟨j, e', o', hj, ho', hserves⟩ := ih hu hok.2 hrest ⟨c, hc, hcall'⟩
        exact ⟨j + 1, e', o', hj, ho', hserves⟩
      · exact ⟨0, e, o, rfl, rfl, ho⟩

/- Different events of a kind are not more than there are. -/
theorem length_le_countP {p : ε → Bool} {es : List ε} {is : List Nat} (hn : is.Nodup)
    (h : ∀ i ∈ is, ∃ e, es[i]? = some e ∧ p e = true) : is.length ≤ es.countP p := by
  rw [← List.length_findIdxs (s := 0)]
  refine (List.subperm_of_subset hn fun i hi => ?_).length_le
  obtain ⟨e, he, hp⟩ := h i hi
  obtain ⟨hlt, rfl⟩ := List.getElem?_eq_some_iff.mp he
  exact List.mem_findIdxs_iff_exists_getElem_pos.mpr ⟨hlt, hp⟩

/- The sizes of all outputs together. -/
def total (size : ω → Nat) : List ω → Nat
  | [] => 0
  | o :: os => size o + total size os

theorem total_add (f g : ω → Nat) (os : List ω) :
    total (fun o => f o + g o) os = total f os + total g os := by
  induction os with
  | nil => rfl
  | cons o os ih =>
    rw [total, total, total, ih]
    omega

/-- If every step gives at most k items for an event of the kind and none otherwise, a run gives
at most k for each such event. -/
theorem total_le_countP {step : σ → ε → Option (σ × ω)} {inv : σ → Prop}
    (hinv : ∀ s e t o, inv s → step s e = some (t, o) → inv t) {p : ε → Bool} {size : ω → Nat}
    {k : Nat} (hsize : ∀ s e t o, inv s → step s e = some (t, o) → size o ≤ if p e then k else 0)
    {s t : σ} {es : List ε} {os : List ω} (hs : inv s) (h : run step s es = some (t, os)) :
    total size os ≤ k * es.countP p := by
  induction es generalizing s os with
  | nil =>
    cases h
    exact Nat.zero_le _
  | cons e es ih =>
    obtain ⟨u, o, os', he, hrest, rfl⟩ := run_cons h
    have hfirst := hsize s e u o hs he
    have htail := ih (hinv s e u o hs he) hrest
    rw [total, List.countP_cons, Nat.mul_add]
    by_cases hp : p e = true
    · rw [if_pos hp] at hfirst ⊢
      omega
    · rw [if_neg hp] at hfirst ⊢
      omega

theorem length_answersFrom {answers : ω → List κ} {os : List ω} (n : Nat) :
    (answersFrom answers n os).length = total (fun o => (answers o).length) os := by
  induction os generalizing n with
  | nil => rfl
  | cons o os ih => rw [answersFrom, List.length_append, List.length_map, ih, total]

theorem length_flatten (os : List (List κ)) : os.flatten.length = total List.length os := by
  induction os with
  | nil => rfl
  | cons o os ih => rw [List.flatten_cons, List.length_append, ih, total]

end DnsWrapper.Runs
