import Mathlib.Data.List.Basic

/-! Readers over a byte array with a cursor and a nominal size. An access past the
end of the array is a value of its own, so that a reader's footprint can be stated
by running it on a shorter array. -/
namespace DnsWrapper.ByteReader
variable {ε α β : Type}

inductive Stop (ε : Type) where
  | outOfRange
  | outOfFuel
  | failed (e : ε)
  deriving DecidableEq, Repr

/- The arguments are the array, its nominal size and the cursor. The nominal size
   may differ from the length of the array: nothing below assumes a relation. -/
structure Reader (ε α : Type) where
  run : List UInt8 → Nat → Nat → Except (Stop ε) (α × Nat)

instance : Monad (Reader ε) where
  pure a := ⟨fun _ _ p => .ok (a, p)⟩
  bind r f := ⟨fun buf n p => match r.run buf n p with
    | .ok (a, q) => (f a).run buf n q
    | .error e => .error e⟩

def fail (e : ε) : Reader ε α := ⟨fun _ _ _ => .error (.failed e)⟩
def exhausted : Reader ε α := ⟨fun _ _ _ => .error .outOfFuel⟩
def here : Reader ε Nat := ⟨fun _ _ p => .ok (p, p)⟩
def nominal : Reader ε Nat := ⟨fun _ n p => .ok (n, p)⟩
def seek (q : Nat) : Reader ε Unit := ⟨fun _ _ _ => .ok ((), q)⟩
def skip (k : Nat) : Reader ε Unit := ⟨fun _ _ p => .ok ((), p + k)⟩
def peek (i : Nat) : Reader ε UInt8 := ⟨fun buf _ p =>
  match buf[p + i]? with
  | some b => .ok (b, p)
  | none => .error .outOfRange⟩

def byte : Reader ε UInt8 := do
  let b ← peek 0
  skip 1
  pure b

def bytes : Nat → Reader ε (List UInt8)
  | 0 => pure []
  | k + 1 => do
    let b ← byte
    let bs ← bytes k
    pure (b :: bs)

/- Runs r i, r (i+1), ... and collects the results. -/
def each (r : Nat → Reader ε α) : Nat → Nat → Reader ε (List α)
  | _, 0 => pure []
  | i, k + 1 => do
    let a ← r i
    let as ← each r (i + 1) k
    pure (a :: as)

theorem pure_apply (a : α) (buf : List UInt8) (n p : Nat) :
    (pure a : Reader ε α).run buf n p = .ok (a, p) := rfl

theorem bind_apply (r : Reader ε α) (f : α → Reader ε β) (buf : List UInt8) (n p : Nat) :
    (r >>= f).run buf n p = match r.run buf n p with
      | .ok (a, q) => (f a).run buf n q
      | .error e => .error e := rfl

theorem bind_of_ok {r : Reader ε α} {f : α → Reader ε β} {buf : List UInt8} {n p q : Nat} {a : α}
    (h : r.run buf n p = .ok (a, q)) : (r >>= f).run buf n p = (f a).run buf n q := by
  rw [bind_apply, h]

theorem bind_of_error {r : Reader ε α} {f : α → Reader ε β} {buf : List UInt8} {n p : Nat}
    {e : Stop ε} (h : r.run buf n p = .error e) : (r >>= f).run buf n p = .error e := by
  rw [bind_apply, h]

theorem bind_eq_ok {r : Reader ε α} {f : α → Reader ε β} {buf : List UInt8} {n p : Nat}
    {x : β × Nat} :
    (r >>= f).run buf n p = .ok x ↔ ∃ a q, r.run buf n p = .ok (a, q) ∧ (f a).run buf n q = .ok x := by
  rw [bind_apply]
  cases r.run buf n p with
  | error e => simp
  | ok v => obtain ⟨a, q⟩ := v; simp

theorem bind_assoc_apply {γ : Type} (r : Reader ε α) (f : α → Reader ε β) (g : β → Reader ε γ)
    (buf : List UInt8) (n p : Nat) :
    (r >>= f >>= g).run buf n p = (r >>= fun a => f a >>= g).run buf n p := by
  simp only [bind_apply]
  cases r.run buf n p with
  | error e => rfl
  | ok v => rfl

theorem peek_ok {buf : List UInt8} {p i : Nat} (n : Nat) (h : p + i < buf.length) :
    (peek i : Reader ε UInt8).run buf n p = .ok (buf[p + i], p) := by
  simp [peek, h]

theorem peek_outOfRange {buf : List UInt8} {p i : Nat} (n : Nat) (h : buf.length ≤ p + i) :
    (peek i : Reader ε UInt8).run buf n p = .error .outOfRange := by
  simp [peek, h]

theorem byte_ok {buf : List UInt8} {p : Nat} (n : Nat) (h : p < buf.length) :
    (byte : Reader ε UInt8).run buf n p = .ok (buf[p], p + 1) := by
  rw [byte, bind_of_ok (peek_ok n (i := 0) h)]
  rfl

theorem bytes_ok (buf : List UInt8) (n : Nat) (k p : Nat) (h : p + k ≤ buf.length) :
    (bytes k : Reader ε (List UInt8)).run buf n p = .ok ((buf.drop p).take k, p + k) := by
  induction k generalizing p with
  | zero => simp [bytes, pure_apply]
  | succ k ih =>
    have hp : p < buf.length := by omega
    rw [bytes, bind_of_ok (byte_ok n hp), bind_of_ok (ih (p + 1) (by omega)), pure_apply]
    rw [List.drop_eq_getElem_cons hp, List.take_succ_cons]
    congr 2
    omega

/-- The result does not change when the array is continued, unless the run left it. -/
def Stable (r : Reader ε α) : Prop :=
  ∀ buf more n p, r.run buf n p ≠ .error .outOfRange → r.run (buf ++ more) n p = r.run buf n p

theorem stable_pure (a : α) : Stable (pure a : Reader ε α) := by
  intro buf more n p _
  rfl

theorem stable_bind {r : Reader ε α} {f : α → Reader ε β} (hr : Stable r)
    (hf : ∀ a, Stable (f a)) : Stable (r >>= f) := by
  intro buf more n p h
  cases he : r.run buf n p with
  | error e =>
    rw [bind_of_error he] at h ⊢
    have hs := hr buf more n p (by simpa [he] using h)
    rw [he] at hs
    rw [bind_of_error hs]
  | ok v =>
    obtain ⟨a, q⟩ := v
    have hs := hr buf more n p (by simp [he])
    rw [he] at hs
    rw [bind_of_ok he] at h ⊢
    rw [bind_of_ok hs]
    exact hf a buf more n q h

theorem stable_ite {c : Prop} [Decidable c] {r s : Reader ε α} (hr : Stable r) (hs : Stable s) :
    Stable (if c then r else s) := by
  split
  · exact hr
  · exact hs

theorem stable_fail (e : ε) : Stable (fail e : Reader ε α) := by
  intro buf more n p _
  rfl

theorem stable_exhausted : Stable (exhausted : Reader ε α) := by
  intro buf more n p _
  rfl

theorem stable_here : Stable (here : Reader ε Nat) := by
  intro buf more n p _
  rfl

theorem stable_nominal : Stable (nominal : Reader ε Nat) := by
  intro buf more n p _
  rfl

theorem stable_seek (q : Nat) : Stable (seek q : Reader ε Unit) := by
  intro buf more n p _
  rfl

theorem stable_skip (k : Nat) : Stable (skip k : Reader ε Unit) := by
  intro buf more n p _
  rfl

theorem stable_peek (i : Nat) : Stable (peek i : Reader ε UInt8) := by
  intro buf more n p h
  by_cases hp : p + i < buf.length
  · simp [peek, List.getElem?_append_left hp]
  · exact absurd (peek_outOfRange n (by omega)) h

theorem stable_byte : Stable (byte : Reader ε UInt8) :=
  stable_bind (stable_peek 0) fun _ => stable_bind (stable_skip 1) fun _ => stable_pure _

theorem stable_bytes (k : Nat) : Stable (bytes k : Reader ε (List UInt8)) := by
  induction k with
  | zero => exact stable_pure []
  | succ k ih => exact stable_bind stable_byte fun _ => stable_bind ih fun _ => stable_pure _

theorem stable_each {r : Nat → Reader ε α} (h : ∀ i, Stable (r i)) (i k : Nat) :
    Stable (each r i k) := by
  induction k generalizing i with
  | zero => exact stable_pure []
  | succ k ih => exact stable_bind (h i) fun _ => stable_bind (ih (i + 1)) fun _ => stable_pure _

theorem each_length {r : Nat → Reader ε α} {buf : List UInt8} {n i k p q : Nat} {as : List α}
    (h : (each r i k).run buf n p = .ok (as, q)) : as.length = k := by
  induction k generalizing i p as with
  | zero =>
    cases h
    rfl
  | succ k ih =>
    obtain ⟨a, q₁, _, h⟩ := bind_eq_ok.mp h
    obtain ⟨rest, q₂, hrest, h⟩ := bind_eq_ok.mp h
    cases h
    simp [ih hrest]

theorem each_forall {r : Nat → Reader ε α} {P : α → Prop} {buf : List UInt8} {n : Nat}
    (h : ∀ i p a q, (r i).run buf n p = .ok (a, q) → P a) {i k p q : Nat} {as : List α}
    (hrun : (each r i k).run buf n p = .ok (as, q)) : ∀ a ∈ as, P a := by
  induction k generalizing i p as with
  | zero =>
    cases hrun
    exact nofun
  | succ k ih =>
    obtain ⟨a, q₁, hfirst, hrun⟩ := bind_eq_ok.mp hrun
    obtain ⟨rest, q₂, hrest, hrun⟩ := bind_eq_ok.mp hrun
    cases hrun
    exact List.forall_mem_cons.mpr ⟨h i p a q₁ hfirst, ih hrest⟩

/- Readers that return more than others do, over the same bytes. -/
theorem each_lift {r : Nat → Reader ε α} {s : Nat → Reader ε β} {g : β → α} {buf : List UInt8}
    {n : Nat} (h : ∀ i p a q, (r i).run buf n p = .ok (a, q) →
      ∃ b, (s i).run buf n p = .ok (b, q) ∧ g b = a) {i k p q : Nat} {as : List α}
    (hrun : (each r i k).run buf n p = .ok (as, q)) :
    ∃ bs, (each s i k).run buf n p = .ok (bs, q) ∧ bs.map g = as := by
  induction k generalizing i p as with
  | zero =>
    cases hrun
    exact ⟨[], rfl, rfl⟩
  | succ k ih =>
    obtain ⟨a, q₁, hfirst, hrun⟩ := bind_eq_ok.mp hrun
    obtain ⟨rest, q₂, hrest, hrun⟩ := bind_eq_ok.mp hrun
    cases hrun
    obtain ⟨b, hb, rfl⟩ := h i p a q₁ hfirst
    obtain ⟨bs, hbs, rfl⟩ := ih hrest
    refine ⟨b :: bs, ?_, rfl⟩
    rw [each, bind_of_ok hb, bind_of_ok hbs, pure_apply]

/- The run ended inside the first n bytes: with the cursor there, or with an error
   of the reader's own. -/
def Inside (n : Nat) : Except (Stop ε) (α × Nat) → Prop
  | .ok (_, q) => q ≤ n
  | .error e => ∃ c, e = .failed c

/-- On an array that ends at its nominal size every run stays inside it. -/
def Within (r : Reader ε α) : Prop :=
  ∀ buf p, p ≤ buf.length → Inside buf.length (r.run buf buf.length p)

theorem within_pure (a : α) : Within (pure a : Reader ε α) := by
  intro buf p hp
  exact hp

theorem within_bind {r : Reader ε α} {f : α → Reader ε β} (hr : Within r)
    (hf : ∀ a, Within (f a)) : Within (r >>= f) := by
  intro buf p hp
  have h := hr buf p hp
  cases he : r.run buf buf.length p with
  | error e =>
    rw [he] at h
    rw [bind_of_error he]
    exact h
  | ok v =>
    obtain ⟨a, q⟩ := v
    rw [he] at h
    rw [bind_of_ok he]
    exact hf a buf q h

theorem within_each {r : Nat → Reader ε α} (h : ∀ i, Within (r i)) (i k : Nat) :
    Within (each r i k) := by
  induction k generalizing i with
  | zero => exact within_pure []
  | succ k ih => exact within_bind (h i) fun _ => within_bind (ih (i + 1)) fun _ => within_pure _

/-- Every run that succeeds moves the cursor by k. -/
def Advances (r : Reader ε α) (k : Nat) : Prop :=
  ∀ buf n p a q, r.run buf n p = .ok (a, q) → q = p + k

theorem advances_pure (a : α) : Advances (pure a : Reader ε α) 0 := by
  intro buf n p b q h
  cases h
  rfl

theorem advances_bind {r : Reader ε α} {f : α → Reader ε β} {j k : Nat} (hr : Advances r j)
    (hf : ∀ a, Advances (f a) k) : Advances (r >>= f) (j + k) := by
  intro buf n p b q h
  obtain ⟨a, q₁, hfirst, hrest⟩ := bind_eq_ok.mp h
  rw [hf a buf n q₁ b q hrest, hr buf n p a q₁ hfirst, Nat.add_assoc]

theorem advances_ite {c : Prop} [Decidable c] {r s : Reader ε α} {k : Nat} (hr : Advances r k)
    (hs : Advances s k) : Advances (if c then r else s) k := by
  split
  · exact hr
  · exact hs

theorem advances_fail (e : ε) (k : Nat) : Advances (fail e : Reader ε α) k := by
  intro buf n p a q h
  cases h

theorem advances_here : Advances (here : Reader ε Nat) 0 := by
  intro buf n p a q h
  cases h
  rfl

theorem advances_nominal : Advances (nominal : Reader ε Nat) 0 := by
  intro buf n p a q h
  cases h
  rfl

theorem advances_skip (k : Nat) : Advances (skip k : Reader ε Unit) k := by
  intro buf n p a q h
  cases h
  rfl

theorem advances_peek (i : Nat) : Advances (peek i : Reader ε UInt8) 0 := by
  intro buf n p a q h
  by_cases hi : p + i < buf.length
  · rw [peek_ok n hi] at h
    cases h
    rfl
  · rw [peek_outOfRange n (by omega)] at h
    cases h

theorem advances_byte : Advances (byte : Reader ε UInt8) 1 :=
  advances_bind (advances_peek 0) fun _ => advances_bind (advances_skip 1) fun _ => advances_pure _

theorem advances_each {r : Nat → Reader ε α} {j : Nat} (h : ∀ i, Advances (r i) j) (i k : Nat) :
    Advances (each r i k) (j * k) := by
  induction k generalizing i with
  | zero => exact advances_pure []
  | succ k ih =>
    rw [Nat.mul_succ, Nat.add_comm (j * k)]
    exact advances_bind (h i) fun _ => advances_bind (ih (i + 1)) fun _ => advances_pure _

theorem advances_bytes (k : Nat) : Advances (bytes k : Reader ε (List UInt8)) k := by
  induction k with
  | zero => exact advances_pure []
  | succ k ih =>
    have hstep : Advances (bytes (k + 1) : Reader ε (List UInt8)) (1 + k) :=
      advances_bind advances_byte fun _ => advances_bind ih fun _ => advances_pure _
    rwa [Nat.add_comm 1 k] at hstep

/-- No run is given up. -/
def Conclusive (r : Reader ε α) : Prop :=
  ∀ buf n p, r.run buf n p ≠ .error .outOfFuel

theorem conclusive_pure (a : α) : Conclusive (pure a : Reader ε α) := by
  intro buf n p h
  cases h

theorem conclusive_bind {r : Reader ε α} {f : α → Reader ε β} (hr : Conclusive r)
    (hf : ∀ a, Conclusive (f a)) : Conclusive (r >>= f) := by
  intro buf n p h
  cases he : r.run buf n p with
  | error e =>
    rw [bind_of_error he] at h
    cases h
    exact hr buf n p he
  | ok v =>
    obtain ⟨a, q⟩ := v
    rw [bind_of_ok he] at h
    exact hf a buf n q h

theorem conclusive_ite {c : Prop} [Decidable c] {r s : Reader ε α} (hr : Conclusive r)
    (hs : Conclusive s) : Conclusive (if c then r else s) := by
  split
  · exact hr
  · exact hs

theorem conclusive_fail (e : ε) : Conclusive (fail e : Reader ε α) := by
  intro buf n p h
  cases h

theorem conclusive_here : Conclusive (here : Reader ε Nat) := by
  intro buf n p h
  cases h

theorem conclusive_nominal : Conclusive (nominal : Reader ε Nat) := by
  intro buf n p h
  cases h

theorem conclusive_seek (q : Nat) : Conclusive (seek q : Reader ε Unit) := by
  intro buf n p h
  cases h

theorem conclusive_skip (k : Nat) : Conclusive (skip k : Reader ε Unit) := by
  intro buf n p h
  cases h

theorem conclusive_peek (i : Nat) : Conclusive (peek i : Reader ε UInt8) := by
  intro buf n p h
  by_cases hi : p + i < buf.length
  · rw [peek_ok n hi] at h
    cases h
  · rw [peek_outOfRange n (by omega)] at h
    cases h

theorem conclusive_byte : Conclusive (byte : Reader ε UInt8) :=
  conclusive_bind (conclusive_peek 0) fun _ => conclusive_bind (conclusive_skip 1) fun _ =>
    conclusive_pure _

theorem conclusive_bytes (k : Nat) : Conclusive (bytes k : Reader ε (List UInt8)) := by
  induction k with
  | zero => exact conclusive_pure []
  | succ k ih =>
    exact conclusive_bind conclusive_byte fun _ => conclusive_bind ih fun _ => conclusive_pure _

/-- On an array that ends at its nominal size the reader does not leave it, if k bytes are
ahead of the cursor; with k = 0 from wherever the cursor is. -/
def Safe (k : Nat) (r : Reader ε α) : Prop :=
  ∀ buf p, (0 < k → p + k ≤ buf.length) → r.run buf buf.length p ≠ .error .outOfRange

theorem safe_mono {j k : Nat} {r : Reader ε α} (h : Safe j r) (hjk : j ≤ k) : Safe k r := by
  intro buf p hp
  apply h buf p
  intro hj
  have hfit := hp (by omega)
  omega

theorem safe_pure (k : Nat) (a : α) : Safe k (pure a : Reader ε α) := by
  intro buf p _ h
  cases h

theorem safe_fail (k : Nat) (e : ε) : Safe k (fail e : Reader ε α) := by
  intro buf p _ h
  cases h

theorem safe_skip (k j : Nat) : Safe k (skip j : Reader ε Unit) := by
  intro buf p _ h
  cases h

theorem safe_peek (i : Nat) : Safe (i + 1) (peek i : Reader ε UInt8) := by
  intro buf p hp h
  have hfit := hp (by omega)
  rw [peek_ok _ (by omega)] at h
  cases h

theorem safe_ite {c : Prop} [Decidable c] {k : Nat} {r s : Reader ε α} (hr : Safe k r)
    (hs : Safe k s) : Safe k (if c then r else s) := by
  split
  · exact hr
  · exact hs

/- What follows a step of j bytes has k of them left. -/
theorem safe_bind {r : Reader ε α} {f : α → Reader ε β} {j k : Nat} (hr : Safe (j + k) r)
    (hj : Advances r j) (hf : ∀ a, Safe k (f a)) : Safe (j + k) (r >>= f) := by
  intro buf p hp h
  cases he : r.run buf buf.length p with
  | error e =>
    rw [bind_of_error he] at h
    cases h
    exact hr buf p hp he
  | ok v =>
    obtain ⟨a, q⟩ := v
    rw [bind_of_ok he] at h
    refine hf a buf q ?_ h
    intro hk
    rw [hj _ _ _ _ _ he]
    have hfit := hp (by omega)
    omega

/- What follows needs no bytes: it may start anywhere. -/
theorem safe_then {r : Reader ε α} {f : α → Reader ε β} {k : Nat} (hr : Safe k r)
    (hf : ∀ a, Safe 0 (f a)) : Safe k (r >>= f) := by
  intro buf p hp h
  cases he : r.run buf buf.length p with
  | error e =>
    rw [bind_of_error he] at h
    cases h
    exact hr buf p hp he
  | ok v =>
    obtain ⟨a, q⟩ := v
    rw [bind_of_ok he] at h
    exact hf a buf q nofun h

theorem safe_byte : Safe 1 (byte : Reader ε UInt8) :=
  safe_then (safe_peek 0) fun _ => safe_then (safe_skip 0 1) fun _ => safe_pure 0 _

/-- Started on the bytes bs, wherever they stand and whatever follows them, the
reader consumes exactly these and returns a. -/
def Yields (r : Reader ε α) (bs : List UInt8) (a : α) : Prop :=
  ∀ pre post n, pre.length + bs.length ≤ n →
    r.run (pre ++ bs ++ post) n pre.length = .ok (a, pre.length + bs.length)

theorem yields_pure (a : α) : Yields (pure a : Reader ε α) [] a := by
  intro pre post n _
  rfl

theorem yields_bind {r : Reader ε α} {f : α → Reader ε β} {bs cs : List UInt8} {a : α} {b : β}
    (hr : Yields r bs a) (hf : Yields (f a) cs b) : Yields (r >>= f) (bs ++ cs) b := by
  intro pre post n h
  simp only [List.length_append] at h ⊢
  have h₁ := hr pre (cs ++ post) n (by omega)
  have h₂ := hf (pre ++ bs) post n (by simp only [List.length_append]; omega)
  have he : pre ++ (bs ++ cs) ++ post = pre ++ bs ++ (cs ++ post) := by simp
  rw [he, bind_of_ok h₁]
  simpa [List.append_assoc, Nat.add_assoc] using h₂

theorem yields_map {r : Reader ε α} {bs : List UInt8} {a : α} (g : α → β) (h : Yields r bs a) :
    Yields (do let a ← r; pure (g a) : Reader ε β) bs (g a) := by
  have hm := yields_bind (f := fun a => pure (g a)) h (yields_pure (g a))
  rwa [List.append_nil] at hm

theorem yields_byte (b : UInt8) : Yields (byte : Reader ε UInt8) [b] b := by
  intro pre post n _
  have hlen : pre.length < (pre ++ [b] ++ post).length := by simp
  rw [byte_ok n hlen]
  simp

theorem yields_skip {k : Nat} {bs : List UInt8} (h : bs.length = k) :
    Yields (skip k : Reader ε Unit) bs () := by
  intro pre post n _
  rw [h]
  rfl

/- Looking at the byte ahead takes nothing. -/
theorem yields_peek {f : UInt8 → Reader ε α} {b : UInt8} {bs : List UInt8} {a : α}
    (h : Yields (f b) (b :: bs) a) : Yields (peek 0 >>= f) (b :: bs) a := by
  intro pre post n hn
  have hlen : pre.length + 0 < (pre ++ b :: bs ++ post).length := by simp
  rw [bind_of_ok (peek_ok n hlen)]
  simpa using h pre post n hn

theorem yields_each {r : Nat → Reader ε α} {enc : α → List UInt8} (as : List α)
    (h : ∀ i, ∀ a ∈ as, Yields (r i) (enc a) a) (i : Nat) :
    Yields (each r i as.length) (as.flatMap enc) as := by
  induction as generalizing i with
  | nil => exact yields_pure []
  | cons a as ih =>
    have hrest := ih (fun j b hb => h j b (List.mem_cons_of_mem a hb)) (i + 1)
    exact yields_bind (h i a List.mem_cons_self) (yields_map _ hrest)

/-- On an array that ends at its nominal size the reader succeeds, and Q holds of its value
and of the cursor. The rules below compute the condition on the bytes from the end of a
reader to its start. -/
def Ends (d : List UInt8) (p : Nat) (r : Reader ε α) (Q : α → Nat → Prop) : Prop :=
  ∃ a q, r.run d d.length p = .ok (a, q) ∧ Q a q

section Ends
variable {d : List UInt8} {p : Nat}

theorem ends_of_ok {r : Reader ε α} {Q : α → Nat → Prop} {a : α} {q : Nat}
    (h : r.run d d.length p = .ok (a, q)) : Ends d p r Q ↔ Q a q := by
  constructor
  · rintro ⟨b, q', hrun, hQ⟩
    rw [h] at hrun
    cases hrun
    exact hQ
  · intro hQ
    exact ⟨a, q, h, hQ⟩

theorem not_ends_of_error {r : Reader ε α} {Q : α → Nat → Prop} {e : Stop ε}
    (h : r.run d d.length p = .error e) : ¬ Ends d p r Q := by
  rintro ⟨a, q, hrun, _⟩
  rw [h] at hrun
  cases hrun

@[simp] theorem ends_pure {a : α} {Q : α → Nat → Prop} :
    Ends d p (pure a : Reader ε α) Q ↔ Q a p := ends_of_ok rfl

@[simp] theorem ends_fail {e : ε} {Q : α → Nat → Prop} :
    Ends d p (fail e : Reader ε α) Q ↔ False := iff_of_false (not_ends_of_error rfl) id

@[simp] theorem ends_skip {k : Nat} {Q : Unit → Nat → Prop} :
    Ends d p (skip k : Reader ε Unit) Q ↔ Q () (p + k) := ends_of_ok rfl

@[simp] theorem ends_bind {r : Reader ε α} {f : α → Reader ε β} {Q : β → Nat → Prop} :
    Ends d p (r >>= f) Q ↔ Ends d p r fun a q => Ends d q (f a) Q := by
  constructor
  · rintro ⟨b, q, hrun, hQ⟩
    obtain ⟨a, q', hr, hf⟩ := bind_eq_ok.mp hrun
    exact ⟨a, q', hr, b, q, hf, hQ⟩
  · rintro ⟨a, q', hr, b, q, hf, hQ⟩
    exact ⟨b, q, bind_eq_ok.mpr ⟨a, q', hr, hf⟩, hQ⟩

@[simp] theorem ends_ite {c : Prop} [Decidable c] {r s : Reader ε α} {Q : α → Nat → Prop} :
    Ends d p (if c then r else s) Q ↔ if c then Ends d p r Q else Ends d p s Q := by
  split <;> rfl

@[simp] theorem ends_peek {i : Nat} {Q : UInt8 → Nat → Prop} :
    Ends d p (peek i : Reader ε UInt8) Q ↔ p + i < d.length ∧ Q (d.getD (p + i) 0) p := by
  by_cases h : p + i < d.length
  · have hget : d.getD (p + i) 0 = d[p + i] := by simp [h]
    rw [ends_of_ok (peek_ok d.length h), hget]
    exact (and_iff_right h).symm
  · exact iff_of_false (not_ends_of_error (peek_outOfRange d.length (by omega))) fun hQ => h hQ.1

end Ends

end DnsWrapper.ByteReader
