import Mathlib.Data.List.Induction

/-! Input taken in items and worked off in blocks of one length: a buffer collects the items, and
a full buffer is worked off. -/
namespace DnsWrapper.BlockBuffer
variable {α σ : Type}

/- The items that wait, and the state after the blocks before them. -/
structure Buffer (α σ : Type) where
  front : List α
  state : σ

def take (n : Nat) (work : σ → List α → σ) (b : Buffer α σ) (a : α) : Buffer α σ :=
  if (b.front ++ [a]).length = n then ⟨[], work b.state (b.front ++ [a])⟩
  else ⟨b.front ++ [a], b.state⟩

/- The blocks bs are the input up to what waits, and all of them were worked off. -/
structure Worked (n : Nat) (work : σ → List α → σ) (s : σ) (input : List α) (bs : List (List α))
    (b : Buffer α σ) : Prop where
  blocks : ∀ x ∈ bs, x.length = n
  input : bs.flatten ++ b.front = input
  room : b.front.length < n
  state : b.state = bs.foldl work s

theorem worked_start {n : Nat} (hn : 0 < n) (work : σ → List α → σ) (s : σ) :
    Worked n work s [] [] ⟨[], s⟩ := ⟨nofun, rfl, hn, rfl⟩

theorem worked_take {n : Nat} {work : σ → List α → σ} {s : σ} {input : List α}
    {bs : List (List α)} {b : Buffer α σ} (h : Worked n work s input bs b) (a : α) :
    ∃ bs', Worked n work s (input ++ [a]) bs' (take n work b a) := by
  have hin : bs.flatten ++ (b.front ++ [a]) = input ++ [a] := by
    rw [← List.append_assoc, h.input]
  rw [take]
  by_cases hfull : (b.front ++ [a]).length = n
  · rw [if_pos hfull]
    refine ⟨bs ++ [b.front ++ [a]], ?_, ?_, ?_, ?_⟩
    · rw [List.forall_mem_append, List.forall_mem_singleton]
      exact ⟨h.blocks, hfull⟩
    · rw [List.flatten_append, List.flatten_singleton, List.append_nil, hin]
    · rw [List.length_append, List.length_singleton] at hfull
      exact Nat.lt_of_lt_of_eq (Nat.succ_pos _) hfull
    · rw [List.foldl_append, ← h.state]
      rfl
  · rw [if_neg hfull]
    refine ⟨bs, h.blocks, hin, ?_, h.state⟩
    have hroom := h.room
    rw [List.length_append, List.length_singleton] at hfull ⊢
    omega

/-- However long the input, what waits is its rest behind whole blocks. -/
theorem worked_foldl {n : Nat} (hn : 0 < n) (work : σ → List α → σ) (s : σ) (input : List α) :
    ∃ bs, Worked n work s input bs (input.foldl (take n work) ⟨[], s⟩) := by
  induction input using List.reverseRecOn with
  | nil => exact ⟨[], worked_start hn work s⟩
  | append_singleton input a ih =>
    obtain ⟨bs, h⟩ := ih
    rw [List.foldl_append]
    exact worked_take h a

theorem length_flatten_blocks {n : Nat} {bs : List (List α)} (h : ∀ x ∈ bs, x.length = n) :
    bs.flatten.length = n * bs.length := by
  induction bs with
  | nil => rfl
  | cons b bs ih =>
    rw [List.forall_mem_cons] at h
    rw [List.flatten_cons, List.length_append, h.1, ih h.2, List.length_cons, Nat.mul_succ,
      Nat.add_comm]

/- An input is cut into blocks in one way only. -/
theorem blocks_unique {n : Nat} (hn : 0 < n) {bs bs' : List (List α)} (h : ∀ x ∈ bs, x.length = n)
    (h' : ∀ x ∈ bs', x.length = n) (heq : bs.flatten = bs'.flatten) : bs = bs' := by
  have hlen : bs.length = bs'.length := by
    have hall := congrArg List.length heq
    rw [length_flatten_blocks h, length_flatten_blocks h'] at hall
    exact Nat.eq_of_mul_eq_mul_left hn hall
  induction bs generalizing bs' with
  | nil => exact (List.length_eq_zero_iff.mp hlen.symm).symm
  | cons b bs ih =>
    cases bs' with
    | nil => cases hlen
    | cons b' bs' =>
      rw [List.forall_mem_cons] at h h'
      rw [List.flatten_cons, List.flatten_cons] at heq
      obtain ⟨rfl, hrest⟩ := List.append_inj heq (h.1.trans h'.1.symm)
      rw [ih h.2 h'.2 hrest (Nat.succ.inj hlen)]

end DnsWrapper.BlockBuffer
