import DnsWrapper.DnsQuestion
import DnsWrapper.Turns

/-! The loop of ReadLabel turn by turn, for any array, any nominal size and any cursor. Each
turn uses up one of the five jumps or, with as many jumps left, brings the cursor nearer to
the nominal size; so the loop ends, and never well once it has followed five pointers. -/
namespace DnsWrapper.Dns
open ByteReader ByteWord NetCommon Turns

/- The loop between two turns: the length byte read last, the locals and the cursor. -/
structure LabelPoint where
  c : UInt8
  st : LabelState
  pos : Nat

def LabelPoint.pointer (s : LabelPoint) : Prop := s.c &&& 0xc0 = 0xc0

def LabelPoint.goesOn (s : LabelPoint) : Prop := s.c ≠ 0 ∧ s.st.jumps < maxJumps

instance (s : LabelPoint) : Decidable s.goesOn := inferInstanceAs (Decidable (_ ∧ _))

/- The body of the loop: it leaves the next length byte and the locals. -/
def labelBody (c : UInt8) (st : LabelState) : Reader Code (UInt8 × LabelState) :=
  if c &&& 0xc0 = 0xc0 then do
    let pos ← followPointer c
    let c' ← vreadU8
    pure (c', { st with jumps := st.jumps + 1, resume := pos })
  else if c &&& 0x40 = 0x40 ∨ c &&& 0x80 = 0x80 then fail eNotImp
  else do
    let label ← takeLabel c
    let c' ← vreadU8
    pure (c', { st with out := st.out ++ label ++ [dot] })

def labelTurn (d : List UInt8) (n : Nat) (s : LabelPoint) :
    Turn LabelPoint (Except (Stop Code) (LabelState × Nat)) :=
  if s.goesOn then
    match (labelBody s.c s.st).run d n s.pos with
    | .ok ((c, st), pos) => .next ⟨c, st, pos⟩
    | .error e => .stop (.error e)
  else .stop (.ok (s.st, s.pos))

theorem conclusive_followPointer (c : UInt8) : Conclusive (followPointer c) :=
  conclusive_bind conclusive_vreadU8 fun _ => conclusive_bind conclusive_nominal fun _ =>
    conclusive_ite (conclusive_fail _) (conclusive_bind conclusive_here fun _ =>
      conclusive_bind (conclusive_seek _) fun _ => conclusive_pure _)

theorem conclusive_takeLabel (c : UInt8) : Conclusive (takeLabel c) :=
  conclusive_bind conclusive_here fun _ => conclusive_bind conclusive_nominal fun _ =>
    conclusive_ite (conclusive_fail _) (conclusive_bytes _)

theorem conclusive_labelBody (c : UInt8) (st : LabelState) : Conclusive (labelBody c st) := by
  apply conclusive_ite
  · exact conclusive_bind (conclusive_followPointer c) fun _ =>
      conclusive_bind conclusive_vreadU8 fun _ => conclusive_pure _
  · apply conclusive_ite (conclusive_fail _)
    exact conclusive_bind (conclusive_takeLabel c) fun _ =>
      conclusive_bind conclusive_vreadU8 fun _ => conclusive_pure _

theorem takeLabel_bound {c : UInt8} {d label : List UInt8} {n p q : Nat}
    (h : (takeLabel c).run d n p = .ok (label, q)) : p + c.toNat < n ∧ q = p + c.toNat := by
  by_cases hfit : p + c.toNat ≥ n
  · simp [takeLabel, bind_apply, here, nominal, fail, hfit] at h
  · simp only [takeLabel, bind_apply, here, nominal, if_neg hfit] at h
    exact ⟨Nat.lt_of_not_le hfit, advances_bytes _ _ _ _ _ _ h⟩

/-- What a turn does to the jumps and the cursor. -/
theorem labelBody_ok {c c' : UInt8} {st st' : LabelState} {d : List UInt8} {n p q : Nat}
    (h : (labelBody c st).run d n p = .ok ((c', st'), q)) : q ≤ n ∧
      (c &&& 0xc0 = 0xc0 ∧ st'.jumps = st.jumps + 1 ∨
        c &&& 0xc0 ≠ 0xc0 ∧ st'.jumps = st.jumps ∧ p < q) := by
  rw [labelBody] at h
  by_cases hptr : c &&& 0xc0 = 0xc0
  · rw [if_pos hptr] at h
    obtain ⟨pos, q₁, _, h⟩ := bind_eq_ok.mp h
    obtain ⟨b, q₂, hread, h⟩ := bind_eq_ok.mp h
    cases h
    have hbound := vread_bound hread
    rw [advances_vreadU8 _ _ _ _ _ hread]
    exact ⟨hbound, .inl ⟨hptr, rfl⟩⟩
  · rw [if_neg hptr] at h
    by_cases hres : c &&& 0x40 = 0x40 ∨ c &&& 0x80 = 0x80
    · rw [if_pos hres] at h
      cases h
    · rw [if_neg hres] at h
      obtain ⟨label, q₁, htake, h⟩ := bind_eq_ok.mp h
      obtain ⟨b, q₂, hread, h⟩ := bind_eq_ok.mp h
      cases h
      have hbound := vread_bound hread
      have htaken := takeLabel_bound htake
      rw [advances_vreadU8 _ _ _ _ _ hread]
      exact ⟨hbound, .inr ⟨hptr, rfl, by omega⟩⟩

section Turns
variable {d : List UInt8} {n : Nat}

theorem labelTurn_next {s t : LabelPoint} (h : labelTurn d n s = .next t) :
    s.goesOn ∧ (labelBody s.c s.st).run d n s.pos = .ok ((t.c, t.st), t.pos) := by
  rw [labelTurn] at h
  by_cases hs : s.goesOn
  · rw [if_pos hs] at h
    cases hbody : (labelBody s.c s.st).run d n s.pos with
    | error e =>
      rw [hbody] at h
      cases h
    | ok v =>
      rw [hbody] at h
      cases h
      exact ⟨hs, rfl⟩
  · rw [if_neg hs] at h
    cases h

theorem labelTurn_stop {s : LabelPoint} {r : Except (Stop Code) (LabelState × Nat)}
    (h : labelTurn d n s = .stop r) :
    (∃ e, r = .error e ∧ s.goesOn ∧ (labelBody s.c s.st).run d n s.pos = .error e) ∨
      r = .ok (s.st, s.pos) ∧ ¬ s.goesOn := by
  rw [labelTurn] at h
  by_cases hs : s.goesOn
  · rw [if_pos hs] at h
    cases hbody : (labelBody s.c s.st).run d n s.pos with
    | error e =>
      rw [hbody] at h
      cases h
      exact .inl ⟨e, rfl, hs, rfl⟩
    | ok v =>
      rw [hbody] at h
      cases h
  · rw [if_neg hs] at h
    cases h
    exact .inr ⟨rfl, hs⟩

/- Jumps left, then bytes left; the bytes left are never more than n. -/
def labelRank (n : Nat) (s : LabelPoint) : Nat :=
  (maxJumps - s.st.jumps) * (n + 1) + (n - s.pos)

theorem labelRank_lt (s : LabelPoint) : labelRank n s < labelFuel n := by
  have hjumps : (maxJumps - s.st.jumps) * (n + 1) ≤ maxJumps * (n + 1) :=
    Nat.mul_le_mul_right _ (Nat.sub_le _ _)
  rw [labelRank, labelFuel, Nat.succ_mul]
  omega

theorem labelTurn_rank (s t : LabelPoint) (h : labelTurn d n s = .next t) :
    labelRank n t < labelRank n s := by
  obtain ⟨⟨_, hjumps⟩, hbody⟩ := labelTurn_next h
  rw [labelRank, labelRank]
  obtain ⟨hq, ⟨_, hst⟩ | ⟨_, hst, hlt⟩⟩ := labelBody_ok hbody
  · have hsplit : maxJumps - s.st.jumps = maxJumps - t.st.jumps + 1 := by omega
    rw [hsplit, Nat.succ_mul]
    omega
  · rw [hst]
    omega

theorem readLabelLoop_succ (k : Nat) (s : LabelPoint) :
    (readLabelLoop (k + 1) s.c s.st).run d n s.pos =
      if s.goesOn then (labelBody s.c s.st >>= fun x => readLabelLoop k x.1 x.2).run d n s.pos
      else .ok (s.st, s.pos) := by
  rw [readLabelLoop, labelBody]
  by_cases hs : s.c ≠ 0 ∧ s.st.jumps < maxJumps
  · rw [if_pos hs, if_pos (show s.goesOn from hs)]
    by_cases hptr : s.c &&& 0xc0 = 0xc0
    · rw [if_pos hptr, if_pos hptr, bind_assoc_apply, bind_apply, bind_apply]
      cases (followPointer s.c).run d n s.pos with
      | error e => rfl
      | ok v =>
        simp only [bind_apply, pure_apply]
        cases vreadU8.run d n v.2 with
        | error e => rfl
        | ok w => rfl
    · rw [if_neg hptr, if_neg hptr]
      by_cases hres : s.c &&& 0x40 = 0x40 ∨ s.c &&& 0x80 = 0x80
      · rw [if_pos hres, if_pos hres]
        rfl
      · rw [if_neg hres, if_neg hres, bind_assoc_apply, bind_apply, bind_apply]
        cases (takeLabel s.c).run d n s.pos with
        | error e => rfl
        | ok v =>
        simp only [bind_apply, pure_apply]
        cases vreadU8.run d n v.2 with
        | error e => rfl
        | ok w => rfl
  · rw [if_neg hs, if_neg (show ¬ s.goesOn from hs), pure_apply]

/-- The loop of the reader takes these turns. -/
theorem readLabelLoop_iterate (k : Nat) (s : LabelPoint) :
    (readLabelLoop k s.c s.st).run d n s.pos =
      (iterate (labelTurn d n) k s).getD (.error .outOfFuel) := by
  induction k generalizing s with
  | zero => rfl
  | succ k ih =>
    rw [readLabelLoop_succ]
    cases hturn : labelTurn d n s with
    | next t =>
      obtain ⟨hs, hbody⟩ := labelTurn_next hturn
      rw [iterate_next hturn, if_pos hs, bind_of_ok hbody]
      exact ih t
    | stop r =>
      rw [iterate_stop hturn]
      obtain ⟨e, rfl, hs, hbody⟩ | ⟨rfl, hs⟩ := labelTurn_stop hturn
      · rw [if_pos hs, bind_of_error hbody]
        rfl
      · rw [if_neg hs]
        rfl

theorem ends_conclusive {s : LabelPoint} {r : Except (Stop Code) (LabelState × Nat)}
    (h : Ends (labelTurn d n) s r) : r ≠ .error .outOfFuel := by
  induction h with
  | stop h =>
    obtain ⟨e, rfl, _, hbody⟩ | ⟨rfl, _⟩ := labelTurn_stop h
    · intro he
      cases he
      exact conclusive_labelBody _ _ _ _ _ hbody
    · nofun
  | next _ _ ih => exact ih

/-- With the fuel of ReadLabel or more the loop gives the result that it ends with. -/
theorem readLabelLoop_ends (s : LabelPoint) {fuel : Nat} (hfuel : labelFuel n ≤ fuel) :
    Ends (labelTurn d n) s ((readLabelLoop fuel s.c s.st).run d n s.pos) := by
  have hrank := labelRank_lt (n := n) s
  obtain ⟨r, hr⟩ := exists_iterate_of_rank labelTurn_rank (hrank.trans_le hfuel)
  rw [readLabelLoop_iterate, hr]
  exact ends_of_iterate hr

/- Started from s the loop follows at least k pointers. The last one counts even if the byte
   that it leads to cannot be read. -/
inductive Follows (d : List UInt8) (n : Nat) : LabelPoint → Nat → Prop
  | none (s : LabelPoint) : Follows d n s 0
  | last {s : LabelPoint} {pos q : Nat} (hs : s.goesOn) (hptr : s.pointer)
      (h : (followPointer s.c).run d n s.pos = .ok (pos, q)) : Follows d n s 1
  | pointer {s t : LabelPoint} {k : Nat} (hptr : s.pointer) (h : labelTurn d n s = .next t)
      (ht : Follows d n t k) : Follows d n s (k + 1)
  | label {s t : LabelPoint} {k : Nat} (hptr : ¬ s.pointer) (h : labelTurn d n s = .next t)
      (ht : Follows d n t k) : Follows d n s k

theorem Follows.goesOn {s : LabelPoint} {k : Nat} (h : Follows d n s k) (hk : 0 < k) :
    s.goesOn := by
  cases h with
  | none => cases hk
  | last hs _ _ => exact hs
  | pointer _ h _ => exact (labelTurn_next h).1
  | label _ h _ => exact (labelTurn_next h).1

/-- A turn at a pointer counts one jump, the others count none. -/
theorem labelTurn_jumps {s t : LabelPoint} (h : labelTurn d n s = .next t) :
    (s.pointer → t.st.jumps = s.st.jumps + 1) ∧ (¬ s.pointer → t.st.jumps = s.st.jumps) := by
  obtain ⟨_, ⟨hptr, hst⟩ | ⟨hptr, hst, _⟩⟩ := labelBody_ok (labelTurn_next h).2
  · exact ⟨fun _ => hst, fun hne => absurd hptr hne⟩
  · exact ⟨fun heq => absurd heq hptr, fun _ => hst⟩

theorem labelTurn_jumps_le {s t : LabelPoint} (h : labelTurn d n s = .next t) :
    s.st.jumps ≤ t.st.jumps ∧ t.st.jumps ≤ maxJumps := by
  have hlt := (labelTurn_next h).1.2
  by_cases hptr : s.pointer
  · rw [(labelTurn_jumps h).1 hptr]
    exact ⟨Nat.le_succ _, hlt⟩
  · rw [(labelTurn_jumps h).2 hptr]
    exact ⟨Nat.le_refl _, Nat.le_of_lt hlt⟩

theorem ends_jumps {s : LabelPoint} {st : LabelState} {q : Nat}
    (h : Ends (labelTurn d n) s (.ok (st, q))) (hs : s.st.jumps ≤ maxJumps) :
    s.st.jumps ≤ st.jumps ∧ st.jumps ≤ maxJumps := by
  generalize hr : (Except.ok (st, q) : Except (Stop Code) (LabelState × Nat)) = r at h
  induction h with
  | stop h =>
    subst hr
    obtain ⟨e, he, _⟩ | ⟨he, _⟩ := labelTurn_stop h
    · cases he
    · cases he
      exact ⟨Nat.le_refl _, hs⟩
  | next h _ ih =>
    have hturn := labelTurn_jumps_le h
    have hrest := ih hturn.2 hr
    exact ⟨hturn.1.trans hrest.1, hrest.2⟩

/-- The jumps that the loop counts are the pointers that it follows. -/
theorem follows_jumps {s : LabelPoint} {k : Nat} (h : Follows d n s k) {st : LabelState} {q : Nat}
    (hend : Ends (labelTurn d n) s (.ok (st, q))) (hs : s.st.jumps ≤ maxJumps) :
    s.st.jumps + k ≤ st.jumps := by
  induction h with
  | none s => exact (ends_jumps hend hs).1
  | @last s pos q' hgo hptr h =>
    cases hend with
    | stop hstop =>
      obtain ⟨e, he, _⟩ | ⟨_, hnot⟩ := labelTurn_stop hstop
      · cases he
      · exact absurd hgo hnot
    | next hnext hrest =>
      have hjumps := (labelTurn_jumps hnext).1 hptr
      have hle := (ends_jumps hrest (labelTurn_jumps_le hnext).2).1
      omega
  | pointer hptr h _ ih =>
    have hjumps := (labelTurn_jumps h).1 hptr
    have hrest := ih (hend.of_next h) (labelTurn_jumps_le h).2
    omega
  | label hptr h _ ih =>
    have hjumps := (labelTurn_jumps h).2 hptr
    have hrest := ih (hend.of_next h) (labelTurn_jumps_le h).2
    omega

/- The loop as ReadLabel enters it, with c the first byte of the name. -/
def LabelPoint.first (c : UInt8) (pos : Nat) : LabelPoint :=
  ⟨c, { jumps := 0, out := [], resume := 0 }, pos⟩

/-- Behind the first byte the answer of ReadLabel is the answer of its loop, or none. -/
theorem readLabel_ok {old name : CString} {p q : Nat}
    (h : (readLabel old).run d n p = .ok (name, q)) :
    ∃ c pos, vreadU8.run d n p = .ok (c, pos) ∧ (c = 0 ∨
      ∃ st q', Ends (labelTurn d n) (.first c pos) (.ok (st, q')) ∧ st.jumps ≠ maxJumps) := by
  obtain ⟨c, pos, hread, h⟩ := bind_eq_ok.mp h
  refine ⟨c, pos, hread, ?_⟩
  by_cases hc : c = 0
  · exact .inl hc
  · rw [if_neg hc] at h
    obtain ⟨size, _, hsize, h⟩ := bind_eq_ok.mp h
    cases hsize
    obtain ⟨st, q', hloop, h⟩ := bind_eq_ok.mp h
    by_cases hjumps : st.jumps = maxJumps
    · rw [if_pos hjumps] at h
      cases h
    · have hend := readLabelLoop_ends (d := d) (.first c pos) (Nat.le_refl (labelFuel n))
      rw [LabelPoint.first] at hend
      rw [hloop] at hend
      exact .inr ⟨st, q', hend, hjumps⟩

theorem conclusive_readLabel (old : CString) : Conclusive (readLabel old) := by
  apply conclusive_bind conclusive_vreadU8
  intro c
  apply conclusive_ite (conclusive_pure _)
  intro buf size p h
  have hsize : (nominal : Reader Code Nat).run buf size p = .ok (size, p) := rfl
  rw [bind_of_ok hsize] at h
  have hend := readLabelLoop_ends (d := buf) (.first c p) (Nat.le_refl (labelFuel size))
  cases hloop : (readLabelLoop (labelFuel size) c
      { jumps := 0, out := [], resume := 0 }).run buf size p with
  | error e =>
    rw [bind_of_error hloop] at h
    cases h
    exact ends_conclusive hend hloop
  | ok v =>
    rw [bind_of_ok hloop] at h
    exact conclusive_ite (conclusive_fail _) (conclusive_ite
      (conclusive_bind (conclusive_seek _) fun _ => conclusive_pure _) (conclusive_pure _))
      buf size v.2 h

end Turns

/-- ReadLabel ends on every array, size and cursor: no sequence of turns of its loop goes on
for ever, from any point of the loop, and the fuel it is given is as good as any larger one.
It never ends well after five pointers. -/
theorem readLabel_terminates (old : CString) (d : List UInt8) (n p : Nat) :
    (readLabel old).run d n p ≠ .error .outOfFuel ∧
      (WellFounded fun t s => labelTurn d n s = .next t) ∧
      (∀ s : LabelPoint, ∃ r, Ends (labelTurn d n) s r ∧
        ∀ fuel, labelFuel n ≤ fuel → (readLabelLoop fuel s.c s.st).run d n s.pos = r) ∧
      ∀ c pos k, vreadU8.run d n p = .ok (c, pos) → Follows d n (.first c pos) k →
        maxJumps ≤ k → ∀ x, (readLabel old).run d n p ≠ .ok x := by
  refine ⟨conclusive_readLabel old d n p, wellFounded_of_rank labelTurn_rank, ?_, ?_⟩
  · intro s
    have hend := readLabelLoop_ends (d := d) s (Nat.le_refl (labelFuel n))
    refine ⟨_, hend, ?_⟩
    intro fuel hfuel
    exact (readLabelLoop_ends s hfuel).unique hend
  · intro c pos k hread hfollows hk x hx
    obtain ⟨c', pos', hread', hcase⟩ := readLabel_ok hx
    rw [hread] at hread'
    cases hread'
    obtain rfl | ⟨st, q, hend, hjumps⟩ := hcase
    · have hpos : 0 < k := Nat.lt_of_lt_of_le (by decide) hk
      exact (hfollows.goesOn hpos).1 rfl
    · have hle := follows_jumps hfollows hend (Nat.zero_le _)
      have hst := (ends_jumps hend (Nat.zero_le _)).2
      simp only [LabelPoint.first] at hle
      omega

/- A name that is a pointer to itself is followed five times. -/
example : Follows [0xc0, 0] 2 (.first 0xc0 1) 5 :=
  .pointer rfl rfl (.pointer rfl rfl (.pointer rfl rfl (.pointer rfl rfl (.pointer rfl rfl
    (.none _)))))

example : (readLabel .empty).run [0xc0, 0] 2 0 = .error (.failed eFormErr) := by decide

end DnsWrapper.Dns
