import DnsWrapper.DnsPacket

/-! ReadLabel ends on every input, and on a datagram it stays inside it: each turn of
its loop either passes a byte of the datagram or uses up one of five jumps. -/
namespace DnsWrapper.Dns
open ByteReader ByteWord NetCommon

theorem stable_followPointer (c : UInt8) : Stable (followPointer c) :=
  stable_bind stable_vreadU8 fun _ => stable_bind stable_nominal fun _ =>
    stable_ite (stable_fail _) (stable_bind stable_here fun _ =>
      stable_bind (stable_seek _) fun _ => stable_pure _)

theorem stable_takeLabel (c : UInt8) : Stable (takeLabel c) :=
  stable_bind stable_here fun _ => stable_bind stable_nominal fun _ =>
    stable_ite (stable_fail _) (stable_bytes _)

theorem stable_readLabelLoop (fuel : Nat) (c : UInt8) (st : LabelState) :
    Stable (readLabelLoop fuel c st) := by
  induction fuel generalizing c st with
  | zero => exact stable_exhausted
  | succ fuel ih =>
    rw [readLabelLoop]
    apply stable_ite
    · apply stable_ite
      · exact stable_bind (stable_followPointer c) fun _ =>
          stable_bind stable_vreadU8 fun _ => ih _ _
      · apply stable_ite
        · exact stable_fail _
        · exact stable_bind (stable_takeLabel c) fun _ =>
            stable_bind stable_vreadU8 fun _ => ih _ _
    · exact stable_pure st

theorem stable_readLabel (old : CString) : Stable (readLabel old) := by
  apply stable_bind stable_vreadU8
  intro c
  apply stable_ite
  · exact stable_pure _
  · apply stable_bind stable_nominal
    intro size
    apply stable_bind (stable_readLabelLoop _ _ _)
    intro st
    apply stable_ite
    · exact stable_fail _
    · apply stable_ite
      · exact stable_bind (stable_seek _) fun _ => stable_pure _
      · exact stable_pure _

theorem stable_question (old : CString) : Stable (DnsQuestion.read old) :=
  stable_bind (stable_readLabel old) fun _ => stable_bind stable_vreadU16 fun _ =>
    stable_bind stable_vreadU16 fun _ => stable_pure _

theorem stable_readAddress (rt : DnsRecordType) (type len : UInt16) :
    Stable (DnsRecord.readAddress rt type len) := by
  rw [DnsRecord.readAddress]
  apply stable_ite
  · exact stable_bind stable_vreadU32 fun _ => stable_pure _
  apply stable_ite
  · exact stable_bind (stable_readLabel _) fun _ => stable_pure _
  apply stable_ite
  · exact stable_bind (stable_readLabel _) fun _ => stable_pure _
  apply stable_ite
  · exact stable_bind stable_vreadU16 fun _ => stable_bind (stable_readLabel _) fun _ =>
      stable_pure _
  apply stable_ite
  · exact stable_bind stable_vreadU32 fun _ => stable_bind stable_vreadU32 fun _ =>
      stable_bind stable_vreadU32 fun _ => stable_bind stable_vreadU32 fun _ => stable_pure _
  apply stable_ite
  · exact stable_ite (stable_fail _)
      (stable_bind (stable_each (fun _ => stable_vreadByte) _ _) fun _ => stable_pure _)
  · exact stable_fail _

theorem stable_record (rt : DnsRecordType) : Stable (DnsRecord.read rt) :=
  stable_bind (stable_question _) fun _ => stable_bind stable_vreadU32 fun _ =>
    stable_bind stable_vreadU16 fun _ => stable_bind (stable_readAddress _ _ _) fun _ =>
      stable_pure _

theorem stable_packet (garbage : Nat → CString) : Stable (DnsPacket.read garbage) :=
  stable_bind DnsHeader.stable_read fun _ =>
    stable_bind (stable_each (fun _ => stable_question _) _ _) fun _ =>
      stable_bind (stable_each (fun _ => stable_record _) _ _) fun _ =>
        stable_bind (stable_each (fun _ => stable_record _) _ _) fun _ =>
          stable_bind (stable_each (fun _ => stable_record _) _ _) fun _ => stable_pure _

theorem vreadU8_cases (d : List UInt8) (p : Nat) :
    vreadU8.run d d.length p = .error (.failed eFormErr) ∨
      p < d.length ∧ ∃ b, vreadU8.run d d.length p = .ok (b, p + 1) := by
  by_cases h : p + 1 ≤ d.length
  · exact .inr ⟨h, _, vreadU8_ok h h⟩
  · exact .inl (vread_fail _ _ (by omega))

theorem followPointer_cut (c : UInt8) {d : List UInt8} {p : Nat} (h : d[p]? = none) :
    (followPointer c).run d d.length p = .error (.failed eFormErr) := by
  have hp : d.length ≤ p := List.getElem?_eq_none_iff.mp h
  exact bind_of_error (vread_fail readU8 d (by omega))

theorem followPointer_some (c : UInt8) {d : List UInt8} {p : Nat} {b : UInt8} (h : d[p]? = some b) :
    (followPointer c).run d d.length p =
      if (join16 (c ^^^ 0xc0) b).toNat ≥ d.length then .error (.failed eFormErr)
      else .ok (p + 1, (join16 (c ^^^ 0xc0) b).toNat) := by
  obtain ⟨hp, rfl⟩ := List.getElem?_eq_some_iff.mp h
  have he := vreadU8_ok hp hp
  have hn : (nominal : Reader Code Nat).run d d.length (p + 1) = .ok (d.length, p + 1) := rfl
  rw [followPointer, bind_of_ok he, bind_of_ok hn]
  split
  · rfl
  · rfl

theorem followPointer_cases (c : UInt8) (d : List UInt8) (p : Nat) :
    (followPointer c).run d d.length p = .error (.failed eFormErr) ∨
      p < d.length ∧ ∃ t, t < d.length ∧ (followPointer c).run d d.length p = .ok (p + 1, t) := by
  cases hb : d[p]? with
  | none => exact .inl (followPointer_cut c hb)
  | some b =>
    rw [followPointer_some c hb]
    split
    · exact .inl rfl
    · rename_i ht
      exact .inr ⟨(List.getElem?_eq_some_iff.mp hb).1, _, Nat.lt_of_not_le ht, rfl⟩

theorem takeLabel_cut {c : UInt8} {d : List UInt8} {p : Nat} (h : d.length ≤ p + c.toNat) :
    (takeLabel c).run d d.length p = .error (.failed eFormErr) := by
  simp [takeLabel, bind_apply, here, nominal, fail, h]

theorem takeLabel_ok {c : UInt8} {d : List UInt8} {p : Nat} (h : p + c.toNat < d.length) :
    (takeLabel c).run d d.length p = .ok ((d.drop p).take c.toNat, p + c.toNat) := by
  rw [← bytes_ok (ε := Code) d d.length c.toNat p (by omega)]
  simp [takeLabel, bind_apply, here, nominal, Nat.not_le.mpr h]

theorem takeLabel_cases (c : UInt8) (d : List UInt8) (p : Nat) :
    (takeLabel c).run d d.length p = .error (.failed eFormErr) ∨
      p + c.toNat < d.length ∧
        (takeLabel c).run d d.length p = .ok ((d.drop p).take c.toNat, p + c.toNat) := by
  cases Nat.lt_or_ge (p + c.toNat) d.length with
  | inl h => exact .inr ⟨h, takeLabel_ok h⟩
  | inr h => exact .inl (takeLabel_cut h)

/- What the loop returns besides the cursor: the position to resume at is inside too. -/
def LoopInside (n : Nat) : Except (Stop Code) (LabelState × Nat) → Prop
  | .ok (st, q) => q ≤ n ∧ st.resume ≤ n
  | .error e => ∃ c, e = .failed c

/-- The measure is the pair of jumps left and bytes left, flattened into one number. -/
theorem readLabelLoop_inside (d : List UInt8) (fuel : Nat) (c : UInt8) (st : LabelState) (p : Nat)
    (hp : p ≤ d.length) (hr : st.resume ≤ d.length)
    (hfuel : (maxJumps - st.jumps) * (d.length + 1) + (d.length - p) < fuel) :
    LoopInside d.length ((readLabelLoop fuel c st).run d d.length p) := by
  induction fuel generalizing c st p with
  | zero => omega
  | succ fuel ih =>
    rw [readLabelLoop]
    by_cases hloop : c ≠ 0 ∧ st.jumps < maxJumps
    · rw [if_pos hloop]
      by_cases hptr : c &&& 0xc0 = 0xc0
      · rw [if_pos hptr]
        obtain he | ⟨hlt, t, ht, he⟩ := followPointer_cases c d p
        · rw [bind_of_error he]
          exact ⟨_, rfl⟩
        · have hc := vreadU8_ok ht ht
          rw [bind_of_ok he, bind_of_ok hc]
          have hsplit : maxJumps - st.jumps = maxJumps - (st.jumps + 1) + 1 := by omega
          rw [hsplit, Nat.succ_mul] at hfuel
          exact ih _ { st with jumps := st.jumps + 1, resume := p + 1 } (t + 1) ht hlt
            (by simp only; omega)
      · rw [if_neg hptr]
        by_cases hres : c &&& 0x40 = 0x40 ∨ c &&& 0x80 = 0x80
        · rw [if_pos hres]
          exact ⟨_, rfl⟩
        · rw [if_neg hres]
          obtain he | ⟨hlt, he⟩ := takeLabel_cases c d p
          · rw [bind_of_error he]
            exact ⟨_, rfl⟩
          · have hc := vreadU8_ok hlt hlt
            rw [bind_of_ok he, bind_of_ok hc]
            exact ih _ _ (p + c.toNat + 1) hlt hr (by simp only; omega)
    · rw [if_neg hloop]
      exact ⟨hp, hr⟩

theorem within_readLabel (old : CString) : Within (readLabel old) := by
  intro d p _
  obtain he | ⟨hp, c, he⟩ := vreadU8_cases d p
  · rw [readLabel, bind_of_error he]
    exact ⟨_, rfl⟩
  · rw [readLabel, bind_of_ok he]
    by_cases hc : c = 0
    · rw [if_pos hc]
      exact hp
    · rw [if_neg hc]
      have hloop := readLabelLoop_inside d (labelFuel d.length) c
        { jumps := 0, out := [], resume := 0 } (p + 1) hp (Nat.zero_le _)
        (by simp only [labelFuel, maxJumps]; omega)
      have hn : (nominal : Reader Code Nat).run d d.length (p + 1) = .ok (d.length, p + 1) := rfl
      rw [bind_of_ok hn]
      cases hl : (readLabelLoop (labelFuel d.length) c
          { jumps := 0, out := [], resume := 0 }).run d d.length (p + 1) with
      | error e =>
        rw [hl] at hloop
        rw [bind_of_error hl]
        exact hloop
      | ok v =>
        obtain ⟨st, q⟩ := v
        rw [hl] at hloop
        rw [bind_of_ok hl]
        by_cases hj : st.jumps = maxJumps
        · rw [if_pos hj]
          exact ⟨_, rfl⟩
        · rw [if_neg hj]
          by_cases hres : st.resume > 0
          · rw [if_pos hres]
            exact hloop.2
          · rw [if_neg hres]
            exact hloop.1

theorem within_question (old : CString) : Within (DnsQuestion.read old) :=
  within_bind (within_readLabel old) fun _ => within_bind within_vreadU16 fun _ =>
    within_bind within_vreadU16 fun _ => within_pure _

end DnsWrapper.Dns
