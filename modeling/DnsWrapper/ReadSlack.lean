import DnsWrapper.ReadBounds

/-! How far Read goes behind the datagram. VREAD_U32 checks for two of the four bytes that it
reads; a cursor that has passed the end that way stops everything that is read next, so two bytes
behind the datagram are enough for Read to stay in the buffer. -/
namespace DnsWrapper.ByteReader
variable {ε α β : Type}

/-- On every array with k bytes behind the nominal size the reader stays in the array, from any
cursor not behind it, and ends there or with an error of its own. -/
def Slack (k : Nat) (r : Reader ε α) : Prop :=
  ∀ buf n p, n + k ≤ buf.length → p ≤ n + k → Inside (n + k) (r.run buf n p)

theorem slack_pure (k : Nat) (a : α) : Slack k (pure a : Reader ε α) := by
  intro buf n p _ hp
  exact hp

theorem slack_fail (k : Nat) (e : ε) : Slack k (fail e : Reader ε α) := by
  intro buf n p _ _
  exact ⟨e, rfl⟩

theorem slack_bind {k : Nat} {r : Reader ε α} {f : α → Reader ε β} (hr : Slack k r)
    (hf : ∀ a, Slack k (f a)) : Slack k (r >>= f) := by
  intro buf n p hbuf hp
  have h := hr buf n p hbuf hp
  cases he : r.run buf n p with
  | error e =>
    rw [he] at h
    rw [bind_of_error he]
    exact h
  | ok v =>
    obtain ⟨a, q⟩ := v
    rw [he] at h
    rw [bind_of_ok he]
    exact hf a buf n q hbuf h

theorem slack_ite {c : Prop} [Decidable c] {k : Nat} {r s : Reader ε α} (hr : Slack k r)
    (hs : Slack k s) : Slack k (if c then r else s) := by
  split
  · exact hr
  · exact hs

theorem slack_each {k : Nat} {r : Nat → Reader ε α} (h : ∀ i, Slack k (r i)) (i m : Nat) :
    Slack k (each r i m) := by
  induction m generalizing i with
  | zero => exact slack_pure k []
  | succ m ih => exact slack_bind (h i) fun _ => slack_bind (ih (i + 1)) fun _ => slack_pure k _

/-- A reader that stays in the nominal array and fails from behind it needs nothing behind it. -/
theorem slack_of_within {k : Nat} {r : Reader ε α} (hw : Within r) (hs : Stable r)
    (hb : ∀ d p, d.length < p → ∃ c, r.run d d.length p = .error (.failed c)) : Slack k r := by
  intro buf n p hbuf _
  obtain ⟨d, more, rfl, rfl⟩ : ∃ d more, buf = d ++ more ∧ d.length = n :=
    ⟨buf.take n, buf.drop n, (List.take_append_drop n buf).symm, List.length_take_of_le (by omega)⟩
  by_cases hp : p ≤ d.length
  · have hin := hw d p hp
    have hsame : r.run (d ++ more) d.length p = r.run d d.length p := by
      apply hs
      intro hout
      rw [hout] at hin
      obtain ⟨c, hc⟩ := hin
      cases hc
    rw [hsame]
    cases he : r.run d d.length p with
    | error e =>
      rw [he] at hin
      exact hin
    | ok v =>
      rw [he] at hin
      exact Nat.le_trans hin (Nat.le_add_right _ k)
  · obtain ⟨c, hc⟩ := hb d p (by omega)
    have hsame := hs d more d.length p (by rw [hc]; exact fun h => by cases h)
    rw [hsame, hc]
    exact ⟨c, rfl⟩

end DnsWrapper.ByteReader

namespace DnsWrapper.Dns
open ByteReader ByteWord NetCommon

/- How many bytes behind the datagram VREAD_U32 can reach. -/
def wordSlack : Nat := 2

section Readers

theorem slack_vreadByte : Slack wordSlack vreadByte :=
  slack_of_within within_vreadByte stable_vreadByte fun _ _ h => ⟨_, vread_fail _ _ (by omega)⟩

theorem slack_vreadU16 : Slack wordSlack vreadU16 :=
  slack_of_within within_vreadU16 stable_vreadU16 fun _ _ h => ⟨_, vread_fail _ _ (by omega)⟩

theorem slack_vreadU32 : Slack wordSlack vreadU32 := by
  intro buf n p hbuf hp
  by_cases hfit : p + 2 ≤ n
  · have hpos : p + 3 < buf.length := by
      rw [wordSlack] at hbuf
      omega
    rw [vreadU32, vread_ok _ _ hfit, readU32_ok n hpos]
    rw [wordSlack]
    change p + 4 ≤ n + 2
    omega
  · rw [vreadU32, vread_fail _ _ (by omega)]
    exact ⟨_, rfl⟩

theorem slack_readLabel (old : CString) : Slack wordSlack (readLabel old) :=
  slack_of_within (within_readLabel old) (stable_readLabel old) fun _ _ h =>
    ⟨_, readLabel_beyond old h⟩

theorem slack_question (old : CString) : Slack wordSlack (DnsQuestion.read old) :=
  slack_bind (slack_readLabel old) fun _ => slack_bind slack_vreadU16 fun _ =>
    slack_bind slack_vreadU16 fun _ => slack_pure _ _

theorem slack_name (g : CString → Address) :
    Slack wordSlack (do let name ← readLabel CString.empty; pure (g name) : Reader Code Address) :=
  slack_bind (slack_readLabel _) fun _ => slack_pure _ _

theorem slack_readAddress (rt : DnsRecordType) (type len : UInt16) :
    Slack wordSlack (DnsRecord.readAddress rt type len) := by
  apply slack_ite
  · exact slack_bind slack_vreadU32 fun _ => slack_pure _ _
  apply slack_ite
  · exact slack_name _
  apply slack_ite
  · exact slack_name _
  apply slack_ite
  · exact slack_bind slack_vreadU16 fun _ => slack_name _
  apply slack_ite
  · exact slack_bind slack_vreadU32 fun _ => slack_bind slack_vreadU32 fun _ =>
      slack_bind slack_vreadU32 fun _ => slack_bind slack_vreadU32 fun _ => slack_pure _ _
  apply slack_ite
  · apply slack_ite
    · exact slack_fail _ _
    · exact slack_bind (slack_each (fun _ => slack_vreadByte) _ _) fun _ => slack_pure _ _
  · exact slack_fail _ _

theorem slack_record (rt : DnsRecordType) : Slack wordSlack (DnsRecord.read rt) :=
  slack_bind (slack_question _) fun _ => slack_bind slack_vreadU32 fun _ =>
    slack_bind slack_vreadU16 fun _ => slack_bind (slack_readAddress rt _ _) fun _ => slack_pure _ _

theorem slack_header : Slack wordSlack DnsHeader.read :=
  slack_of_within DnsHeader.within_read DnsHeader.stable_read fun _ _ h =>
    ⟨_, by rw [DnsHeader.read, bind_of_error (validate_fail _ (by omega))]⟩

/-- Read never leaves a buffer with two bytes behind the datagram. -/
theorem slack_read (garbage : Nat → CString) : Slack wordSlack (DnsPacket.read garbage) :=
  slack_bind slack_header fun _ => slack_bind (slack_each (fun _ => slack_question _) _ _) fun _ =>
    slack_bind (slack_each (fun _ => slack_record _) _ _) fun _ =>
      slack_bind (slack_each (fun _ => slack_record _) _ _) fun _ =>
        slack_bind (slack_each (fun _ => slack_record _) _ _) fun _ => slack_pure _ _

end Readers

end DnsWrapper.Dns
