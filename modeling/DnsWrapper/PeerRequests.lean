import Mathlib.Data.List.Basic
import Mathlib.Data.List.FinRange
import Mathlib.Data.List.Perm.Subperm

/-! The table of requests in flight: who asked, which digest was asked for and under which
ID it was forwarded. A pointer to a record is its place in the list and its contents. -/
namespace DnsWrapper.Bookkeeping
open scoped List
variable {E : Type}

def maxFwdQueries : Nat := 150
def timeout : Int := 10

structure PeerSource (E : Type) where
  endpoint : E
  ipv4 : Bool
  originalId : UInt16
  deriving DecidableEq

instance [DecidableEq E] : LawfulBEq (PeerSource E) := inferInstance

/- additional is the chain behind source.next; sentTo is the number of a server. -/
structure PeerRequestRecord (E : Type) where
  source : PeerSource E
  additional : List (PeerSource E)
  sentTo : Option Nat
  newId : UInt16
  flags : UInt32
  time : Int
  forwardTimestamp : Int
  hash : List UInt8
  fromTimedOut : Bool

namespace PeerRequestRecord

def inUse (r : PeerRequestRecord E) : Bool := r.sentTo.isSome

def sources (r : PeerRequestRecord E) : List (PeerSource E) := r.source :: r.additional

def hasTimedOut (r : PeerRequestRecord E) : Bool := decide (r.time > timeout)

/- What FreePeerRequestRecord leaves of the record itself. -/
def freed (r : PeerRequestRecord E) : PeerRequestRecord E :=
  { r with additional := [], sentTo := none, flags := 0 }

theorem inUse_iff (r : PeerRequestRecord E) : r.inUse = true ↔ r.sentTo ≠ none := by
  rw [inUse, Option.isSome_iff_ne_none]

theorem free_iff (r : PeerRequestRecord E) : r.inUse = false ↔ r.sentTo = none := by
  rw [inUse, Option.isSome_eq_false_iff, Option.isNone_iff_eq_none]

end PeerRequestRecord

/- sources is the pool of nodes that no record holds. -/
structure PeerRequests (E : Type) where
  records : List (PeerRequestRecord E)
  sources : List (PeerSource E)
  sourceCount : UInt16

/- The locals of the loop in GetNewRecord, with the pool. -/
structure Sweep (E : Type) where
  target : Option (Nat × PeerRequestRecord E)
  oldest : Option (Nat × PeerRequestRecord E)
  count : Nat
  sources : List (PeerSource E)

namespace Sweep

/- The first statement of the loop body, at record number i. -/
def classify (now : Int) (i : Nat) (r : PeerRequestRecord E) (st : Sweep E) :
    PeerRequestRecord E × Sweep E :=
  if r.sentTo = none then (r, { st with target := some (i, r) })
  else if now - r.time ≥ 4 * timeout then
    let f := { r.freed with fromTimedOut := true }
    (f, { st with target := some (i, f), sources := r.additional ++ st.sources })
  else
    match st.oldest with
    | none => (r, { st with oldest := some (i, r) })
    | some (_, o) =>
      if r.time - o.time ≤ 0 then (r, { st with oldest := some (i, r) }) else (r, st)

/- The second one. -/
def tally (now : Int) (r : PeerRequestRecord E) (st : Sweep E) : Sweep E :=
  if r.sentTo ≠ none ∧ now - r.time < timeout then { st with count := st.count + 1 } else st

def loop (now : Int) : Nat → List (PeerRequestRecord E) → Sweep E →
    List (PeerRequestRecord E) × Sweep E
  | _, [], st => ([], st)
  | i, r :: rs, st =>
    let (r, st) := classify now i r st
    let (rs, st) := loop now (i + 1) rs (tally now r st)
    (r :: rs, st)

end Sweep

namespace PeerRequests

def empty : PeerRequests E := ⟨[], [], 0⟩

def setRecord (pr : PeerRequests E) (i : Nat) (r : PeerRequestRecord E) : PeerRequests E :=
  { pr with records := pr.records.set i r }

/- The nodes behind the first source go back to the pool. -/
def freePeerRequestRecord (pr : PeerRequests E) (i : Nat) (r : PeerRequestRecord E) :
    PeerRequests E :=
  { pr.setRecord i r.freed with sources := r.additional ++ pr.sources }

/- The loop of GetNewRecord, from its initial values. -/
def sweep (pr : PeerRequests E) (now : Int) : PeerRequests E × Sweep E :=
  let (records, st) := Sweep.loop now 0 pr.records ⟨none, none, 0, pr.sources⟩
  ({ pr with records, sources := st.sources }, st)

/- The end of GetNewRecord: the target of the loop, else the oldest record if it is old
   enough, else a new one. fresh is the memory that operator new returns. -/
def takeRecord (pr : PeerRequests E) (now : Int) (fresh : PeerRequestRecord E) (st : Sweep E) :
    (Nat × PeerRequestRecord E) × PeerRequests E :=
  match st.target with
  | some (i, r) => ((i, { r with time := now }), pr.setRecord i { r with time := now })
  | none =>
    match st.oldest.filter fun x => now - x.2.time ≥ timeout with
    | some (i, o) =>
      let r := { o.freed with fromTimedOut := true, time := now }
      ((i, r), (pr.freePeerRequestRecord i o).setRecord i r)
    | none =>
      let r := { fresh.freed with flags := fresh.flags, fromTimedOut := false, time := now }
      ((0, r), { pr with records := r :: pr.records })

def getNewRecord (pr : PeerRequests E) (now : Int) (force : Bool) (fresh : PeerRequestRecord E) :
    Option (Nat × PeerRequestRecord E) × PeerRequests E :=
  let (pr, st) := pr.sweep now
  if force = false ∧ st.count ≥ maxFwdQueries then (none, pr)
  else
    let (x, pr) := pr.takeRecord now fresh st
    (some x, pr)

/- A record that is not in use holds no source but its own. -/
def Tidy (rs : List (PeerRequestRecord E)) : Prop :=
  ∀ r ∈ rs, r.sentTo = none → r.additional = []

theorem tidy_append {as bs : List (PeerRequestRecord E)} :
    Tidy (as ++ bs) ↔ Tidy as ∧ Tidy bs := by
  simp only [Tidy, List.mem_append, or_imp, forall_and]

theorem tidy_cons {r : PeerRequestRecord E} {rs : List (PeerRequestRecord E)} :
    Tidy (r :: rs) ↔ (r.sentTo = none → r.additional = []) ∧ Tidy rs := by
  simp only [Tidy, List.mem_cons, forall_eq_or_imp]

/- What the loop knows after the records before, which it left as after. -/
structure Swept (now : Int) (before after : List (PeerRequestRecord E)) (st : Sweep E) : Prop where
  length : after.length = before.length
  inFlight : after.filter PeerRequestRecord.inUse <+ before.filter PeerRequestRecord.inUse
  tidy : Tidy before → Tidy after
  target : ∀ i r, st.target = some (i, r) → after[i]? = some r ∧ r.sentTo = none
  oldest : ∀ i o, st.oldest = some (i, o) → after[i]? = some o
  busy : st.target = none → after = before ∧
    st.count = after.countP (fun r => now - r.time < timeout) ∧
    ∀ r ∈ after, ∃ i o, st.oldest = some (i, o) ∧ o.time ≤ r.time

theorem swept_nil (now : Int) (sources : List (PeerSource E)) :
    Swept now [] [] ⟨none, none, 0, sources⟩ where
  length := rfl
  inFlight := List.Sublist.refl _
  tidy h := h
  target := nofun
  oldest := nofun
  busy _ := ⟨rfl, rfl, by simp⟩

theorem getElem?_snoc {as : List (PeerRequestRecord E)} {i : Nat} {r : PeerRequestRecord E}
    (x : PeerRequestRecord E) (h : as[i]? = some r) : (as ++ [x])[i]? = some r := by
  rw [List.getElem?_append_left (List.getElem?_eq_some_iff.mp h).1, h]

/- A record that is free after its turn. -/
theorem swept_free {now : Int} {before after : List (PeerRequestRecord E)} {st st' : Sweep E}
    (h : Swept now before after st) (r f : PeerRequestRecord E) (hf : f.sentTo = none)
    (ha : Tidy [r] → f.additional = []) (ht : st'.target = some (after.length, f)) (ho : st'.oldest = st.oldest) :
    Swept now (before ++ [r]) (after ++ [f]) st' where
  length := by rw [List.length_append, List.length_append, h.length]; rfl
  inFlight := by
    have hnot : f.inUse = false := by rw [PeerRequestRecord.inUse, hf]; rfl
    rw [List.filter_append, List.filter_append, List.filter_singleton, hnot]
    exact h.inFlight.append (List.nil_sublist _)
  tidy hb := by
    obtain ⟨hbefore, hr⟩ := tidy_append.mp hb
    exact tidy_append.mpr ⟨h.tidy hbefore, tidy_cons.mpr ⟨fun _ => ha hr, nofun⟩⟩
  target i r' he := by
    rw [ht] at he
    cases he
    exact ⟨List.getElem?_concat_length, hf⟩
  oldest i o he := by
    rw [ho] at he
    exact getElem?_snoc f (h.oldest i o he)
  busy he := by
    rw [ht] at he
    cases he

/- A record that stays in use. -/
theorem swept_used {now : Int} {before after : List (PeerRequestRecord E)} {st st' : Sweep E}
    (h : Swept now before after st) (r : PeerRequestRecord E)
    (ht : st'.target = st.target)
    (hc : st'.count = st.count + if now - r.time < timeout then 1 else 0)
    (ho : (st'.oldest = some (after.length, r) ∧
        ∀ i o, st.oldest = some (i, o) → r.time ≤ o.time) ∨
      (st'.oldest = st.oldest ∧ ∃ i o, st.oldest = some (i, o) ∧ o.time ≤ r.time)) :
    Swept now (before ++ [r]) (after ++ [r]) st' where
  length := by rw [List.length_append, List.length_append, h.length]
  inFlight := by
    rw [List.filter_append, List.filter_append]
    exact h.inFlight.append (List.Sublist.refl _)
  tidy hb := by
    obtain ⟨hbefore, hr⟩ := tidy_append.mp hb
    exact tidy_append.mpr ⟨h.tidy hbefore, hr⟩
  target i r' he := by
    rw [ht] at he
    obtain ⟨hi, hfree⟩ := h.target i r' he
    exact ⟨getElem?_snoc r hi, hfree⟩
  oldest i o he := by
    obtain ⟨hnew, _⟩ | ⟨hold, _⟩ := ho
    · rw [hnew] at he
      cases he
      exact List.getElem?_concat_length
    · rw [hold] at he
      exact getElem?_snoc r (h.oldest i o he)
  busy he := by
    rw [ht] at he
    obtain ⟨heq, hcount, hmin⟩ := h.busy he
    refine ⟨by rw [heq], ?_, ?_⟩
    · rw [hc, hcount, List.countP_append, List.countP_singleton]
      simp only [decide_eq_true_eq]
    · intro x hx
      rw [List.mem_append, List.mem_singleton] at hx
      obtain ⟨hnew, hle⟩ | ⟨hold, i, o, hio, hle⟩ := ho
      · refine ⟨_, _, hnew, ?_⟩
        obtain hx | rfl := hx
        · obtain ⟨i, o, hio, hox⟩ := hmin x hx
          exact Int.le_trans (hle i o hio) hox
        · exact Int.le_refl _
      · rw [hold]
        obtain hx | rfl := hx
        · exact hmin x hx
        · exact ⟨i, o, hio, hle⟩

theorem tally_free {now : Int} {r : PeerRequestRecord E} (st : Sweep E) (h : r.sentTo = none) :
    Sweep.tally now r st = st := if_neg (by simp [h])

theorem tally_used {now : Int} {r : PeerRequestRecord E} (st : Sweep E) (h : r.sentTo ≠ none) :
    Sweep.tally now r st =
      { st with count := st.count + if now - r.time < timeout then 1 else 0 } := by
  by_cases hage : now - r.time < timeout
  · rw [Sweep.tally, if_pos ⟨h, hage⟩, if_pos hage]
  · rw [Sweep.tally, if_neg (by simp [hage]), if_neg hage, Nat.add_zero]

/- In use for four timeouts or longer. -/
def expired (now : Int) (r : PeerRequestRecord E) : Bool :=
  r.inUse && decide (now - r.time ≥ 4 * timeout)

theorem expired_iff {now : Int} {r : PeerRequestRecord E} :
    expired now r = true ↔ r.inUse = true ∧ 4 * timeout ≤ now - r.time := by
  rw [expired, Bool.and_eq_true, decide_eq_true_eq, ge_iff_le]

/- The branches of the loop body. A record that stays in use becomes the oldest one, or the
   oldest one is not younger. -/
theorem classify_cases (now : Int) (i : Nat) (r : PeerRequestRecord E) (st : Sweep E) :
    (r.inUse = false ∧ Sweep.classify now i r st = (r, { st with target := some (i, r) })) ∨
    (expired now r = true ∧ Sweep.classify now i r st =
      ({ r.freed with fromTimedOut := true }, { st with
        target := some (i, { r.freed with fromTimedOut := true })
        sources := r.additional ++ st.sources })) ∨
    (r.inUse = true ∧ expired now r = false ∧
      ∃ oldest, Sweep.classify now i r st = (r, { st with oldest := oldest }) ∧
        ((oldest = some (i, r) ∧ ∀ j o, st.oldest = some (j, o) → r.time ≤ o.time) ∨
          (oldest = st.oldest ∧ ∃ j o, st.oldest = some (j, o) ∧ o.time ≤ r.time))) := by
  unfold Sweep.classify
  by_cases hfree : r.sentTo = none
  · exact .inl ⟨r.free_iff.mpr hfree, if_pos hfree⟩
  have huse : r.inUse = true := r.inUse_iff.mpr hfree
  rw [if_neg hfree]
  by_cases hold : now - r.time ≥ 4 * timeout
  · rw [if_pos hold]
    exact .inr (.inl ⟨expired_iff.mpr ⟨huse, hold⟩, rfl⟩)
  rw [if_neg hold]
  refine .inr (.inr ⟨huse, by simp [expired, hold], ?_⟩)
  cases ho : st.oldest with
  | none => exact ⟨_, rfl, .inl ⟨rfl, nofun⟩⟩
  | some x =>
    obtain ⟨j, o⟩ := x
    by_cases hle : r.time - o.time ≤ 0
    · refine ⟨some (i, r), by simp only [hle, if_true], .inl ⟨rfl, ?_⟩⟩
      intro j' o' he
      cases he
      omega
    · refine ⟨some (j, o), ?_, .inr ⟨rfl, j, o, rfl, by omega⟩⟩
      simp only [hle, if_false, ← ho]

/-- One turn of the loop. -/
theorem swept_step {now : Int} {before after : List (PeerRequestRecord E)} {st : Sweep E}
    (h : Swept now before after st) (r : PeerRequestRecord E) :
    Swept now (before ++ [r]) (after ++ [(Sweep.classify now after.length r st).1])
      (Sweep.tally now (Sweep.classify now after.length r st).1
        (Sweep.classify now after.length r st).2) := by
  obtain ⟨hfree, hturn⟩ | ⟨_, hturn⟩ | ⟨huse, _, oldest, hturn, ho⟩ :=
    classify_cases now after.length r st
  · have hnone := r.free_iff.mp hfree
    rw [hturn, tally_free _ hnone]
    exact swept_free h r r hnone (fun hr => hr r List.mem_cons_self hnone) rfl rfl
  · rw [hturn, tally_free _ rfl]
    exact swept_free h r _ rfl (fun _ => rfl) rfl rfl
  · rw [hturn, tally_used _ (r.inUse_iff.mp huse)]
    exact swept_used h r rfl rfl ho

theorem swept_loop {now : Int} {before after : List (PeerRequestRecord E)} {st : Sweep E}
    (h : Swept now before after st) (rs : List (PeerRequestRecord E)) :
    Swept now (before ++ rs) (after ++ (Sweep.loop now after.length rs st).1)
      (Sweep.loop now after.length rs st).2 := by
  induction rs generalizing before after st with
  | nil =>
    rw [Sweep.loop, List.append_nil, List.append_nil]
    exact h
  | cons r rs ih =>
    have hrest := ih (swept_step h r)
    rw [List.length_append, List.length_singleton, List.append_assoc, List.append_assoc] at hrest
    exact hrest

theorem split_at {as : List (PeerRequestRecord E)} {i : Nat} {x : PeerRequestRecord E}
    (h : as[i]? = some x) :
    ∃ a b, as = a ++ x :: b ∧ a.length = i ∧ ∀ y, as.set i y = a ++ y :: b := by
  obtain ⟨hi, rfl⟩ := List.getElem?_eq_some_iff.mp h
  have hlen : (as.take i).length = i := List.length_take_of_le (Nat.le_of_lt hi)
  have hsplit : as = as.take i ++ as[i] :: as.drop (i + 1) := by
    rw [← List.drop_eq_getElem_cons hi, List.take_append_drop]
  refine ⟨as.take i, as.drop (i + 1), hsplit, hlen, ?_⟩
  intro y
  conv => lhs; rw [hsplit]
  rw [List.set_append_right _ _ (by omega), hlen, Nat.sub_self, List.set_cons_zero]

theorem freed_place {pr : PeerRequests E} {i : Nat} {r : PeerRequestRecord E}
    (h : pr.records[i]? = some r) : (pr.freePeerRequestRecord i r).records[i]? = some r.freed :=
  List.getElem?_set_self (List.getElem?_eq_some_iff.mp h).1

/-- The record GetNewRecord returns is free, and no other record came into use. -/
structure NewRecord (pr pr' : PeerRequests E) (i : Nat) (r : PeerRequestRecord E) : Prop where
  free : r.sentTo = none
  place : ∃ a b, pr'.records = a ++ r :: b ∧ a.length = i ∧
    (a ++ b).filter PeerRequestRecord.inUse <+ pr.records.filter PeerRequestRecord.inUse
  tidy : Tidy pr.records → r.additional = [] ∧ Tidy pr'.records
  length : pr.records.length ≤ maxFwdQueries → pr'.records.length ≤ maxFwdQueries

theorem filter_append_free {a b : List (PeerRequestRecord E)} {x : PeerRequestRecord E}
    (h : x.sentTo = none) : (a ++ x :: b).filter PeerRequestRecord.inUse =
      (a ++ b).filter PeerRequestRecord.inUse := by
  have hnot : x.inUse = false := by rw [PeerRequestRecord.inUse, h]; rfl
  rw [List.filter_append, List.filter_append, List.filter_cons_of_neg (by simp [hnot])]

theorem filter_append_sublist (a b : List (PeerRequestRecord E)) (x : PeerRequestRecord E) :
    (a ++ b).filter PeerRequestRecord.inUse <+ (a ++ x :: b).filter PeerRequestRecord.inUse :=
  ((List.Sublist.refl a).append (List.sublist_cons_self x b)).filter _

/- When the loop found no target and the oldest record is young, all records are young,
   so the count that was not refused bounds their number. -/
theorem swept_young {now : Int} {before after : List (PeerRequestRecord E)} {st : Sweep E}
    (h : Swept now before after st) (ht : st.target = none)
    (ho : ∀ i o, st.oldest = some (i, o) → now - o.time < timeout) : after.length = st.count := by
  obtain ⟨_, hcount, hmin⟩ := h.busy ht
  rw [hcount, eq_comm, List.countP_eq_length]
  intro r hr
  obtain ⟨i, o, hio, hle⟩ := hmin r hr
  have hyoung := ho i o hio
  simp only [decide_eq_true_eq]
  omega

section TakeRecord
variable {before pr : PeerRequests E} {now : Int} {st : Sweep E}

theorem newRecord_target (h : Swept now before.records pr.records st) {i : Nat}
    {r : PeerRequestRecord E} (ht : st.target = some (i, r)) :
    NewRecord before (pr.setRecord i { r with time := now }) i { r with time := now } := by
  obtain ⟨hi, hfree⟩ := h.target i r ht
  obtain ⟨a, b, heq, hlen, hset⟩ := split_at hi
  have hsub := h.inFlight
  rw [heq, filter_append_free hfree] at hsub
  refine ⟨hfree, ⟨a, b, hset _, hlen, hsub⟩, ?_, ?_⟩
  · intro htidy
    have hafter := h.tidy htidy
    rw [heq, tidy_append, tidy_cons] at hafter
    refine ⟨hafter.2.1 hfree, ?_⟩
    simp only [setRecord, hset, tidy_append, tidy_cons]
    exact hafter
  · intro hle
    rw [← h.length] at hle
    simpa [setRecord] using hle

theorem newRecord_oldest (h : Swept now before.records pr.records st) {i : Nat}
    {o r : PeerRequestRecord E} (ho : st.oldest = some (i, o)) (hfree : r.sentTo = none)
    (hadd : r.additional = []) :
    NewRecord before ((pr.freePeerRequestRecord i o).setRecord i r) i r := by
  obtain ⟨a, b, heq, hlen, hset⟩ := split_at (h.oldest i o ho)
  have hsub := (filter_append_sublist a b o).trans (heq ▸ h.inFlight)
  have hrecords : ((pr.freePeerRequestRecord i o).setRecord i r).records = a ++ r :: b := by
    simp only [freePeerRequestRecord, setRecord, List.set_set]
    exact hset r
  refine ⟨hfree, ⟨a, b, hrecords, hlen, hsub⟩, ?_, ?_⟩
  · intro htidy
    have hafter := h.tidy htidy
    rw [heq, tidy_append, tidy_cons] at hafter
    refine ⟨hadd, ?_⟩
    rw [hrecords, tidy_append, tidy_cons]
    exact ⟨hafter.1, fun _ => hadd, hafter.2.2⟩
  · intro hle
    rw [← h.length] at hle
    simpa [freePeerRequestRecord, setRecord] using hle

theorem newRecord_fresh (h : Swept now before.records pr.records st)
    (hcount : st.count < maxFwdQueries) (ht : st.target = none)
    (ho : ∀ i o, st.oldest = some (i, o) → now - o.time < timeout) {r : PeerRequestRecord E}
    (hfree : r.sentTo = none) (hadd : r.additional = []) :
    NewRecord before { pr with records := r :: pr.records } 0 r := by
  refine ⟨hfree, ⟨[], pr.records, rfl, rfl, h.inFlight⟩, ?_, ?_⟩
  · intro htidy
    exact ⟨hadd, tidy_cons.mpr ⟨fun _ => hadd, h.tidy htidy⟩⟩
  · intro _
    have hyoung := swept_young h ht ho
    simp only [List.length_cons]
    omega

theorem takeRecord_new (fresh : PeerRequestRecord E)
    (h : Swept now before.records pr.records st) (hcount : st.count < maxFwdQueries) :
    NewRecord before (pr.takeRecord now fresh st).2 (pr.takeRecord now fresh st).1.1
      (pr.takeRecord now fresh st).1.2 := by
  unfold takeRecord
  cases ht : st.target with
  | some x => exact newRecord_target h ht
  | none =>
    cases ho : st.oldest.filter fun x => now - x.2.time ≥ timeout with
    | some x => exact newRecord_oldest h (Option.filter_eq_some_iff.mp ho).1 rfl rfl
    | none =>
      refine newRecord_fresh h hcount ht ?_ rfl rfl
      intro i o hio
      rw [hio, Option.filter_some] at ho
      by_contra hge
      simp [show timeout ≤ now - o.time by omega] at ho

end TakeRecord

theorem swept_sweep (pr : PeerRequests E) (now : Int) :
    Swept now pr.records (pr.sweep now).1.records (pr.sweep now).2 := by
  have hs := swept_loop (swept_nil now pr.sources) pr.records
  simp only [List.nil_append, List.length_nil] at hs
  exact hs

/- What GetNewRecord counts: the records in use that are younger than the timeout. -/
def busy (now : Int) (r : PeerRequestRecord E) : Bool := r.inUse && decide (now - r.time < timeout)

theorem turn_count (now : Int) (i : Nat) (r : PeerRequestRecord E) (st : Sweep E) :
    (Sweep.tally now (Sweep.classify now i r st).1 (Sweep.classify now i r st).2).count =
      st.count + if busy now r then 1 else 0 := by
  obtain ⟨hfree, hturn⟩ | ⟨hexp, hturn⟩ | ⟨huse, _, oldest, hturn, _⟩ := classify_cases now i r st
  · rw [hturn, tally_free _ (r.free_iff.mp hfree)]
    simp [busy, hfree]
  · have hage : ¬ now - r.time < timeout := by
      have hold := (expired_iff.mp hexp).2
      simp only [timeout] at hold ⊢
      omega
    rw [hturn, tally_free _ rfl]
    simp [busy, hage]
  · rw [hturn, tally_used _ (r.inUse_iff.mp huse)]
    simp [busy, huse]

theorem loop_count (now : Int) (i : Nat) (rs : List (PeerRequestRecord E)) (st : Sweep E) :
    (Sweep.loop now i rs st).2.count = st.count + rs.countP (busy now) := by
  induction rs generalizing i st with
  | nil => rfl
  | cons r rs ih =>
    have hturn := turn_count now i r st
    simp only [Sweep.loop, ih, hturn, List.countP_cons]
    omega

theorem sweep_count (pr : PeerRequests E) (now : Int) :
    (pr.sweep now).2.count = pr.records.countP (busy now) := by
  have hloop := loop_count now 0 pr.records ⟨none, none, 0, pr.sources⟩
  rw [Nat.zero_add] at hloop
  exact hloop

/-- GetNewRecord finds no record exactly when 150 young ones are in use. -/
theorem getNewRecord_none_iff (pr : PeerRequests E) (now : Int) (fresh : PeerRequestRecord E) :
    (pr.getNewRecord now false fresh).1 = none ↔ maxFwdQueries ≤ pr.records.countP (busy now) := by
  unfold getNewRecord
  simp only [sweep_count, true_and]
  by_cases h : pr.records.countP (busy now) ≥ maxFwdQueries
  · simp [h]
  · simp [h]

/-- The two ways GetNewRecord can end. -/
theorem getNewRecord_cases (pr : PeerRequests E) (now : Int) (fresh : PeerRequestRecord E) :
    (∃ pr', pr.getNewRecord now false fresh = (none, pr') ∧
      pr'.records.filter PeerRequestRecord.inUse <+ pr.records.filter PeerRequestRecord.inUse ∧
      (Tidy pr.records → Tidy pr'.records) ∧ pr'.records.length = pr.records.length) ∨
    ∃ i r pr', pr.getNewRecord now false fresh = (some (i, r), pr') ∧ NewRecord pr pr' i r := by
  have hs := swept_sweep pr now
  unfold getNewRecord
  by_cases hcount : (pr.sweep now).2.count ≥ maxFwdQueries
  · left
    refine ⟨(pr.sweep now).1, ?_, hs.inFlight, hs.tidy, hs.length⟩
    simp only [hcount, and_true, if_true]
  · right
    refine ⟨_, _, _, ?_, takeRecord_new fresh hs (by omega)⟩
    simp only [hcount, and_false, if_false]

theorem kept_of_full {pr pr' : PeerRequests E} {now : Int} {fresh : PeerRequestRecord E}
    (h : pr.getNewRecord now false fresh = (none, pr')) :
    pr'.records.filter PeerRequestRecord.inUse <+ pr.records.filter PeerRequestRecord.inUse ∧
      (Tidy pr.records → Tidy pr'.records) ∧ pr'.records.length = pr.records.length := by
  obtain ⟨after, hget, hkept⟩ | ⟨i, r, after, hget, _⟩ := getNewRecord_cases pr now fresh
  · rw [hget] at h
    cases h
    exact hkept
  · rw [hget] at h
    cases h

theorem newRecord_of_get {pr pr' : PeerRequests E} {now : Int} {fresh r : PeerRequestRecord E}
    {i : Nat} (h : pr.getNewRecord now false fresh = (some (i, r), pr')) :
    NewRecord pr pr' i r := by
  obtain ⟨after, hget, _⟩ | ⟨j, x, after, hget, hnew⟩ := getNewRecord_cases pr now fresh
  · rw [hget] at h
    cases h
  · rw [hget] at h
    cases h
    exact hnew

/- The first record in the list that a lookup accepts. -/
def find (accept : PeerRequestRecord E → Bool) :
    Nat → List (PeerRequestRecord E) → Option (Nat × PeerRequestRecord E)
  | _, [] => none
  | i, r :: rs => if accept r then some (i, r) else find accept (i + 1) rs

def lookup (pr : PeerRequests E) (id : UInt16) (hash : List UInt8) :
    Option (Nat × PeerRequestRecord E) :=
  find (fun r => r.inUse && r.newId == id && r.hash == hash) 0 pr.records

def lookupByQuery (pr : PeerRequests E) (hash : List UInt8) (flags flagmask : UInt32) :
    Option (Nat × PeerRequestRecord E) :=
  find (fun r => r.inUse && r.flags &&& flagmask == flags && r.hash == hash) 0 pr.records

/- Takes a node from the pool, or a new one while there are fewer than 150. -/
def getNewPeerSource (pr : PeerRequests E) : Option (PeerRequests E) :=
  match pr.sources with
  | _ :: sources => some { pr with sources }
  | [] =>
    if pr.sourceCount.toNat < maxFwdQueries then
      some { pr with sourceCount := pr.sourceCount + 1 }
    else none

theorem getNewPeerSource_records {pr pr' : PeerRequests E} (h : pr.getNewPeerSource = some pr') :
    pr'.records = pr.records := by
  unfold getNewPeerSource at h
  split at h
  · cases h
    rfl
  · split at h
    · cases h
      rfl
    · cases h

theorem getNewPeerSource_none_iff (pr : PeerRequests E) :
    pr.getNewPeerSource = none ↔ pr.sources = [] ∧ maxFwdQueries ≤ pr.sourceCount.toNat := by
  unfold getNewPeerSource
  cases hs : pr.sources with
  | cons x xs => simp
  | nil =>
    by_cases hc : pr.sourceCount.toNat < maxFwdQueries
    · simp [hc, Nat.not_le.mpr hc]
    · simp [hc, Nat.le_of_not_lt hc]

def usesId (pr : PeerRequests E) (id : UInt16) : Bool :=
  pr.records.any fun r => r.inUse && r.newId == id

/- distribute(1, 0xffff) on one draw. -/
def distribute (d : Fin 0xffff) : UInt16 := UInt16.ofNat (d.val + 1)

/- draws are the values the generator gives one after the other; the loop goes on until
   one of them is not in use. -/
def getNewId (pr : PeerRequests E) : List (Fin 0xffff) → Option UInt16
  | [] => none
  | d :: draws => if pr.usesId (distribute d) then getNewId pr draws else some (distribute d)

theorem find_some {accept : PeerRequestRecord E → Bool} {i j : Nat}
    {rs : List (PeerRequestRecord E)} {r : PeerRequestRecord E}
    (h : find accept i rs = some (j, r)) : i ≤ j ∧ rs[j - i]? = some r ∧ accept r = true := by
  induction rs generalizing i with
  | nil => cases h
  | cons x rs ih =>
    by_cases hx : accept x = true
    · rw [find, if_pos hx] at h
      cases h
      exact ⟨Nat.le_refl _, by simp, hx⟩
    · rw [find, if_neg hx] at h
      obtain ⟨hle, hget, hr⟩ := ih h
      have hsub : j - i = j - (i + 1) + 1 := by omega
      exact ⟨by omega, by rw [hsub, List.getElem?_cons_succ, hget], hr⟩

theorem find_none {accept : PeerRequestRecord E → Bool} {i : Nat}
    {rs : List (PeerRequestRecord E)} (h : find accept i rs = none) :
    ∀ r ∈ rs, accept r = false := by
  induction rs generalizing i with
  | nil => simp
  | cons x rs ih =>
    by_cases hx : accept x = true
    · rw [find, if_pos hx] at h
      cases h
    · rw [find, if_neg hx] at h
      intro r hr
      cases hr with
      | head => simpa using hx
      | tail _ hr => exact ih h r hr

theorem getNewId_isSome {pr : PeerRequests E} {draws : List (Fin 0xffff)}
    (h : ∃ d ∈ draws, pr.usesId (distribute d) = false) : ∃ id, pr.getNewId draws = some id := by
  induction draws with
  | nil =>
    obtain ⟨d, hd, _⟩ := h
    cases hd
  | cons x draws ih =>
    by_cases hx : pr.usesId (distribute x) = true
    · rw [getNewId, if_pos hx]
      obtain ⟨d, hd, hu⟩ := h
      cases hd with
      | head =>
        rw [hu] at hx
        cases hx
      | tail _ hd => exact ih ⟨d, hd, hu⟩
    · rw [getNewId, if_neg hx]
      exact ⟨_, rfl⟩

theorem distribute_ne_zero (d : Fin 0xffff) : distribute d ≠ 0 := by
  intro h
  have hn := congrArg UInt16.toNat h
  simp only [distribute, UInt16.toNat_ofNat', UInt16.toNat_zero] at hn
  have hd := d.isLt
  omega

/- What the loop of GetNewId looks for. -/
def Admissible (pr : PeerRequests E) (id : UInt16) : Prop := id ≠ 0 ∧ pr.usesId id = false

theorem getNewId_admissible {pr : PeerRequests E} {draws : List (Fin 0xffff)} {id : UInt16}
    (h : pr.getNewId draws = some id) : pr.Admissible id := by
  induction draws with
  | nil => cases h
  | cons d draws ih =>
    by_cases hd : pr.usesId (distribute d) = true
    · rw [getNewId, if_pos hd] at h
      exact ih h
    · rw [getNewId, if_neg hd] at h
      cases h
      exact ⟨distribute_ne_zero d, by simpa using hd⟩

theorem distribute_injective : Function.Injective distribute := by
  intro c d h
  have hn := congrArg UInt16.toNat h
  simp only [distribute, UInt16.toNat_ofNat'] at hn
  have hc := c.isLt
  have hd := d.isLt
  ext
  omega

/-- At most 150 records are in the table, so the loop of GetNewId can always end. -/
theorem exists_unused_id {pr : PeerRequests E} (h : pr.records.length ≤ maxFwdQueries) :
    ∃ d, pr.usesId (distribute d) = false := by
  by_contra hall
  push Not at hall
  have hsub : (List.finRange 0xffff).map distribute ⊆ pr.records.map PeerRequestRecord.newId := by
    intro id hid
    obtain ⟨d, _, rfl⟩ := List.mem_map.mp hid
    have hu := hall d
    simp only [usesId, ne_eq, Bool.not_eq_false, List.any_eq_true, Bool.and_eq_true,
      beq_iff_eq] at hu
    obtain ⟨r, hr, _, hnew⟩ := hu
    exact List.mem_map.mpr ⟨r, hr, hnew⟩
  have hnodup : ((List.finRange 0xffff).map distribute).Nodup :=
    (List.nodup_finRange _).map distribute_injective
  have hlen := (List.subperm_of_subset hnodup hsub).length_le
  simp only [List.length_map, List.length_finRange, maxFwdQueries] at hlen h
  omega

end PeerRequests

/- The draws of the examples. -/
def firstDraw : Fin 0xffff := 0
def secondDraw : Fin 0xffff := 1

end DnsWrapper.Bookkeeping
