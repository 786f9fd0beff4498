import DnsWrapper.PeerRequests

/-! What a call of GetNewRecord does to the whole table. Its loop frees the records that are
four timeouts old, keeps a free one and the oldest one in mind and counts the young ones; only
the end of the function takes a record, and at most one that the loop left in use. -/
namespace DnsWrapper.Bookkeeping
open scoped List
variable {E : Type}

namespace PeerRequests

/- What the loop leaves of a record. -/
def collect (now : Int) (r : PeerRequestRecord E) : PeerRequestRecord E :=
  if expired now r then { r.freed with fromTimedOut := true } else r

theorem tally_target (now : Int) (r : PeerRequestRecord E) (st : Sweep E) :
    (Sweep.tally now r st).target = st.target ∧ (Sweep.tally now r st).sources = st.sources := by
  unfold Sweep.tally
  split
  · exact ⟨rfl, rfl⟩
  · exact ⟨rfl, rfl⟩

/-- The loop changes each record by itself. -/
theorem loop_records (now : Int) (i : Nat) (rs : List (PeerRequestRecord E)) (st : Sweep E) :
    (Sweep.loop now i rs st).1 = rs.map (collect now) := by
  induction rs generalizing i st with
  | nil => rfl
  | cons r rs ih =>
    have hturn : (Sweep.classify now i r st).1 = collect now r := by
      obtain ⟨hfree, h⟩ | ⟨hexp, h⟩ | ⟨_, hexp, _, h, _⟩ := classify_cases now i r st
      · rw [h, collect, if_neg (by simp [expired, hfree])]
      · rw [h, collect, if_pos hexp]
      · rw [h, collect, if_neg (by simp [hexp])]
    simp only [Sweep.loop, ih, hturn, List.map_cons]

/-- The sources behind the records that expired are in the pool, each of them once. -/
theorem loop_sources (now : Int) (i : Nat) (rs : List (PeerRequestRecord E)) (st : Sweep E) :
    (Sweep.loop now i rs st).2.sources ~
      (rs.filter (expired now)).flatMap PeerRequestRecord.additional ++ st.sources := by
  induction rs generalizing i st with
  | nil => exact List.Perm.refl _
  | cons r rs ih =>
    have hrest := ih (i + 1) (Sweep.tally now (Sweep.classify now i r st).1
      (Sweep.classify now i r st).2)
    rw [(tally_target ..).2] at hrest
    refine hrest.trans ?_
    obtain ⟨hfree, h⟩ | ⟨hexp, h⟩ | ⟨_, hexp, _, h, _⟩ := classify_cases now i r st
    · rw [h, List.filter_cons_of_neg (by simp [expired, hfree])]
    · rw [h, List.filter_cons_of_pos hexp, List.flatMap_cons, ← List.append_assoc]
      exact List.perm_append_comm.append_right _
    · rw [h, List.filter_cons_of_neg (by simp [hexp])]

/- Without a target every record is in use, and the loop freed none. -/
theorem loop_target {now : Int} {i : Nat} {rs : List (PeerRequestRecord E)} {st : Sweep E}
    (h : (Sweep.loop now i rs st).2.target = none) :
    st.target = none ∧ ∀ r ∈ rs, r.inUse = true ∧ now - r.time < 4 * timeout := by
  induction rs generalizing i st with
  | nil => exact ⟨h, by simp⟩
  | cons r rs ih =>
    have hloop : (Sweep.loop now (i + 1) rs (Sweep.tally now (Sweep.classify now i r st).1
        (Sweep.classify now i r st).2)).2.target = none := h
    obtain ⟨ht, hrest⟩ := ih hloop
    rw [(tally_target ..).1] at ht
    obtain ⟨_, hturn⟩ | ⟨_, hturn⟩ | ⟨huse, hexp, oldest, hturn, _⟩ := classify_cases now i r st
    · rw [hturn] at ht
      cases ht
    · rw [hturn] at ht
      cases ht
    · rw [hturn] at ht
      refine ⟨ht, List.forall_mem_cons.mpr ⟨⟨huse, ?_⟩, hrest⟩⟩
      by_contra hage
      rw [expired_iff.mpr ⟨huse, by omega⟩] at hexp
      cases hexp

/-- What becomes of the records in the table. kept are the same records afterwards; extra is
the one that was taken although it had not expired. -/
structure Collected (now : Int) (records kept : List (PeerRequestRecord E))
    (extra : Option (Nat × PeerRequestRecord E)) : Prop where
  length : kept.length = records.length
  unchanged : ∀ (k : Nat) (r : PeerRequestRecord E), records[k]? = some r → r.inUse = true →
    now - r.time < 4 * timeout → extra ≠ some (k, r) → kept[k]? = some r
  freed : ∀ (k : Nat) (r : PeerRequestRecord E), records[k]? = some r → r.inUse = true →
    4 * timeout ≤ now - r.time ∨ extra = some (k, r) →
    ∃ r', kept[k]? = some r' ∧ r'.inUse = false ∧ r'.additional = []
  free : ∀ (k : Nat) (r : PeerRequestRecord E), records[k]? = some r → r.inUse = false →
    ∃ r', kept[k]? = some r' ∧ r'.inUse = false ∧ r'.additional = []
  extra : ∀ k o, extra = some (k, o) → records[k]? = some o ∧ timeout ≤ now - o.time ∧
    ∀ r ∈ records, r.inUse = true ∧ now - r.time < 4 * timeout ∧ o.time ≤ r.time

theorem collected_map {now : Int} {records : List (PeerRequestRecord E)} (h : Tidy records) :
    Collected now records (records.map (collect now)) none where
  length := List.length_map _
  unchanged k r hk _ hage _ := by
    have hexp : ¬ expired now r = true := by
      rw [expired_iff]
      omega
    rw [List.getElem?_map, hk, Option.map_some, collect, if_neg hexp]
  freed k r hk huse hcause := by
    obtain hage | hnone := hcause
    · refine ⟨{ r.freed with fromTimedOut := true }, ?_, rfl, rfl⟩
      rw [List.getElem?_map, hk, Option.map_some, collect, if_pos (expired_iff.mpr ⟨huse, hage⟩)]
    · cases hnone
  free k r hk hfree := by
    refine ⟨r, ?_, hfree, h r (List.mem_of_getElem? hk) (r.free_iff.mp hfree)⟩
    rw [List.getElem?_map, hk, Option.map_some, collect, if_neg (by simp [expired, hfree])]
  extra := nofun

/- A free record is put to use. -/
theorem collected_target {now : Int} {records kept : List (PeerRequestRecord E)}
    (h : Collected now records kept none) {i : Nat} {f g : PeerRequestRecord E}
    (hi : kept[i]? = some f) (hf : f.inUse = false) (hg : g.inUse = false)
    (hadd : g.additional = []) : Collected now records (kept.set i g) none where
  length := by rw [List.length_set, h.length]
  unchanged k r hk huse hage hne := by
    have hkept := h.unchanged k r hk huse hage hne
    by_cases hki : i = k
    · subst hki
      rw [hi] at hkept
      cases hkept
      rw [hf] at huse
      cases huse
    · rw [List.getElem?_set_ne hki, hkept]
  freed k r hk huse hcause := by
    by_cases hki : i = k
    · subst hki
      exact ⟨g, List.getElem?_set_self (List.getElem?_eq_some_iff.mp hi).1, hg, hadd⟩
    · rw [List.getElem?_set_ne hki]
      exact h.freed k r hk huse hcause
  free k r hk hfree := by
    by_cases hki : i = k
    · subst hki
      exact ⟨g, List.getElem?_set_self (List.getElem?_eq_some_iff.mp hi).1, hg, hadd⟩
    · rw [List.getElem?_set_ne hki]
      exact h.free k r hk hfree
  extra := nofun

/- The oldest record is taken from a table without a free one. -/
theorem collected_oldest {now : Int} {records : List (PeerRequestRecord E)} {i : Nat}
    {o g : PeerRequestRecord E} (hi : records[i]? = some o) (hage : timeout ≤ now - o.time)
    (hall : ∀ r ∈ records, r.inUse = true ∧ now - r.time < 4 * timeout ∧ o.time ≤ r.time)
    (hg : g.inUse = false) (hadd : g.additional = []) :
    Collected now records (records.set i g) (some (i, o)) where
  length := List.length_set
  unchanged k r hk _ _ hne := by
    rw [List.getElem?_set_ne, hk]
    rintro rfl
    rw [hi] at hk
    cases hk
    exact hne rfl
  freed k r hk _ hcause := by
    obtain hold | hextra := hcause
    · have hyoung := (hall r (List.mem_of_getElem? hk)).2.1
      omega
    · cases hextra
      exact ⟨g, List.getElem?_set_self (List.getElem?_eq_some_iff.mp hi).1, hg, hadd⟩
  free k r hk hfree := by
    rw [(hall r (List.mem_of_getElem? hk)).1] at hfree
    cases hfree
  extra k o' hextra := by
    cases hextra
    exact ⟨hi, hage, hall⟩

theorem sweep_eq (pr : PeerRequests E) (now : Int) :
    (pr.sweep now).1.records = pr.records.map (collect now) ∧
      (pr.sweep now).1.sources ~
        (pr.records.filter (expired now)).flatMap PeerRequestRecord.additional ++ pr.sources :=
  ⟨loop_records .., loop_sources ..⟩

theorem Collected.young {now : Int} {records kept : List (PeerRequestRecord E)}
    {extra : Option (Nat × PeerRequestRecord E)} (h : Collected now records kept extra) {k : Nat}
    {r : PeerRequestRecord E} (hk : records[k]? = some r) (huse : r.inUse = true)
    (hage : now - r.time < timeout) : kept[k]? = some r := by
  have hbelow : now - r.time < 4 * timeout := by
    simp only [timeout] at hage ⊢
    omega
  apply h.unchanged k r hk huse hbelow
  intro hextra
  have hold := (h.extra k r hextra).2.1
  omega

/-- The table after GetNewRecord, which returned out: a new record in front of it if one was
allocated, and the pool with the sources of all records that were freed. -/
structure Rearranged (now : Int) (pr pr' : PeerRequests E) (out : Option (Nat × PeerRequestRecord E))
    (new kept : List (PeerRequestRecord E)) (extra : Option (Nat × PeerRequestRecord E)) : Prop where
  records : pr'.records = new ++ kept
  new : new = [] ∨ ∃ r, out = some (0, r) ∧ new = [r]
  collected : Collected now pr.records kept extra
  pool : pr'.sources ~ (pr.records.filter (expired now) ++ (extra.map Prod.snd).toList).flatMap
    PeerRequestRecord.additional ++ pr.sources

/-- The record returned is free, and time starts anew for it. -/
structure Returned (now : Int) (pr' : PeerRequests E) (i : Nat) (r : PeerRequestRecord E) : Prop where
  place : pr'.records[i]? = some r
  free : r.inUse = false
  additional : r.additional = []
  time : r.time = now

section TakeRecord
variable {now : Int} {pr : PeerRequests E}

theorem rearranged_sweep (now : Int) (h : Tidy pr.records) :
    Rearranged now pr (pr.sweep now).1 none [] (pr.records.map (collect now)) none where
  records := (sweep_eq pr now).1
  new := .inl rfl
  collected := collected_map h
  pool := by simpa using (sweep_eq pr now).2

theorem take_target (h : Tidy pr.records) {i : Nat} {f : PeerRequestRecord E}
    (ht : (pr.sweep now).2.target = some (i, f)) :
    Returned now ((pr.sweep now).1.setRecord i { f with time := now }) i { f with time := now } ∧
      Rearranged now pr ((pr.sweep now).1.setRecord i { f with time := now })
        (some (i, { f with time := now })) []
        ((pr.records.map (collect now)).set i { f with time := now }) none := by
  have hs := swept_sweep pr now
  have hloop := rearranged_sweep now h
  obtain ⟨hi, hfree⟩ := hs.target i f ht
  have hadd : f.additional = [] := hs.tidy h f (List.mem_of_getElem? hi) hfree
  refine ⟨⟨?_, f.free_iff.mpr hfree, hadd, rfl⟩, ?_, .inl rfl, ?_, hloop.pool⟩
  · exact List.getElem?_set_self (List.getElem?_eq_some_iff.mp hi).1
  · exact congrArg (List.set · i { f with time := now }) hloop.records
  · rw [hloop.records, List.nil_append] at hi
    exact collected_target hloop.collected hi (f.free_iff.mpr hfree) (f.free_iff.mpr hfree) hadd

/- From here on the loop left the table as it was. -/
theorem sweep_busy (ht : (pr.sweep now).2.target = none) :
    (pr.sweep now).1.records = pr.records ∧ (pr.sweep now).1.sources ~ pr.sources ∧
      pr.records.filter (expired now) = [] ∧
      ∀ r ∈ pr.records, r.inUse = true ∧ now - r.time < 4 * timeout := by
  have hall := (loop_target ht).2
  have hnone : pr.records.filter (expired now) = [] := by
    rw [List.filter_eq_nil_iff]
    intro r hr
    rw [expired_iff]
    have hage := (hall r hr).2
    omega
  have hsources := (sweep_eq pr now).2
  rw [hnone] at hsources
  exact ⟨((swept_sweep pr now).busy ht).1, hsources, hnone, hall⟩

theorem take_oldest (ht : (pr.sweep now).2.target = none) {i : Nat} {o g : PeerRequestRecord E}
    (ho : (pr.sweep now).2.oldest = some (i, o)) (hage : timeout ≤ now - o.time)
    (hg : g.inUse = false) (hadd : g.additional = []) (hnow : g.time = now) :
    Returned now (((pr.sweep now).1.freePeerRequestRecord i o).setRecord i g) i g ∧
      Rearranged now pr (((pr.sweep now).1.freePeerRequestRecord i o).setRecord i g) (some (i, g)) []
        (pr.records.set i g) (some (i, o)) := by
  have hs := swept_sweep pr now
  obtain ⟨hrecords, hsources, hnone, hall⟩ := sweep_busy ht
  have hi : pr.records[i]? = some o := by
    rw [← hrecords]
    exact hs.oldest i o ho
  have hset : (((pr.sweep now).1.freePeerRequestRecord i o).setRecord i g).records =
      pr.records.set i g := by
    rw [setRecord, freePeerRequestRecord, setRecord, List.set_set, hrecords]
  have hmin : ∀ r ∈ pr.records, r.inUse = true ∧ now - r.time < 4 * timeout ∧ o.time ≤ r.time := by
    intro r hr
    obtain ⟨_, _, hsome, hle⟩ := (hs.busy ht).2.2 r (hrecords ▸ hr)
    rw [ho] at hsome
    cases hsome
    exact ⟨(hall r hr).1, (hall r hr).2, hle⟩
  refine ⟨⟨?_, hg, hadd, hnow⟩, hset, .inl rfl, collected_oldest hi hage hmin hg hadd, ?_⟩
  · rw [hset]
    exact List.getElem?_set_self (List.getElem?_eq_some_iff.mp hi).1
  · rw [hnone]
    simpa [setRecord, freePeerRequestRecord] using hsources.append_left o.additional

theorem take_fresh (h : Tidy pr.records) {g : PeerRequestRecord E} (hg : g.inUse = false)
    (hadd : g.additional = []) (hnow : g.time = now) :
    Returned now { (pr.sweep now).1 with records := g :: (pr.sweep now).1.records } 0 g ∧
      Rearranged now pr { (pr.sweep now).1 with records := g :: (pr.sweep now).1.records }
        (some (0, g)) [g] (pr.records.map (collect now)) none := by
  have hloop := rearranged_sweep now h
  refine ⟨⟨rfl, hg, hadd, hnow⟩, ?_, .inr ⟨g, rfl, rfl⟩, hloop.collected, hloop.pool⟩
  rw [hloop.records]
  rfl

/-- The end of GetNewRecord after its loop. -/
theorem takeRecord_returned (now : Int) (fresh : PeerRequestRecord E) (h : Tidy pr.records) :
    ∃ i r pr', (pr.sweep now).1.takeRecord now fresh (pr.sweep now).2 = ((i, r), pr') ∧
      Returned now pr' i r ∧ ∃ new kept extra, Rearranged now pr pr' (some (i, r)) new kept extra := by
  unfold takeRecord
  cases ht : (pr.sweep now).2.target with
  | some x =>
    obtain ⟨hreturned, hrearranged⟩ := take_target h ht
    exact ⟨_, _, _, rfl, hreturned, _, _, _, hrearranged⟩
  | none =>
    cases ho : (pr.sweep now).2.oldest.filter fun x => now - x.2.time ≥ timeout with
    | some x =>
      obtain ⟨holdest, hage⟩ := Option.filter_eq_some_iff.mp ho
      obtain ⟨hreturned, hrearranged⟩ := take_oldest
        (g := { x.2.freed with fromTimedOut := true, time := now }) ht holdest
        (of_decide_eq_true hage) rfl rfl rfl
      exact ⟨_, _, _, rfl, hreturned, _, _, _, hrearranged⟩
    | none =>
      obtain ⟨hreturned, hrearranged⟩ := take_fresh
        (g := { fresh.freed with flags := fresh.flags, fromTimedOut := false, time := now }) h
        rfl rfl rfl
      exact ⟨_, _, _, rfl, hreturned, _, _, _, hrearranged⟩

end TakeRecord

/-- GetNewRecord frees the records that are four timeouts old and at most one more, which is
then the oldest of a table without a free record; it changes no young record, loses no source
of a freed one, and refuses exactly when 150 young records are in use. -/
theorem getNewRecord_collects (pr : PeerRequests E) (now : Int) (force : Bool)
    (fresh : PeerRequestRecord E) (h : Tidy pr.records) :
    ∃ out pr' new kept extra, pr.getNewRecord now force fresh = (out, pr') ∧
      Rearranged now pr pr' out new kept extra ∧
      (∀ (k : Nat) (r : PeerRequestRecord E), pr.records[k]? = some r → r.inUse = true →
        now - r.time < timeout → kept[k]? = some r) ∧
      (out = none ↔ force = false ∧ maxFwdQueries ≤ pr.records.countP (busy now)) ∧
      ∀ i r, out = some (i, r) → Returned now pr' i r := by
  unfold getNewRecord
  simp only [sweep_count]
  by_cases hrefused : force = false ∧ pr.records.countP (busy now) ≥ maxFwdQueries
  · have hloop := rearranged_sweep now h
    rw [if_pos hrefused]
    exact ⟨none, _, _, _, _, rfl, hloop, fun k r => hloop.collected.young,
      ⟨fun _ => hrefused, fun _ => rfl⟩, nofun⟩
  · obtain ⟨i, r, pr', heq, hreturned, new, kept, extra, hrearranged⟩ :=
      takeRecord_returned now fresh h
    rw [if_neg hrefused, heq]
    refine ⟨some (i, r), pr', new, kept, extra, rfl, hrearranged,
      fun k r => hrearranged.collected.young, ⟨nofun, fun hc => absurd hc hrefused⟩, ?_⟩
    rintro _ _ ⟨⟩
    exact hreturned

/- A free record in front of one that has been in use for a minute, for two clients. -/
def agedRecords : PeerRequests Nat :=
  ⟨[⟨⟨1, true, 7⟩, [], none, 0, 0, 0, 0, [], false⟩,
    ⟨⟨2, true, 8⟩, [⟨3, true, 9⟩], some 0, 5, 0, 40, 40, [1], false⟩], [], 1⟩

theorem agedRecords_collected :
    Tidy agedRecords.records ∧ ∃ out pr' new kept extra,
      agedRecords.getNewRecord 100 true ⟨⟨0, true, 0⟩, [], none, 0, 0, 0, 0, [], false⟩ = (out, pr') ∧
        Rearranged 100 agedRecords pr' out new kept extra := by
  have htidy : Tidy agedRecords.records := by
    simp [Tidy, agedRecords]
  obtain ⟨out, pr', new, kept, extra, heq, h, _⟩ := getNewRecord_collects agedRecords 100 true
    ⟨⟨0, true, 0⟩, [], none, 0, 0, 0, 0, [], false⟩ htidy
  exact ⟨htidy, out, pr', new, kept, extra, heq, h⟩

end PeerRequests
end DnsWrapper.Bookkeeping
