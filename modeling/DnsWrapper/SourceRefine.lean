import DnsWrapper.SourcePool

/-! The table with its pointers is the table of lists: every call that the server makes on the
nodes is defined, and does to the chains what the functions on lists say. A node that is dead
still has its memory, and in it what was stored last. -/
namespace DnsWrapper.Bookkeeping
open PointerChain
open scoped List
variable {E : Type}

/- A cell and the nodes of its chain. -/
abbrev Linkage := RecordCell × List Node

/-- The cell has the fields of the record, and its nodes hold the additional sources. -/
structure Mirrors (content : Node → PeerSource E) (y : Linkage) (x : PeerRequestRecord E) : Prop where
  sentTo : y.1.sentTo = x.sentTo
  time : y.1.time = x.time
  fromTimedOut : y.1.fromTimedOut = x.fromTimedOut
  additional : y.2.map content = x.additional

/-- The memory, with the pool and the cells given, holds the table. -/
structure Spells (content : Node → PeerSource E) (h : Heap) (free : List Node)
    (cells : List Linkage) (pr : PeerRequests E) : Prop where
  laid : h.Laid [] free (cells.map Prod.snd)
  fits : h.records = cells.map Prod.fst
  records : List.Forall₂ (Mirrors content) cells pr.records
  sources : free.map content = pr.sources
  count : h.sourceCount = pr.sourceCount

def Backs (content : Node → PeerSource E) (h : Heap) (pr : PeerRequests E) : Prop :=
  ∃ free cells, Spells content h free cells pr

section Split
variable {content : Node → PeerSource E} {h : Heap} {pr : PeerRequests E} {i : Nat}
  {x : PeerRequestRecord E}

theorem chained_cells {next : Node → Option Node} {cells : List Linkage} :
    Heap.Chained next (cells.map Prod.fst) (cells.map Prod.snd) ↔
      ∀ y ∈ cells, Chain next y.1.head y.2 := by
  rw [Heap.Chained, List.forall₂_map_left_iff, List.forall₂_map_right_iff, List.forall₂_same]

theorem Spells.chain {free : List Node} {cells : List Linkage} (hs : Spells content h free cells pr) :
    ∀ y ∈ cells, Chain h.next y.1.head y.2 := by
  have hall := hs.laid.chains
  rwa [hs.fits, ← Heap.Chained, chained_cells] at hall

theorem records_split (hx : pr.records[i]? = some x) :
    ∃ before after, pr.records = before ++ x :: after ∧ before.length = i ∧
      ∀ y, pr.setRecord i y = { pr with records := before ++ y :: after } := by
  obtain ⟨hlt, rfl⟩ := List.getElem?_eq_some_iff.mp hx
  have hlen : (pr.records.take i).length = i := List.length_take_of_le (Nat.le_of_lt hlt)
  refine ⟨pr.records.take i, pr.records.drop (i + 1), ?_, hlen, fun y => ?_⟩
  · rw [← List.drop_eq_getElem_cons hlt, List.take_append_drop]
  · rw [PeerRequests.setRecord, List.set_eq_take_append_cons_drop, if_pos hlt]

theorem Spells.split {free : List Node} {cells : List Linkage} (hs : Spells content h free cells pr)
    {before after : List (PeerRequestRecord E)} (hrecords : pr.records = before ++ x :: after) :
    ∃ a y b, cells = a ++ y :: b ∧ a.length = before.length ∧
      List.Forall₂ (Mirrors content) a before ∧ Mirrors content y x ∧
      List.Forall₂ (Mirrors content) b after := by
  have hall := hs.records.flip
  rw [hrecords] at hall
  obtain ⟨a, rest, rfl, ha, hrest⟩ := Runs.forall₂_append_left hall
  cases hrest with
  | cons hy hb => exact ⟨a, _, _, rfl, ha.length_eq.symm, ha.flip, hy, hb.flip⟩

end Split

section Operations
variable {content : Node → PeerSource E} {h : Heap} {pr : PeerRequests E} {i : Nat}
  {x : PeerRequestRecord E}

/-- A store to fields of a record that are not pointers. -/
theorem modify_backs (hs : Backs content h pr) (hx : pr.records[i]? = some x)
    {f : RecordCell → RecordCell} {y : PeerRequestRecord E} (hf : ∀ r, (f r).head = r.head)
    (hy : ∀ r l, Mirrors content (r, l) x → Mirrors content (f r, l) y) :
    Backs content { h with records := h.records.modify i f } (pr.setRecord i y) := by
  obtain ⟨free, cells, hs⟩ := hs
  obtain ⟨before, after, hrecords, rfl, hset⟩ := records_split hx
  obtain ⟨a, ⟨r, l⟩, b, rfl, hlen, ha, hr, hb⟩ := hs.split hrecords
  have hcells : h.records.modify before.length f = (a ++ (f r, l) :: b).map Prod.fst := by
    rw [hs.fits, List.map_append, List.map_cons, ← hlen, ← List.length_map Prod.fst,
      Heap.modify_middle, List.map_append, List.map_cons]
  have hsnd : (a ++ (f r, l) :: b).map Prod.snd = (a ++ (r, l) :: b).map Prod.snd := by
    simp only [List.map_append, List.map_cons]
  rw [hset]
  refine ⟨free, a ++ (f r, l) :: b, ?_, hcells, List.rel_append ha (.cons (hy r l hr) hb),
    hs.sources, hs.count⟩
  rw [hsnd]
  refine hs.laid.permute ⟨hs.laid.pool, ?_⟩ (List.Perm.refl _) rfl rfl
  rw [hcells, ← hsnd, ← Heap.Chained, chained_cells]
  have hall := hs.chain
  simp only [List.mem_append, List.mem_cons] at hall ⊢
  rintro y (hy' | rfl | hy')
  · exact hall y (.inl hy')
  · rw [hf]
    exact hall (r, l) (.inr (.inl rfl))
  · exact hall y (.inr (.inr hy'))

theorem free_backs (hs : Backs content h pr) (hx : pr.records[i]? = some x) :
    ∃ h', h.freePeerRequestRecord i = some h' ∧
      Backs content h' (pr.freePeerRequestRecord i x) := by
  obtain ⟨free, cells, hs⟩ := hs
  obtain ⟨before, after, hrecords, rfl, hset⟩ := records_split hx
  obtain ⟨a, ⟨r, l⟩, b, rfl, hlen, ha, hr, hb⟩ := hs.split hrecords
  have hlaid := hs.laid
  have hfits := hs.fits
  have hall := hs.chain
  simp only [List.map_append, List.map_cons] at hlaid hfits
  simp only [List.forall_mem_append, List.forall_mem_cons] at hall
  obtain ⟨h', hfree, hlaid', hfits', _, hcount⟩ := Heap.free_laid hlaid hfits hall.2.1
    (chained_cells.mpr hall.1) (chained_cells.mpr hall.2.2)
  rw [List.length_map, hlen] at hfree
  refine ⟨h', hfree, l ++ free, a ++ ({ r with head := none, sentTo := none }, []) :: b, ?_⟩
  rw [PeerRequests.freePeerRequestRecord, hset]
  refine ⟨by simpa using hlaid', by simpa using hfits', ?_, ?_, hcount.trans hs.count⟩
  · exact List.rel_append ha (.cons ⟨rfl, hr.time, hr.fromTimedOut, rfl⟩ hb)
  · rw [List.map_append, hr.additional, hs.sources]

theorem backs_get (hs : Backs content h pr) (hx : pr.records[i]? = some x) :
    ∃ r l, h.records[i]? = some r ∧ Mirrors content (r, l) x := by
  obtain ⟨free, cells, hs⟩ := hs
  obtain ⟨before, after, hrecords, rfl, _⟩ := records_split hx
  obtain ⟨a, ⟨r, l⟩, b, rfl, hlen, _, hr, _⟩ := hs.split hrecords
  refine ⟨r, l, ?_, hr⟩
  rw [hs.fits, List.map_append, List.map_cons, ← hlen, ← List.length_map Prod.fst, Heap.get_middle]

theorem setRecord_setRecord (pr : PeerRequests E) (i : Nat) (y z : PeerRequestRecord E) :
    (pr.setRecord i y).setRecord i z = pr.setRecord i z := by
  rw [PeerRequests.setRecord, PeerRequests.setRecord, PeerRequests.setRecord, List.set_set]

theorem get_setRecord (hx : pr.records[i]? = some x) (y : PeerRequestRecord E) :
    (pr.setRecord i y).records[i]? = some y := by
  rw [PeerRequests.setRecord, List.getElem?_set_self (List.getElem?_eq_some_iff.mp hx).1]

theorem stamp_backs (hs : Backs content h pr) (hx : pr.records[i]? = some x) (now : Int) :
    Backs content (h.stamp now i) (pr.setRecord i { x with time := now }) :=
  modify_backs hs hx (fun _ => rfl) fun _ _ hm => ⟨hm.sentTo, rfl, hm.fromTimedOut, hm.additional⟩

theorem mark_backs (hs : Backs content h pr) (hx : pr.records[i]? = some x) :
    Backs content { h with records := h.records.modify i fun r => { r with fromTimedOut := true } }
      (pr.setRecord i { x with fromTimedOut := true }) :=
  modify_backs hs hx (fun _ => rfl) fun _ _ hm => ⟨hm.sentTo, hm.time, rfl, hm.additional⟩

end Operations

section Scan
variable {content : Node → PeerSource E} {h : Heap} {after rest : List (PeerRequestRecord E)}
  {x : PeerRequestRecord E} {n : UInt16} {sc : Heap.Scan} {st : Sweep E}

/-- Both loops have chosen the same records among those before, after which the table is as it is. -/
structure Follows (sc : Heap.Scan) (st : Sweep E) (after : List (PeerRequestRecord E)) : Prop where
  target : sc.target = st.target.map Prod.fst
  oldest : sc.oldest = st.oldest.map Prod.fst
  count : sc.count = st.count
  chosen : ∀ i r, st.target = some (i, r) → after[i]? = some r
  held : ∀ i o, st.oldest = some (i, o) → after[i]? = some o

theorem Follows.keep (hst : Follows sc st after) (y : PeerRequestRecord E) :
    Follows sc st (after ++ [y]) where
  target := hst.target
  oldest := hst.oldest
  count := hst.count
  chosen i r he := PeerRequests.getElem?_snoc y (hst.chosen i r he)
  held i o he := PeerRequests.getElem?_snoc y (hst.held i o he)

theorem Follows.setTarget (hst : Follows sc st after) (y : PeerRequestRecord E)
    (sources : List (PeerSource E)) :
    Follows { sc with target := some after.length }
      { st with target := some (after.length, y), sources } (after ++ [y]) where
  target := rfl
  oldest := hst.oldest
  count := hst.count
  chosen i r he := by
    cases he
    exact List.getElem?_concat_length
  held i o he := PeerRequests.getElem?_snoc y (hst.held i o he)

theorem Follows.setOldest (hst : Follows sc st after) (y : PeerRequestRecord E) :
    Follows { sc with oldest := some after.length }
      { st with oldest := some (after.length, y) } (after ++ [y]) where
  target := hst.target
  oldest := rfl
  count := hst.count
  chosen i r he := PeerRequests.getElem?_snoc y (hst.chosen i r he)
  held i o he := by
    cases he
    exact List.getElem?_concat_length

theorem set_middle (y : PeerRequestRecord E) :
    (after ++ x :: rest).set after.length y = after ++ y :: rest := by
  rw [List.set_append_right _ _ (Nat.le_refl _), Nat.sub_self, List.set_cons_zero]

theorem choose_backs (now : Int) (hs : Backs content h ⟨after ++ x :: rest, st.sources, n⟩)
    (hst : Follows sc st after) :
    let c := Sweep.classify now after.length x st
    ∃ sc' h', Heap.choose now after.length sc h = some (sc', h') ∧
      Backs content h' ⟨after ++ c.1 :: rest, c.2.sources, n⟩ ∧
      Follows sc' c.2 (after ++ [c.1]) := by
  have hx : (after ++ x :: rest)[after.length]? = some x := by
    rw [List.getElem?_append_right (Nat.le_refl _), Nat.sub_self, List.getElem?_cons_zero]
  obtain ⟨r, l, hr, hmir⟩ := backs_get hs hx
  simp only [Heap.choose, Sweep.classify, hr, Option.bind_eq_bind, Option.bind_some]
  rw [hmir.sentTo, hmir.time]
  by_cases hfree : x.sentTo = none
  · rw [if_pos hfree, if_pos hfree]
    exact ⟨_, h, rfl, hs, hst.setTarget x st.sources⟩
  rw [if_neg hfree, if_neg hfree]
  by_cases hold : now - x.time ≥ 4 * timeout
  · rw [if_pos hold, if_pos hold]
    obtain ⟨h₁, hfreed, hs₁⟩ := free_backs hs hx
    have hs₂ := mark_backs hs₁ (PeerRequests.freed_place hx)
    rw [hfreed, Option.bind_some]
    refine ⟨_, _, rfl, ?_, hst.setTarget _ _⟩
    simpa [PeerRequests.freePeerRequestRecord, PeerRequests.setRecord] using hs₂
  rw [if_neg hold, if_neg hold]
  cases holdest : st.oldest with
  | none =>
    have hsc : sc.oldest = none := by rw [hst.oldest, holdest]; rfl
    simp only [hsc, Option.bind_none]
    exact ⟨_, h, rfl, hs, hst.setOldest x⟩
  | some y =>
    obtain ⟨j, o⟩ := y
    have hsc : sc.oldest = some j := by rw [hst.oldest, holdest]; rfl
    have hj := hst.held j o holdest
    have hlt := (List.getElem?_eq_some_iff.mp hj).1
    obtain ⟨r', l', hr', hmir'⟩ := backs_get (i := j) (x := o) hs (by
      rw [List.getElem?_append_left hlt, hj])
    simp only [hsc, Option.bind_some, hr']
    rw [hmir'.time]
    by_cases hle : x.time - o.time ≤ 0
    · rw [if_pos hle, if_pos hle]
      exact ⟨_, h, rfl, hs, hst.setOldest x⟩
    · rw [if_neg hle, if_neg hle]
      exact ⟨_, h, rfl, hs, hst.keep x⟩

theorem follows_start (sources : List (PeerSource E)) :
    Follows ⟨none, none, 0⟩ (⟨none, none, 0, sources⟩ : Sweep E) [] where
  target := rfl
  oldest := rfl
  count := rfl
  chosen i r he := by cases he
  held i o he := by cases he

theorem tally_backs (now : Int) (hs : Backs content h ⟨after ++ x :: rest, st.sources, n⟩)
    {rs : List (PeerRequestRecord E)} (hst : Follows sc st rs) :
    ∃ sc', Heap.tally now after.length sc h = some sc' ∧ Follows sc' (Sweep.tally now x st) rs := by
  obtain ⟨r, l, hr, hmir⟩ := backs_get (i := after.length) (x := x) hs (by simp)
  simp only [Heap.tally, Sweep.tally, hr, Option.bind_eq_bind, Option.bind_some]
  rw [hmir.sentTo, hmir.time]
  by_cases hbusy : x.sentTo ≠ none ∧ now - x.time < timeout
  · rw [if_pos hbusy, if_pos hbusy]
    exact ⟨_, rfl, hst.target, hst.oldest, congrArg (· + 1) hst.count, hst.chosen, hst.held⟩
  · rw [if_neg hbusy, if_neg hbusy]
    exact ⟨sc, rfl, hst⟩

theorem tally_sources (now : Int) (x : PeerRequestRecord E) (st : Sweep E) :
    (Sweep.tally now x st).sources = st.sources := by
  rw [Sweep.tally]
  split_ifs <;> rfl

/-- The loop of GetNewRecord; the induction is on the records still to come. -/
theorem scan_backs (now : Int) (rest : List (PeerRequestRecord E))
    (hs : Backs content h ⟨after ++ rest, st.sources, n⟩) (hst : Follows sc st after) :
    let s := Sweep.loop now after.length rest st
    ∃ sc' h', h.scan now rest.length after.length sc = some (sc', h') ∧
      Backs content h' ⟨after ++ s.1, s.2.sources, n⟩ ∧ Follows sc' s.2 (after ++ s.1) := by
  induction rest generalizing after h sc st with
  | nil =>
    refine ⟨sc, h, rfl, hs, ?_⟩
    rw [Sweep.loop, List.append_nil]
    exact hst
  | cons x rest ih =>
    obtain ⟨sc₁, h₁, hchoose, hs₁, hst₁⟩ := choose_backs now hs hst
    obtain ⟨sc₂, htally, hst₂⟩ := tally_backs now hs₁ hst₁
    have hsame := tally_sources now (Sweep.classify now after.length x st).1
      (Sweep.classify now after.length x st).2
    rw [← hsame, ← List.singleton_append, ← List.append_assoc] at hs₁
    obtain ⟨sc', h', hscan, hs', hst'⟩ := ih hs₁ hst₂
    rw [List.length_append, List.length_singleton] at hscan hs' hst'
    refine ⟨sc', h', ?_, ?_, ?_⟩
    · simp only [List.length_cons, Heap.scan, hchoose, htally, hscan, Option.bind_eq_bind,
        Option.bind_some]
    · rwa [List.append_assoc, List.singleton_append] at hs'
    · rwa [List.append_assoc, List.singleton_append] at hst'

end Scan

section Calls
variable {content : Node → PeerSource E} {h : Heap} {pr : PeerRequests E} {i : Nat}
  {x : PeerRequestRecord E}

theorem fresh_backs (hs : Backs content h pr) (now : Int) {y : PeerRequestRecord E}
    (hsent : y.sentTo = none) (htime : y.time = now) (htimed : y.fromTimedOut = false)
    (hadd : y.additional = []) :
    Backs content { h with records := ⟨none, none, now, false⟩ :: h.records }
      { pr with records := y :: pr.records } := by
  obtain ⟨free, cells, hs⟩ := hs
  refine ⟨free, (⟨none, none, now, false⟩, []) :: cells, ?_, congrArg _ hs.fits, ?_, hs.sources,
    hs.count⟩
  · exact hs.laid.permute ⟨hs.laid.pool, .cons rfl hs.laid.chains⟩ (List.Perm.refl _) rfl rfl
  · exact .cons ⟨hsent.symm, htime.symm, htimed.symm, hadd.symm⟩ hs.records

theorem backs_length (hs : Backs content h pr) : h.records.length = pr.records.length := by
  obtain ⟨free, cells, hs⟩ := hs
  rw [hs.fits, List.length_map, hs.records.length_eq]

/-- GetNewRecord chooses the same place and leaves the same table. -/
theorem getNewRecord_backs (hs : Backs content h pr) (now : Int) (force : Bool)
    (fresh : PeerRequestRecord E) :
    ∃ h', h.getNewRecord now force =
        some ((pr.getNewRecord now force fresh).1.map Prod.fst, h') ∧
      Backs content h' (pr.getNewRecord now force fresh).2 := by
  have hs₀ : Backs content h ⟨[] ++ pr.records, pr.sources, pr.sourceCount⟩ := hs
  obtain ⟨sc, h₁, hscan, hs₁, hst⟩ := scan_backs now pr.records hs₀ (follows_start pr.sources)
  obtain ⟨records, st, hloop⟩ : ∃ records st,
      Sweep.loop now 0 pr.records ⟨none, none, 0, pr.sources⟩ = (records, st) := ⟨_, _, rfl⟩
  simp only [List.length_nil, List.nil_append, hloop] at hscan hs₁ hst
  rw [Heap.getNewRecord, backs_length hs]
  simp only [hscan, PeerRequests.getNewRecord, PeerRequests.sweep, hloop, Option.bind_eq_bind,
    Option.bind_some, hst.count]
  by_cases hfull : force = false ∧ st.count ≥ maxFwdQueries
  · rw [if_pos hfull, if_pos hfull]
    exact ⟨h₁, rfl, hs₁⟩
  rw [if_neg hfull, if_neg hfull]
  simp only [PeerRequests.takeRecord, Option.map_some]
  cases htarget : st.target with
  | some y =>
    obtain ⟨i, r⟩ := y
    have hsc : sc.target = some i := by rw [hst.target, htarget]; rfl
    simp only [hsc]
    exact ⟨_, rfl, stamp_backs hs₁ (hst.chosen i r htarget) now⟩
  | none =>
    have hsc : sc.target = none := by rw [hst.target, htarget]; rfl
    simp only [hsc, hst.oldest]
    cases holdest : st.oldest with
    | none =>
      simp only [Option.map_none, Option.filter_none]
      exact ⟨_, rfl, fresh_backs hs₁ now rfl rfl rfl rfl⟩
    | some y =>
      obtain ⟨o, x⟩ := y
      have hx : (PeerRequests.mk records st.sources pr.sourceCount).records[o]? = some x :=
        hst.held o x holdest
      obtain ⟨r, l, hr, hmir⟩ := backs_get hs₁ hx
      simp only [Option.map_some, Option.filter_some, hr, Option.any_some]
      rw [hmir.time]
      by_cases hold : now - x.time ≥ timeout
      · simp only [hold, decide_true, if_true]
        obtain ⟨h₂, hfree, hs₂⟩ := free_backs hs₁ hx
        have hx₂ := PeerRequests.freed_place hx
        have hs₃ := mark_backs hs₂ hx₂
        have hs₄ := stamp_backs hs₃ (get_setRecord hx₂ _) now
        rw [setRecord_setRecord] at hs₄
        rw [hfree, Option.bind_some]
        exact ⟨_, rfl, hs₄⟩
      · simp only [hold, decide_false, Bool.false_eq_true, if_false]
        exact ⟨_, rfl, fresh_backs hs₁ now rfl rfl rfl rfl⟩

theorem map_frame {l : List Node} {s : Node} (hs : s ∉ l) (client : PeerSource E) :
    l.map (Function.update content s client) = l.map content := by
  apply List.map_congr_left
  intro m hm
  rw [Function.update_of_ne]
  rintro rfl
  exact hs hm

theorem mirrors_frame {ys : List Linkage} {xs : List (PeerRequestRecord E)}
    (hall : List.Forall₂ (Mirrors content) ys xs) {s : Node} (hs : s ∉ (ys.map Prod.snd).flatten)
    (client : PeerSource E) :
    List.Forall₂ (Mirrors (Function.update content s client)) ys xs := by
  induction hall with
  | nil => exact .nil
  | cons hy _ ih =>
    rw [List.map_cons, List.flatten_cons, List.mem_append, not_or] at hs
    refine .cons ⟨hy.sentTo, hy.time, hy.fromTimedOut, ?_⟩ (ih hs.2)
    rw [map_frame hs.1, hy.additional]

/- The pool of the lists after GetNewPeerSource, in both of its cases. -/
theorem getNewPeerSource_refilled {free free' : List Node} {cells : List Linkage}
    (hs : Spells content h free cells pr) {s : Node} {sourceCount : UInt16}
    (h' : Heap.Refilled h free sourceCount (s :: free')) :
    pr.getNewPeerSource = some ⟨pr.records, free'.map content, sourceCount⟩ := by
  rw [PeerRequests.getNewPeerSource]
  obtain ⟨rfl, rfl⟩ | ⟨rfl, hcount, rfl, hnodes⟩ := h'
  · rw [← hs.sources, List.map_cons, hs.count]
  · cases hnodes
    rw [← hs.sources, List.map_nil, ← hs.count]
    simp only [hcount, if_true]

/-- GetNewPeerSource returns a node exactly if the function on lists does. -/
theorem take_backs {free : List Node} {cells : List Linkage} (hs : Spells content h free cells pr) :
    (pr.getNewPeerSource = none ∧ h.getNewPeerSource = some (none, h)) ∨
    ∃ s mid free', pr.getNewPeerSource = some ⟨pr.records, free'.map content, mid.sourceCount⟩ ∧
      h.getNewPeerSource = some (some s, mid) ∧ mid.Laid [s] free' (cells.map Prod.snd) ∧
      mid.next s = none ∧ mid.records = h.records := by
  obtain ⟨hnone, hfull, rfl⟩ | ⟨s, mid, free', hsome, hmid, hnext, _, hrec, hfill⟩ :=
    Heap.getNewPeerSource_cases hs.laid
  · refine .inl ⟨?_, hnone⟩
    rw [PeerRequests.getNewPeerSource, ← hs.sources, List.map_nil, ← hs.count]
    simp only [Nat.not_lt.mpr hfull, if_false]
  · exact .inr ⟨s, mid, free', getNewPeerSource_refilled hs hfill, hsome, hmid, hnext, hrec⟩

/-- With the new source stored in the node and the node linked, the memory holds the table with it. -/
theorem newSource_backs (hs : Backs content h pr) (hx : pr.records[i]? = some x)
    (client : PeerSource E) :
    (pr.getNewPeerSource = none ∧ h.getNewPeerSource = some (none, h)) ∨
    ∃ pr' s mid h', pr.getNewPeerSource = some pr' ∧ h.getNewPeerSource = some (some s, mid) ∧
      mid.link i s = some h' ∧ Backs (Function.update content s client) h'
        (pr'.setRecord i { x with additional := client :: x.additional }) := by
  obtain ⟨free, cells, hs⟩ := hs
  refine (take_backs hs).imp_right ?_
  rintro ⟨s, mid, free', hget, hsome, hmid, hnext, hrec⟩
  obtain ⟨before, after, hrecords, rfl, hset⟩ := records_split hx
  obtain ⟨a, ⟨r, l⟩, b, rfl, hlen, ha, hr, hb⟩ := hs.split hrecords
  have hfits := hrec.trans hs.fits
  have hchains := hmid.chains
  rw [hfits, ← Heap.Chained, chained_cells] at hchains
  simp only [List.forall_mem_append, List.forall_mem_cons] at hchains
  have hnot : s ∉ free' ++ ((a ++ (r, l) :: b).map Prod.snd).flatten :=
    (List.nodup_cons.mp hmid.nodup).1
  simp only [List.map_append, List.map_cons] at hmid hfits
  obtain ⟨h', hlink, hlaid', hfits', hcount'⟩ := Heap.link_record hmid hnext hfits hchains.2.1
    (chained_cells.mpr hchains.1) (chained_cells.mpr hchains.2.2)
  rw [List.length_map, hlen] at hlink
  simp only [List.map_append, List.map_cons, List.flatten_append, List.flatten_cons, List.mem_append,
    not_or] at hnot
  obtain ⟨hfree, hbefore, hself, hafter⟩ := hnot
  refine ⟨_, s, mid, h', hget, hsome, hlink, free', a ++ ({ r with head := some s }, s :: l) :: b, ?_⟩
  have hset' : ∀ y, (PeerRequests.mk pr.records (free'.map content) mid.sourceCount).setRecord
      before.length y = ⟨before ++ y :: after, free'.map content, mid.sourceCount⟩ := by
    intro y
    rw [PeerRequests.setRecord, hrecords, set_middle]
  rw [hset']
  refine ⟨by simpa using hlaid', by simpa using hfits', ?_, map_frame hfree client, hcount'⟩
  refine List.rel_append (mirrors_frame ha hbefore client)
    (.cons ⟨hr.sentTo, hr.time, hr.fromTimedOut, ?_⟩ (mirrors_frame hb hafter client))
  rw [List.map_cons, Function.update_self, map_frame hself, hr.additional]

end Calls

/- One call on the table of lists. The client is what addSource stores in a new node, fresh what a
   new record is made of. -/
structure Use (E : Type) where
  call : Call
  client : PeerSource E
  fresh : PeerRequestRecord E

namespace PeerRequests

/- The calls of the server on the table; those on a record that is not there do nothing. -/
def use (pr : PeerRequests E) (u : Use E) : PeerRequests E :=
  match u.call with
  | .getNewRecord now force => (pr.getNewRecord now force u.fresh).2
  | .freePeerRequestRecord i =>
    match pr.records[i]? with
    | none => pr
    | some x => pr.freePeerRequestRecord i x
  | .getNewPeerSource i =>
    match pr.records[i]?, pr.getNewPeerSource with
    | some x, some pr => pr.setRecord i { x with additional := u.client :: x.additional }
    | _, _ => pr
  | .send i server =>
    match pr.records[i]? with
    | none => pr
    | some x => pr.setRecord i { x with sentTo := some server }

end PeerRequests

/- The same call on the memory. -/
def Heap.use (h : Heap) (u : Use E) : Option (Heap × Heap.Taken) := h.step u.call

theorem exists_record {content : Node → PeerSource E} {h : Heap} {pr : PeerRequests E}
    (hs : Backs content h pr) {i : Nat} (hi : i < h.records.length) :
    ∃ x, pr.records[i]? = some x := by
  rw [backs_length hs] at hi
  exact ⟨_, List.getElem?_eq_getElem hi⟩

/-- One call, case by case. -/
theorem use_backs (h : Heap) (pr : PeerRequests E) (u : Use E) (hs : ∃ content, Backs content h pr)
    (hname : h.Names u.call) :
    ∃ h' t, h.use u = some (h', t) ∧ ∃ content, Backs content h' (pr.use u) := by
  obtain ⟨content, hs⟩ := hs
  obtain ⟨call, client, fresh⟩ := u
  cases call with
  | getNewRecord now force =>
    obtain ⟨h', hget, hs'⟩ := getNewRecord_backs hs now force fresh
    exact ⟨h', none, by rw [Heap.use, Heap.step, hget, Option.map_some], content, hs'⟩
  | freePeerRequestRecord i =>
    obtain ⟨x, hx⟩ := exists_record hs hname
    obtain ⟨h', hfree, hs'⟩ := free_backs hs hx
    refine ⟨h', none, by rw [Heap.use, Heap.step, hfree, Option.map_some], content, ?_⟩
    simp only [PeerRequests.use, hx]
    exact hs'
  | getNewPeerSource i =>
    obtain ⟨x, hx⟩ := exists_record hs hname
    obtain ⟨hnone, hget⟩ | ⟨pr', s, mid, h', hsome, hget, hlink, hs'⟩ := newSource_backs hs hx client
    · refine ⟨h, none, by simp [Heap.use, Heap.step, hget], content, ?_⟩
      simp only [PeerRequests.use, hx, hnone]
      exact hs
    · refine ⟨h', some (s, mid), by simp [Heap.use, Heap.step, hget, hlink],
        Function.update content s client, ?_⟩
      simp only [PeerRequests.use, hx, hsome]
      exact hs'
  | send i server =>
    obtain ⟨x, hx⟩ := exists_record hs hname
    refine ⟨_, none, rfl, content, ?_⟩
    simp only [PeerRequests.use, hx]
    exact modify_backs hs hx (fun _ => rfl) fun _ _ hm => ⟨rfl, hm.time, hm.fromTimedOut, hm.additional⟩

theorem backs_empty (content : Node → PeerSource E) : Backs content Heap.empty PeerRequests.empty :=
  ⟨[], [], ⟨⟨rfl, .nil⟩, List.nodup_nil, (fun _ hn => by cases hn), rfl, Nat.zero_le _⟩, rfl, .nil,
    rfl, rfl⟩

/- A record is made, and a second client joins it. -/
def joinedUses : List (Use Nat) :=
  Heap.oneSource.map fun call => ⟨call, ⟨2, true, 8⟩, ⟨⟨1, true, 7⟩, [], none, 1, 0, 0, 0, [], false⟩⟩

end DnsWrapper.Bookkeeping
