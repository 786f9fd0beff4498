import DnsWrapper.PointerChain
import DnsWrapper.PeerRequests
import DnsWrapper.Runs

/-! The nodes behind the table of requests: PeerSource nodes as identities, the unique
pointers that own them and the set of those that are alive. -/
namespace DnsWrapper.Bookkeeping
open PointerChain
open scoped List

abbrev Node := Nat

/- A PeerRequestRecord, as far as its chain and its age go; head is source.next. -/
structure RecordCell where
  head : Option Node
  sentTo : Option Nat
  time : Int
  fromTimedOut : Bool

/- The memory: next fields of all nodes, whether each node is alive, and how many were
   ever made. A node that was destroyed keeps the contents of its memory. -/
structure Heap where
  next : Node → Option Node
  live : Node → Bool
  allocated : Nat
  records : List RecordCell
  sources : Option Node
  sourceCount : UInt16

/- The places that hold a unique_ptr to a PeerSource. -/
inductive Slot where
  | pool
  | head (i : Nat)
  | next (n : Node)

namespace Heap

def empty : Heap := ⟨fun _ => none, fun _ => false, 0, [], none, 0⟩

def get (h : Heap) : Slot → Option Node
  | .pool => h.sources
  | .head i => h.records[i]?.bind RecordCell.head
  | .next n => h.next n

def put (h : Heap) (p : Option Node) : Slot → Heap
  | .pool => { h with sources := p }
  | .head i => { h with records := h.records.modify i fun r => { r with head := p } }
  | .next n => { h with next := Function.update h.next n p }

/- The destructor of a unique_ptr: the node dies, and with it what its next field owns. -/
def destroy : Nat → Option Node → Heap → Option Heap
  | _, none, h => some h
  | 0, some _, _ => none
  | k + 1, some n, h =>
    destroy k (h.next n) { h with live := Function.update h.live n false }

/- reset: the new pointer is stored first, then the old node is destroyed. -/
def reset (h : Heap) (dst : Slot) (p : Option Node) : Option Heap :=
  destroy h.allocated (h.get dst) (h.put p dst)

/- dst = std::move(src) is reset(src.release()). -/
def move (h : Heap) (dst src : Slot) : Option Heap := (h.put none src).reset dst (h.get src)

def freePeerRequestRecord (h : Heap) (i : Nat) : Option Heap := do
  let h ← match h.get (.head i) with
    | none => some h
    | some first => do
      let last ← PointerChain.last h.next h.allocated first
      let h ← h.move (.next last) .pool
      h.move .pool (.head i)
  let h ← h.reset (.head i) none
  some { h with records := h.records.modify i fun r => { r with sentTo := none } }

/- make_unique<PeerSource>(), before it is stored anywhere. -/
def make (h : Heap) : Node × Heap :=
  (h.allocated, { h with
    next := Function.update h.next h.allocated none
    live := Function.update h.live h.allocated true
    allocated := h.allocated + 1 })

/- The first statement of GetNewPeerSource. -/
def refill (h : Heap) : Option Heap :=
  if h.sources = none ∧ h.sourceCount.toNat < maxFwdQueries then do
    let (n, h) := h.make
    let h ← h.reset .pool (some n)
    let h := { h with sourceCount := h.sourceCount + 1 }
    h.reset (.next n) none
  else some h

def getNewPeerSource (h : Heap) : Option (Option Node × Heap) := do
  let h ← h.refill
  match h.sources with
  | none => some (none, h)
  | some s => do
    let h ← h.move .pool (.next s)
    let h ← h.reset (.next s) none
    some (some s, h)

/- What resolve does with the node that it gets. -/
def link (h : Heap) (i : Nat) (s : Node) : Option Heap := do
  let h ← h.move (.next s) (.head i)
  h.reset (.head i) (some s)

/- target, oldest and count of GetNewRecord. -/
structure Scan where
  target : Option Nat
  oldest : Option Nat
  count : Nat

/- The first statement of the loop body of GetNewRecord, at record number i. -/
def choose (now : Int) (i : Nat) (st : Scan) (h : Heap) : Option (Scan × Heap) := do
  let r ← h.records[i]?
  if r.sentTo = none then some ({ st with target := some i }, h)
  else if now - r.time ≥ 4 * timeout then do
    let h ← h.freePeerRequestRecord i
    some ({ st with target := some i },
      { h with records := h.records.modify i fun r => { r with fromTimedOut := true } })
  else
    match st.oldest.bind fun o => h.records[o]? with
    | none => some ({ st with oldest := some i }, h)
    | some o =>
      if r.time - o.time ≤ 0 then some ({ st with oldest := some i }, h) else some (st, h)

/- The second one. -/
def tally (now : Int) (i : Nat) (st : Scan) (h : Heap) : Option Scan := do
  let r ← h.records[i]?
  if r.sentTo ≠ none ∧ now - r.time < timeout then some { st with count := st.count + 1 }
  else some st

/- The loop from record number i on, for k records. -/
def scan (now : Int) : Nat → Nat → Scan → Heap → Option (Scan × Heap)
  | 0, _, st, h => some (st, h)
  | k + 1, i, st, h => do
    let (st, h) ← choose now i st h
    let st ← tally now i st h
    scan now k (i + 1) st h

def stamp (h : Heap) (now : Int) (i : Nat) : Heap :=
  { h with records := h.records.modify i fun r => { r with time := now } }

/- The record is named by its place after the call. -/
def getNewRecord (h : Heap) (now : Int) (force : Bool) : Option (Option Nat × Heap) := do
  let (st, h) ← h.scan now h.records.length 0 ⟨none, none, 0⟩
  if force = false ∧ st.count ≥ maxFwdQueries then some (none, h)
  else
    match st.target with
    | some i => some (some i, h.stamp now i)
    | none =>
      match st.oldest.filter fun o => h.records[o]?.any fun r => now - r.time ≥ timeout with
      | some o => do
        let h ← h.freePeerRequestRecord o
        let h := { h with records := h.records.modify o fun r => { r with fromTimedOut := true } }
        some (some o, h.stamp now o)
      | none => some (some 0, { h with records := ⟨none, none, now, false⟩ :: h.records })

end Heap

/- The calls that touch the nodes, and the store to sentTo by which resolve puts a record
   into use. -/
inductive Call where
  | getNewRecord (now : Int) (force : Bool)
  | freePeerRequestRecord (i : Nat)
  | getNewPeerSource (i : Nat)
  | send (i server : Nat)

namespace Heap

/- The node that GetNewPeerSource returned, with the memory at its return. -/
abbrev Taken := Option (Node × Heap)

/- A call that names a record finds it in the table. -/
def Names (h : Heap) : Call → Prop
  | .getNewRecord _ _ => True
  | .freePeerRequestRecord i => i < h.records.length
  | .getNewPeerSource i => i < h.records.length
  | .send i _ => i < h.records.length

def step (h : Heap) : Call → Option (Heap × Taken)
  | .getNewRecord now force => (h.getNewRecord now force).map fun x => (x.2, none)
  | .freePeerRequestRecord i => (h.freePeerRequestRecord i).map fun h => (h, none)
  | .getNewPeerSource i => do
    let (s, mid) ← h.getNewPeerSource
    match s with
    | none => some (mid, none)
    | some s => (mid.link i s).map fun h => (h, some (s, mid))
  | .send i server =>
    some ({ h with records := h.records.modify i fun r => { r with sentTo := some server } }, none)

/- The nodes of the pool and those of each record. -/
structure Lists (h : Heap) (free : List Node) (owned : List (List Node)) : Prop where
  pool : Chain h.next h.sources free
  chains : List.Forall₂ (fun (r : RecordCell) l => Chain h.next r.head l) h.records owned

/- All nodes are in one list or in loose, which no pointer owns. -/
structure Laid (h : Heap) (loose free : List Node) (owned : List (List Node)) : Prop
    extends Lists h free owned where
  nodup : (loose ++ (free ++ owned.flatten)).Nodup
  made : ∀ n ∈ loose ++ (free ++ owned.flatten), n < h.allocated
  count : h.sourceCount.toNat = (loose ++ (free ++ owned.flatten)).length
  bound : h.sourceCount.toNat ≤ maxFwdQueries

theorem reset_empty {h : Heap} {dst : Slot} (hd : h.get dst = none) (p : Option Node) :
    h.reset dst p = some (h.put p dst) := by
  rw [reset, hd, destroy]

theorem modify_middle (a b : List RecordCell) (r : RecordCell) (f : RecordCell → RecordCell) :
    (a ++ r :: b).modify a.length f = a ++ f r :: b := by
  induction a with
  | nil => rfl
  | cons x a ih =>
    rw [List.cons_append, List.length_cons, List.modify_succ_cons, ih]
    rfl

theorem get_middle (a b : List RecordCell) (r : RecordCell) : (a ++ r :: b)[a.length]? = some r := by
  rw [List.getElem?_append_right (Nat.le_refl _), Nat.sub_self, List.getElem?_cons_zero]

/- The records have the chains. -/
abbrev Chained (next : Node → Option Node) (rs : List RecordCell) (ls : List (List Node)) : Prop :=
  List.Forall₂ (fun (r : RecordCell) l => Chain next r.head l) rs ls

/- One record of the table and its chain, between the others. -/
theorem Lists.split {h : Heap} {free : List Node} {owned : List (List Node)}
    (hl : h.Lists free owned) {i : Nat} (hi : i < h.records.length) :
    ∃ a r b before l after, h.records = a ++ r :: b ∧ a.length = i ∧
      owned = before ++ l :: after ∧ Chain h.next r.head l ∧
      Chained h.next a before ∧ Chained h.next b after := by
  have hsplit : h.records = h.records.take i ++ h.records[i] :: h.records.drop (i + 1) := by
    rw [← List.drop_eq_getElem_cons hi, List.take_append_drop]
  have hall := hl.chains
  rw [hsplit] at hall
  obtain ⟨before, rest, rfl, hbefore, hrest⟩ := Runs.forall₂_append_left hall
  cases hrest with
  | cons hr hafter =>
    exact ⟨_, _, _, before, _, _, hsplit, List.length_take_of_le (Nat.le_of_lt hi), rfl, hr,
      hbefore, hafter⟩

theorem chained_frame {next : Node → Option Node} {rs : List RecordCell} {ls : List (List Node)}
    (h : Chained next rs ls) {n : Node} (hn : n ∉ ls.flatten) (v : Option Node) :
    Chained (Function.update next n v) rs ls := by
  induction h with
  | nil => exact .nil
  | cons hr _ ih =>
    rw [List.flatten_cons, List.mem_append, not_or] at hn
    exact .cons (hr.frame hn.1 v) (ih hn.2)

theorem chained_middle {next : Node → Option Node} {a b : List RecordCell}
    {before after : List (List Node)} {r : RecordCell} {l : List Node}
    (ha : Chained next a before) (hr : Chain next r.head l) (hb : Chained next b after) :
    Chained next (a ++ r :: b) (before ++ l :: after) :=
  List.rel_append ha (.cons hr hb)

theorem length_le_of_made {l : List Node} {k : Nat} (hnodup : l.Nodup) (hmade : ∀ n ∈ l, n < k) :
    l.length ≤ k := by
  have hsub : l ⊆ List.range k := fun n hn => List.mem_range.mpr (hmade n hn)
  have hle := (List.subperm_of_subset hnodup hsub).length_le
  rwa [List.length_range] at hle

/- The node lists only change places. -/
theorem Laid.permute {h h' : Heap} {loose free free' : List Node} {owned owned' : List (List Node)}
    (hl : h.Laid loose free owned) (hlists : h'.Lists free' owned')
    (hperm : loose ++ (free' ++ owned'.flatten) ~ loose ++ (free ++ owned.flatten))
    (hmade : h'.allocated = h.allocated) (hcount : h'.sourceCount = h.sourceCount) :
    h'.Laid loose free' owned' where
  toLists := hlists
  nodup := hperm.nodup_iff.mpr hl.nodup
  made n hn := by
    rw [hmade]
    exact hl.made n (hperm.mem_iff.mp hn)
  count := by rw [hcount, hl.count, hperm.length_eq]
  bound := by rw [hcount]; exact hl.bound

/-- The pool and the chains are in order and hold these nodes. -/
def Linked (h : Heap) (nodes : List Node) : Prop :=
  ∃ free owned, h.Laid [] free owned ∧ free ++ owned.flatten ~ nodes

/- The same nodes, possibly in other lists; none was made or destroyed. -/
structure Rearranged (nodes : List Node) (h h' : Heap) : Prop where
  linked : h'.Linked nodes
  live : h'.live = h.live
  sourceCount : h'.sourceCount = h.sourceCount
  length : h.records.length ≤ h'.records.length

theorem Rearranged.refl {nodes : List Node} {h : Heap} (hl : h.Linked nodes) :
    Rearranged nodes h h := ⟨hl, rfl, rfl, Nat.le_refl _⟩

theorem Rearranged.trans {nodes : List Node} {h₁ h₂ h₃ : Heap} (h : Rearranged nodes h₁ h₂)
    (h' : Rearranged nodes h₂ h₃) : Rearranged nodes h₁ h₃ :=
  ⟨h'.linked, h'.live.trans h.live, h'.sourceCount.trans h.sourceCount, h.length.trans h'.length⟩

/- A change to the fields of a record that are not pointers. -/
theorem rearranged_modify {nodes : List Node} {h : Heap} (hl : h.Linked nodes) (i : Nat)
    {f : RecordCell → RecordCell} (hf : ∀ r, (f r).head = r.head) :
    Rearranged nodes h { h with records := h.records.modify i f } where
  linked := by
    obtain ⟨free, owned, hl, hperm⟩ := hl
    refine ⟨free, owned, hl.permute ⟨hl.pool, ?_⟩ (List.Perm.refl _) rfl rfl, hperm⟩
    by_cases hi : i < h.records.length
    · obtain ⟨a, r, b, before, l, after, hrecords, rfl, rfl, hr, ha, hb⟩ := hl.toLists.split hi
      rw [hrecords, modify_middle]
      exact chained_middle ha (by rw [hf]; exact hr) hb
    · rw [List.modify_eq_self (Nat.le_of_not_lt hi)]
      exact hl.chains
  live := rfl
  sourceCount := rfl
  length := by rw [List.length_modify]

/- FreePeerRequestRecord on a record without additional sources. -/
theorem free_empty {h : Heap} {a b : List RecordCell} {r : RecordCell}
    (hrecords : h.records = a ++ r :: b) (hhead : r.head = none) :
    h.freePeerRequestRecord a.length =
      some { h with records := a ++ { r with head := none, sentTo := none } :: b } := by
  have hget : h.get (.head a.length) = none := by
    rw [get, hrecords, get_middle, Option.bind_some, hhead]
  simp only [freePeerRequestRecord, hget, reset_empty hget, put, hrecords, modify_middle,
    Option.bind_eq_bind, Option.bind_some]

/- FreePeerRequestRecord on a record with them: the last node is found, the pool is hung
   behind it and the whole becomes the pool. -/
theorem free_chain {h : Heap} {a b : List RecordCell} {r : RecordCell}
    (hrecords : h.records = a ++ r :: b) {first z : Node} {l : List Node}
    (hhead : r.head = some first) (hchain : Chain h.next (some first) (l ++ [z]))
    (hlen : l.length < h.allocated) :
    h.freePeerRequestRecord a.length =
      some { h with
        next := Function.update h.next z h.sources
        sources := some first
        records := a ++ { r with head := none, sentTo := none } :: b } := by
  have hz := chain_end hchain
  simp only [freePeerRequestRecord, last_chain hchain hlen, Option.bind_eq_bind,
    Option.bind_some, move, put, get, reset, hz, destroy, hrecords, modify_middle, get_middle,
    hhead]

theorem perm_free (l free : List Node) (before after : List (List Node)) :
    l ++ free ++ (before ++ [] :: after).flatten ~ free ++ (before ++ l :: after).flatten := by
  simp only [List.flatten_append, List.flatten_cons, List.nil_append]
  have hswap : l ++ (free ++ before.flatten) ~ free ++ before.flatten ++ l := List.perm_append_comm
  have hall := hswap.append_right after.flatten
  simpa only [List.append_assoc] using hall

/-- FreePeerRequestRecord puts the nodes of one record in front of the pool and loses none. -/
theorem free_laid {h : Heap} {free l : List Node} {before after : List (List Node)}
    {a b : List RecordCell} {r : RecordCell} (hlaid : h.Laid [] free (before ++ l :: after))
    (hrecords : h.records = a ++ r :: b) (hr : Chain h.next r.head l)
    (ha : Chained h.next a before) (hb : Chained h.next b after) :
    ∃ h', h.freePeerRequestRecord a.length = some h' ∧
      h'.Laid [] (l ++ free) (before ++ [] :: after) ∧
      h'.records = a ++ { r with head := none, sentTo := none } :: b ∧ h'.live = h.live ∧
      h'.sourceCount = h.sourceCount := by
  cases hhead : r.head with
  | none =>
    obtain rfl : l = [] := chain_none (hhead ▸ hr)
    refine ⟨_, free_empty hrecords hhead, ?_, rfl, rfl, rfl⟩
    exact hlaid.permute ⟨hlaid.pool, chained_middle ha rfl hb⟩ (List.Perm.refl _) rfl rfl
  | some first =>
    rw [hhead] at hr
    have hne : l ≠ [] := by
      rintro rfl
      cases hr
    obtain ⟨l, z, rfl⟩ := List.eq_nil_or_concat' l |>.resolve_left hne
    have hnodup := (perm_free (l ++ [z]) free before after).nodup_iff.mpr hlaid.nodup
    have hmade : ∀ n ∈ l ++ [z], n < h.allocated := by
      intro n hn
      refine hlaid.made n ((perm_free (l ++ [z]) free before after).mem_iff.mp ?_)
      exact List.mem_append_left _ (List.mem_append_left _ hn)
    have hlen := length_le_of_made (hnodup.sublist (by simp)) hmade
    rw [List.length_append, List.length_singleton] at hlen
    have hjoin : (l ++ z :: free).Nodup := hnodup.sublist (by simp)
    have hz : z ∉ before.flatten ∧ z ∉ after.flatten := by
      simp only [List.nodup_append, List.mem_append, List.flatten_append, List.flatten_cons] at hnodup
      have hsep := hnodup.2.2 z (.inl (.inr List.mem_cons_self))
      exact ⟨fun hmem => hsep z (.inl hmem) rfl, fun hmem => hsep z (.inr (.inr hmem)) rfl⟩
    refine ⟨_, free_chain hrecords hhead hr hlen, ?_, rfl, rfl, rfl⟩
    refine hlaid.permute ⟨?_, ?_⟩ (perm_free (l ++ [z]) free before after) rfl rfl
    · have hpool := hr.join hlaid.pool hjoin
      rwa [List.append_assoc, List.singleton_append]
    · exact chained_middle (chained_frame ha hz.1 _) rfl (chained_frame hb hz.2 _)

theorem free_rearranged {h : Heap} {nodes : List Node} (hl : h.Linked nodes) {i : Nat}
    (hi : i < h.records.length) :
    ∃ h', h.freePeerRequestRecord i = some h' ∧ Rearranged nodes h h' := by
  obtain ⟨free, owned, hlaid, hperm⟩ := hl
  obtain ⟨a, r, b, before, l, after, hrecords, rfl, rfl, hr, ha, hb⟩ := hlaid.toLists.split hi
  obtain ⟨h', hfree, hlaid', hrecords', hlive, hcount⟩ := free_laid hlaid hrecords hr ha hb
  refine ⟨h', hfree, ⟨_, _, hlaid', (perm_free l free before after).trans hperm⟩, hlive, hcount, ?_⟩
  simp [hrecords, hrecords']

/- The records that the loop has chosen are in the table. -/
structure Scan.Valid (st : Scan) (h : Heap) : Prop where
  target : ∀ i, st.target = some i → i < h.records.length
  oldest : ∀ i, st.oldest = some i → i < h.records.length

theorem Scan.Valid.mono {st : Scan} {nodes : List Node} {h h' : Heap} (hv : st.Valid h)
    (hr : Rearranged nodes h h') : st.Valid h' :=
  ⟨fun i hi => (hv.target i hi).trans_le hr.length, fun i hi => (hv.oldest i hi).trans_le hr.length⟩

theorem Scan.Valid.setTarget {st : Scan} {h : Heap} (hv : st.Valid h) {i : Nat}
    (hi : i < h.records.length) : Scan.Valid { st with target := some i } h := by
  refine ⟨?_, hv.oldest⟩
  intro j hj
  cases hj
  exact hi

theorem Scan.Valid.setOldest {st : Scan} {h : Heap} (hv : st.Valid h) {i : Nat}
    (hi : i < h.records.length) : Scan.Valid { st with oldest := some i } h := by
  refine ⟨hv.target, ?_⟩
  intro j hj
  cases hj
  exact hi

theorem tally_valid {h : Heap} {i : Nat} (hi : i < h.records.length) {st : Scan} (hv : st.Valid h)
    (now : Int) : ∃ st' : Scan, tally now i st h = some st' ∧ st'.Valid h := by
  unfold tally
  rw [List.getElem?_eq_getElem hi]
  simp only [Option.bind_eq_bind, Option.bind_some]
  split
  · exact ⟨_, rfl, hv.target, hv.oldest⟩
  · exact ⟨_, rfl, hv⟩

theorem choose_rearranged {h : Heap} {nodes : List Node} (hl : h.Linked nodes) {i : Nat}
    (hi : i < h.records.length) {st : Scan} (hv : st.Valid h) (now : Int) :
    ∃ st' h', choose now i st h = some (st', h') ∧ Rearranged nodes h h' ∧ st'.Valid h' := by
  have hsame := Rearranged.refl hl
  unfold choose
  rw [List.getElem?_eq_getElem hi]
  simp only [Option.bind_eq_bind, Option.bind_some]
  split
  · exact ⟨_, h, rfl, hsame, hv.setTarget hi⟩
  split
  · obtain ⟨h₁, hfree, hr₁⟩ := free_rearranged hl hi
    have hr₂ := hr₁.trans (rearranged_modify hr₁.linked i
      (f := fun r => { r with fromTimedOut := true }) fun _ => rfl)
    rw [hfree, Option.bind_some]
    exact ⟨_, _, rfl, hr₂, (hv.mono hr₂).setTarget (hi.trans_le hr₂.length)⟩
  split
  · exact ⟨_, h, rfl, hsame, hv.setOldest hi⟩
  split
  · exact ⟨_, h, rfl, hsame, hv.setOldest hi⟩
  · exact ⟨_, h, rfl, hsame, hv⟩

theorem scan_rearranged {h : Heap} {nodes : List Node} (hl : h.Linked nodes) {k i : Nat}
    (hi : i + k ≤ h.records.length) {st : Scan} (hv : st.Valid h) (now : Int) :
    ∃ st' h', scan now k i st h = some (st', h') ∧ Rearranged nodes h h' ∧ st'.Valid h' := by
  induction k generalizing h i st with
  | zero => exact ⟨st, h, rfl, Rearranged.refl hl, hv⟩
  | succ k ih =>
    obtain ⟨st₁, h₁, hchoose, hr₁, hv₁⟩ := choose_rearranged hl (i := i) (by omega) hv now
    have hlen := hr₁.length
    obtain ⟨st₂, htally, hv₂⟩ := tally_valid (i := i) (by omega) hv₁ now
    obtain ⟨st', h', hscan, hr', hv'⟩ := ih hr₁.linked (i := i + 1) (by omega) hv₂
    refine ⟨st', h', ?_, hr₁.trans hr', hv'⟩
    simp only [scan, hchoose, htally, hscan, Option.bind_eq_bind, Option.bind_some]

/- A new record has no additional sources. -/
theorem rearranged_fresh {h : Heap} {nodes : List Node} (hl : h.Linked nodes) (now : Int) :
    Rearranged nodes h { h with records := ⟨none, none, now, false⟩ :: h.records } where
  linked := by
    obtain ⟨free, owned, hl, hperm⟩ := hl
    exact ⟨free, [] :: owned, hl.permute ⟨hl.pool, .cons rfl hl.chains⟩ (List.Perm.refl _) rfl rfl,
      hperm⟩
  live := rfl
  sourceCount := rfl
  length := Nat.le_succ _

/-- GetNewRecord makes and destroys no node. -/
theorem getNewRecord_rearranged {h : Heap} {nodes : List Node} (hl : h.Linked nodes) (now : Int)
    (force : Bool) : ∃ r h', h.getNewRecord now force = some (r, h') ∧ Rearranged nodes h h' := by
  obtain ⟨st, h₁, hscan, hr₁, hv⟩ := scan_rearranged hl (k := h.records.length) (i := 0)
    (by omega) (show Scan.Valid ⟨none, none, 0⟩ h from ⟨nofun, nofun⟩) now
  have hstamp : ∀ {h : Heap} (i : Nat), h.Linked nodes → Rearranged nodes h (h.stamp now i) :=
    fun i hl => rearranged_modify hl i fun _ => rfl
  unfold getNewRecord
  rw [hscan]
  simp only [Option.bind_eq_bind, Option.bind_some]
  split
  · exact ⟨_, _, rfl, hr₁⟩
  split
  · rename_i i htarget
    exact ⟨_, _, rfl, hr₁.trans (hstamp i hr₁.linked)⟩
  split
  · rename_i o holdest
    obtain ⟨h₂, hfree, hr₂⟩ := free_rearranged hr₁.linked
      (hv.oldest o (Option.filter_eq_some_iff.mp holdest).1)
    have hr₃ := rearranged_modify hr₂.linked o (f := fun r => { r with fromTimedOut := true })
      fun _ => rfl
    rw [hfree, Option.bind_some]
    exact ⟨_, _, rfl, ((hr₁.trans hr₂).trans hr₃).trans (hstamp o hr₃.linked)⟩
  · exact ⟨_, _, rfl, hr₁.trans (rearranged_fresh hr₁.linked now)⟩

theorem refill_eq {h : Heap} (hs : h.sources = none) (hc : h.sourceCount.toNat < maxFwdQueries) :
    h.refill = some { h with
      next := Function.update h.next h.allocated none
      live := Function.update h.live h.allocated true
      allocated := h.allocated + 1
      sources := some h.allocated
      sourceCount := h.sourceCount + 1 } := by
  simp only [refill, hs, hc, and_self, if_true, make, reset, get, put, destroy,
    Function.update_self, Function.update_idem, Option.bind_eq_bind, Option.bind_some]

/- The pool after the first statement of GetNewPeerSource, and the count of nodes. -/
def Refilled (h : Heap) (free : List Node) (sourceCount : UInt16) (free' : List Node) : Prop :=
  (sourceCount = h.sourceCount ∧ free' = free) ∨
    (free = [] ∧ h.sourceCount.toNat < maxFwdQueries ∧ sourceCount = h.sourceCount + 1 ∧
      free' = [h.allocated])

/- The pool after the first statement is empty only if 150 nodes were made. -/
theorem refill_laid {h : Heap} {free : List Node} {owned : List (List Node)}
    (hl : h.Laid [] free owned) :
    ∃ h' free', h.refill = some h' ∧ h'.Laid [] free' owned ∧ h'.records = h.records ∧
      (free' = [] → h' = h ∧ maxFwdQueries ≤ h.sourceCount.toNat) ∧
      Refilled h free h'.sourceCount free' := by
  by_cases hmake : h.sources = none ∧ h.sourceCount.toNat < maxFwdQueries
  · obtain ⟨hs, hc⟩ := hmake
    have hfree : free = [] := chain_none (hs ▸ hl.pool)
    subst hfree
    have hnew : h.allocated ∉ owned.flatten := fun hmem =>
      Nat.lt_irrefl _ (hl.made h.allocated (by simpa using hmem))
    have hcount : (h.sourceCount + 1).toNat = h.sourceCount.toNat + 1 := by
      rw [UInt16.toNat_add, UInt16.toNat_one]
      simp only [maxFwdQueries] at hc
      omega
    refine ⟨_, [h.allocated], refill_eq hs hc, ⟨⟨?_, ?_⟩, ?_, ?_, ?_, ?_⟩, rfl, ?_, .inr ⟨rfl, hc, rfl, rfl⟩⟩
    · exact Chain.push (p := none) (l := []) rfl List.not_mem_nil
    · exact chained_frame hl.chains hnew none
    · exact List.nodup_cons.mpr ⟨hnew, hl.nodup⟩
    · intro n hn
      obtain rfl | hn := List.mem_cons.mp hn
      · exact Nat.lt_succ_self _
      · exact (hl.made n hn).trans (Nat.lt_succ_self _)
    · exact hcount.trans (congrArg Nat.succ hl.count)
    · exact hcount.trans_le hc
    · exact fun hcons => absurd hcons (List.cons_ne_nil _ _)
  · refine ⟨h, free, if_neg hmake, hl, rfl, ?_, .inl ⟨rfl, rfl⟩⟩
    rintro rfl
    exact ⟨rfl, Nat.le_of_not_lt fun hc => hmake ⟨hl.pool, hc⟩⟩

/- sources = std::move(sources->next) destroys the node that the pool owned, which is the
   one to be returned. -/
theorem take_eq {h : Heap} {s : Node} (hs : h.sources = some s) (hmade : s < h.allocated) :
    ((h.move .pool (.next s)).bind fun h => h.reset (.next s) none) = some { h with
      next := Function.update h.next s none
      sources := h.next s
      live := Function.update h.live s false } := by
  obtain ⟨k, hk⟩ := Nat.exists_eq_add_of_lt hmade
  simp only [move, reset, get, put, hs, hk, destroy, Function.update_self, Function.update_idem,
    Option.bind_some]

/-- The ends of GetNewPeerSource: no node, or a node that is in no list, and dead. -/
theorem getNewPeerSource_cases {h : Heap} {free : List Node} {owned : List (List Node)}
    (hl : h.Laid [] free owned) :
    (h.getNewPeerSource = some (none, h) ∧ maxFwdQueries ≤ h.sourceCount.toNat ∧ free = []) ∨
    ∃ s mid free', h.getNewPeerSource = some (some s, mid) ∧ mid.Laid [s] free' owned ∧
      mid.next s = none ∧ mid.live s = false ∧ mid.records = h.records ∧
      Refilled h free mid.sourceCount (s :: free') := by
  obtain ⟨h₁, free₁, hrefill, hl₁, hrec₁, hempty, hkind⟩ := refill_laid hl
  unfold getNewPeerSource
  rw [hrefill]
  simp only [Option.bind_eq_bind, Option.bind_some]
  cases free₁ with
  | nil =>
    obtain ⟨rfl, hfull⟩ := hempty rfl
    have hs : h₁.sources = none := hl₁.pool
    rw [hs]
    obtain ⟨_, hfree⟩ | ⟨_, _, _, hmade⟩ := hkind
    · exact .inl ⟨rfl, hfull, hfree.symm⟩
    · cases hmade
  | cons s rest =>
    have hs : h₁.sources = some s := hl₁.pool.1
    have htake := take_eq hs (hl₁.made s (by simp))
    have hnot : s ∉ rest ++ owned.flatten := (List.nodup_cons.mp hl₁.nodup).1
    rw [List.mem_append, not_or] at hnot
    simp only [hs]
    rw [← Option.bind_assoc, htake, Option.bind_some]
    right
    refine ⟨s, _, rest, rfl, ⟨⟨?_, ?_⟩, hl₁.nodup, hl₁.made, hl₁.count, hl₁.bound⟩, ?_, ?_, hrec₁,
      hkind⟩
    · exact hl₁.pool.2.frame hnot.1 none
    · exact chained_frame hl₁.chains hnot.2 none
    · exact Function.update_self s none h₁.next
    · exact Function.update_self s false h₁.live

theorem perm_link (s : Node) (l free : List Node) (before after : List (List Node)) :
    free ++ (before ++ (s :: l) :: after).flatten ~ s :: (free ++ (before ++ l :: after).flatten) := by
  have hmid : free ++ before.flatten ++ s :: (l ++ after.flatten) ~
      s :: (free ++ before.flatten ++ (l ++ after.flatten)) := List.perm_middle
  simpa only [List.flatten_append, List.flatten_cons, List.cons_append, List.append_assoc] using hmid

/-- Linking the node behind the head source of a record. -/
theorem link_record {h : Heap} {s : Node} {free l : List Node} {before after : List (List Node)}
    {a b : List RecordCell} {r : RecordCell} (hl : h.Laid [s] free (before ++ l :: after))
    (hs : h.next s = none) (hrecords : h.records = a ++ r :: b) (hr : Chain h.next r.head l)
    (ha : Chained h.next a before) (hb : Chained h.next b after) :
    ∃ h', h.link a.length s = some h' ∧ h'.Laid [] free (before ++ (s :: l) :: after) ∧
      h'.records = a ++ { r with head := some s } :: b ∧ h'.sourceCount = h.sourceCount := by
  have hlink : h.link a.length s = some { h with
      next := Function.update h.next s r.head
      records := a ++ { r with head := some s } :: b } := by
    simp only [link, move, reset, get, put, hrecords, get_middle, modify_middle, hs, destroy,
      Option.bind_eq_bind, Option.bind_some]
  have hnot : s ∉ free ++ (before ++ l :: after).flatten := (List.nodup_cons.mp hl.nodup).1
  simp only [List.mem_append, List.flatten_append, List.flatten_cons, not_or] at hnot
  obtain ⟨hfree, hbefore, hself, hafter⟩ := hnot
  have hperm := perm_link s l free before after
  refine ⟨_, hlink, ⟨⟨?_, ?_⟩, ?_, ?_, ?_, ?_⟩, rfl, rfl⟩
  · exact hl.pool.frame hfree r.head
  · exact chained_middle (chained_frame ha hbefore r.head) (hr.push hself)
      (chained_frame hb hafter r.head)
  · exact hperm.nodup_iff.mpr hl.nodup
  · exact fun n hn => hl.made n (hperm.mem_iff.mp hn)
  · exact hl.count.trans hperm.length_eq.symm
  · exact hl.bound

theorem link_laid {h : Heap} {s : Node} {free : List Node} {owned : List (List Node)}
    (hl : h.Laid [s] free owned) (hs : h.next s = none) {i : Nat} (hi : i < h.records.length) :
    ∃ h', h.link i s = some h' ∧ h'.Linked (s :: (free ++ owned.flatten)) ∧
      h'.records.length = h.records.length := by
  obtain ⟨a, r, b, before, l, after, hrecords, rfl, rfl, hr, ha, hb⟩ := hl.toLists.split hi
  obtain ⟨h', hlink, hl', hrecords', _⟩ := link_record hl hs hrecords hr ha hb
  refine ⟨h', hlink, ⟨free, _, hl', perm_link s l free before after⟩, ?_⟩
  simp [hrecords, hrecords']

/-- Pool and chains are disjoint, without duplicates, alive and as many as were counted. -/
def Sound (h : Heap) : Prop :=
  ∃ free owned, h.Lists free owned ∧ (free ++ owned.flatten).Nodup ∧
    (∀ n ∈ free ++ owned.flatten, h.live n = true) ∧
    h.sourceCount.toNat = (free ++ owned.flatten).length ∧ h.sourceCount.toNat ≤ maxFwdQueries

/-- The node is alive and in no list. -/
def FreshNode (s : Node) (mid : Heap) : Prop :=
  mid.live s = true ∧ ∃ free owned, mid.Lists free owned ∧ s ∉ free ++ owned.flatten

/-- The memory after a run is sound and every node that GetNewPeerSource returned was
fresh. -/
def NodesInOrder (mem : Heap) (taken : List Taken) : Prop :=
  mem.Sound ∧ ∀ s mid, some (s, mid) ∈ taken → FreshNode s mid

theorem linked_empty : empty.Linked [] :=
  ⟨[], [], ⟨⟨rfl, .nil⟩, List.nodup_nil, nofun, rfl, Nat.zero_le _⟩, List.Perm.refl _⟩

theorem sound_of_linked {h : Heap} {nodes : List Node} (hl : h.Linked nodes)
    (hlive : ∀ n ∈ nodes, h.live n = true) : h.Sound := by
  obtain ⟨free, owned, hlaid, hperm⟩ := hl
  exact ⟨free, owned, hlaid.toLists, hlaid.nodup, fun n hn => hlive n (hperm.mem_iff.mp hn),
    hlaid.count, hlaid.bound⟩

/-- Every call but GetNewPeerSource. -/
theorem step_rearranged {h : Heap} {nodes : List Node} (hl : h.Linked nodes) {c : Call}
    (hc : h.Names c) (hno : ∀ i, c ≠ .getNewPeerSource i) :
    ∃ h', h.step c = some (h', none) ∧ Rearranged nodes h h' := by
  cases c with
  | getNewRecord now force =>
    obtain ⟨r, h', hget, hr⟩ := getNewRecord_rearranged hl now force
    exact ⟨h', by rw [step, hget]; rfl, hr⟩
  | freePeerRequestRecord i =>
    obtain ⟨h', hfree, hr⟩ := free_rearranged hl hc
    exact ⟨h', by rw [step, hfree]; rfl, hr⟩
  | getNewPeerSource i => exact absurd rfl (hno i)
  | send i server => exact ⟨_, rfl, rearranged_modify hl i fun _ => rfl⟩

/-- GetNewPeerSource and the linking. The node is dead when it is returned. -/
theorem step_taken {h : Heap} {nodes : List Node} (hl : h.Linked nodes) {i : Nat}
    (hi : i < h.records.length) :
    (h.step (.getNewPeerSource i) = some (h, none) ∧ maxFwdQueries ≤ h.sourceCount.toNat) ∨
    ∃ h' s mid nodes', h.step (.getNewPeerSource i) = some (h', some (s, mid)) ∧
      h'.Linked nodes' ∧ mid.live s = false := by
  obtain ⟨free, owned, hlaid, _⟩ := hl
  obtain ⟨hnone, hfull, _⟩ | ⟨s, mid, free', hsome, hmid, hs, hdead, hrec, _⟩ :=
    getNewPeerSource_cases hlaid
  · exact .inl ⟨by simp [step, hnone], hfull⟩
  · obtain ⟨h', hlink, hl', _⟩ := link_laid hmid hs (hrec ▸ hi)
    exact .inr ⟨h', s, mid, _, by simp [step, hsome, hlink], hl', hdead⟩

/- Every call is defined, whatever state the nodes are in. -/
theorem step_linked (h : Heap) (_ : Unit) (c : Call) (hl : ∃ nodes, h.Linked nodes)
    (hc : h.Names c) : ∃ h' t, h.step c = some (h', t) ∧ ∃ nodes, h'.Linked nodes := by
  obtain ⟨nodes, hl⟩ := hl
  by_cases hno : ∀ i, c ≠ .getNewPeerSource i
  · obtain ⟨h', hstep, hr⟩ := step_rearranged hl hc hno
    exact ⟨h', none, hstep, nodes, hr.linked⟩
  · push Not at hno
    obtain ⟨i, rfl⟩ := hno
    obtain ⟨hstep, _⟩ | ⟨h', s, mid, nodes', hstep, hl', _⟩ := step_taken hl hc
    · exact ⟨h, none, hstep, nodes, hl⟩
    · exact ⟨h', _, hstep, nodes', hl'⟩

theorem run_linked {h : Heap} {nodes : List Node} (hl : h.Linked nodes) {calls : List Call}
    (hok : Runs.Admits step Names h calls) :
    ∃ mem taken, Runs.run step h calls = some (mem, taken) ∧ ∃ nodes, mem.Linked nodes := by
  exact @Runs.run_simulates Heap Call Taken Unit step Names
    (fun h _ => ∃ nodes, h.Linked nodes) (fun a _ => a) step_linked h () calls ⟨nodes, hl⟩ hok

/-- The induction is on the calls; up to the first GetNewPeerSource there are no nodes. -/
theorem inOrder_iff_of_linked {h : Heap} (hl : h.Linked []) {calls : List Call}
    (hok : Runs.Admits step Names h calls) :
    ∃ mem taken, Runs.run step h calls = some (mem, taken) ∧
      (NodesInOrder mem taken ↔ ∀ i, Call.getNewPeerSource i ∉ calls) := by
  induction calls generalizing h with
  | nil => exact ⟨h, [], rfl, iff_of_true ⟨sound_of_linked hl nofun, nofun⟩ nofun⟩
  | cons c calls ih =>
    obtain ⟨hname, hrest⟩ := hok
    by_cases hno : ∀ i, c ≠ .getNewPeerSource i
    · obtain ⟨h', hstep, hr⟩ := step_rearranged hl hname hno
      obtain ⟨mem, taken, hrun, hiff⟩ := ih hr.linked (hrest h' none hstep)
      refine ⟨mem, none :: taken, by simp [Runs.run, hstep, hrun], ?_⟩
      have hcalls : (∀ i, Call.getNewPeerSource i ∉ c :: calls) ↔
          ∀ i, Call.getNewPeerSource i ∉ calls := by
        simp only [List.mem_cons, not_or]
        exact ⟨fun h i => (h i).2, fun h i => ⟨fun heq => hno i heq.symm, h i⟩⟩
      have htaken : NodesInOrder mem (none :: taken) ↔ NodesInOrder mem taken := by
        simp only [NodesInOrder, List.mem_cons, reduceCtorEq, false_or]
      rw [hcalls, htaken, hiff]
    · push Not at hno
      obtain ⟨i, rfl⟩ := hno
      obtain ⟨hstep, hfull⟩ | ⟨h', s, mid, nodes, hstep, hl', hdead⟩ := step_taken hl hname
      · obtain ⟨free, owned, hlaid, hperm⟩ := hl
        have hzero : h.sourceCount.toNat = 0 := hlaid.count.trans hperm.length_eq
        rw [hzero] at hfull
        cases hfull
      · obtain ⟨mem, taken, hrun, _⟩ := run_linked hl' (hrest h' _ hstep)
        refine ⟨mem, some (s, mid) :: taken, by simp [Runs.run, hstep, hrun], ?_⟩
        refine iff_of_false ?_ fun hnone => hnone i List.mem_cons_self
        intro horder
        have hlive := (horder.2 s mid List.mem_cons_self).1
        rw [hdead] at hlive
        cases hlive

/-- Every sequence of calls, each naming a record of the table, runs to its end, and the
lists stay disjoint and counted. The nodes in them and those handed out are alive exactly
when GetNewPeerSource is never called. -/
theorem nodes_inOrder_iff (calls : List Call) (hok : Runs.Admits step Names empty calls) :
    ∃ mem taken, Runs.run step empty calls = some (mem, taken) ∧ (∃ nodes, mem.Linked nodes) ∧
      (NodesInOrder mem taken ↔ ∀ i, Call.getNewPeerSource i ∉ calls) := by
  obtain ⟨mem, taken, hrun, hiff⟩ := inOrder_iff_of_linked linked_empty hok
  obtain ⟨mem', taken', hrun', hlinked⟩ := run_linked linked_empty hok
  rw [hrun] at hrun'
  cases hrun'
  exact ⟨mem, taken, hrun, hlinked, hiff⟩

/- A record is made and one more source is linked to it. -/
def oneSource : List Call := [.getNewRecord 0 false, .getNewPeerSource 0]

theorem oneSource_named : Runs.Admits step Names empty oneSource := by
  refine ⟨trivial, ?_⟩
  intro h t hstep
  have hnew : empty.step (.getNewRecord 0 false) =
      some ({ empty with records := [⟨none, none, 0, false⟩] }, none) := rfl
  rw [hnew] at hstep
  cases hstep
  exact ⟨Nat.zero_lt_one, fun _ _ _ => trivial⟩

/-- The first node that GetNewPeerSource hands out is dead, and a record owns it. -/
theorem first_source_dead :
    ∃ mem s mid, Runs.run step empty oneSource = some (mem, [none, some (s, mid)]) ∧
      ¬ FreshNode s mid ∧ ¬ mem.Sound := by
  have hrun : (Runs.run step empty oneSource).map (fun x => (x.1.records.map RecordCell.head,
      x.1.live 0, x.2.map fun t => t.map fun y => (y.1, y.2.live y.1))) =
      some ([some 0], false, [none, some (0, false)]) := by
    decide +kernel
  obtain ⟨⟨mem, taken⟩, hrun, hmem⟩ := Option.map_eq_some_iff.mp hrun
  simp only [Prod.mk.injEq, List.map_eq_cons_iff, List.map_eq_nil_iff, Option.map_eq_none_iff,
    Option.map_eq_some_iff] at hmem
  obtain ⟨⟨r, _, hrecords, hhead, rfl⟩, hdead, _, _, rfl, rfl, _, _, rfl, ⟨⟨s, mid⟩, rfl, rfl, hmid⟩, rfl⟩ := hmem
  refine ⟨mem, 0, mid, hrun, ?_, ?_⟩
  · rintro ⟨hlive, _⟩
    rw [hmid] at hlive
    cases hlive
  · rintro ⟨free, owned, hlists, _, hlive, _⟩
    have hchains := hlists.chains
    rw [hrecords] at hchains
    cases hchains with
    | @cons _ l _ rest hr _ =>
      rw [hhead] at hr
      cases l with
      | nil => cases hr
      | cons n l =>
        cases hr.1
        have halive := hlive 0 (List.mem_append_right _ (by simp))
        rw [hdead] at halive
        cases halive

theorem nodes_inOrder_iff_oneSource :
    Runs.Admits step Names empty oneSource ∧
      ∃ mem taken, Runs.run step empty oneSource = some (mem, taken) ∧
        (∃ nodes, mem.Linked nodes) ∧
        (NodesInOrder mem taken ↔ ∀ i, Call.getNewPeerSource i ∉ oneSource) :=
  ⟨oneSource_named, nodes_inOrder_iff oneSource oneSource_named⟩

end Heap
end DnsWrapper.Bookkeeping
