import DnsWrapper.RuleInsert
import DnsWrapper.RuleCalls

/-! The offsets at which insertRules stores. The loop that moves the rules up starts one byte
behind the room that was checked, so on a table that the insertion fills it leaves the array. -/
namespace DnsWrapper.Shm
open ByteRegion ByteWriter

/- The stores of shiftUp, in the order of the loop. -/
def shiftStores (stop : Nat) : Nat → List Nat
  | 0 => []
  | k + 1 => (stop + k + 1) :: shiftStores stop k

theorem mem_shiftStores {stop k t : Nat} : t ∈ shiftStores stop k ↔ stop < t ∧ t ≤ stop + k := by
  induction k with
  | zero => simp [shiftStores]
  | succ k ih =>
    rw [shiftStores, List.mem_cons, ih]
    omega

/- The loop is defined exactly if its stores are inside: the byte it loads is lower. -/
theorem shiftUp_isSome_iff {bytes i k : Nat} (hb : 0 < bytes) {data : List UInt8} :
    (shiftUp bytes (i + bytes) k data).isSome = true ↔
      ∀ t ∈ shiftStores (i + bytes) k, t < data.length := by
  constructor
  · intro hdef t ht
    rw [mem_shiftStores] at ht
    by_contra hout
    rw [shiftUp_faults (by omega) (by omega)] at hdef
    cases hdef
  · intro hall
    have hroom : k = 0 ∨ i + bytes + k < data.length := by
      by_cases hk : k = 0
      · exact .inl hk
      · exact .inr (hall _ (mem_shiftStores.mpr (by omega)))
    obtain ⟨data', hshift, _⟩ := shiftUp_copies hb hroom
    rw [hshift]
    rfl

namespace RuleData

/- insertRules with the offsets of its stores: those of the loop that moves bytes up, then
   those of the calls of memcpy. -/
def insertStores (rd : RuleData) (rules : List Rule) (index : Nat) : Option (List Nat) :=
  if index > rd.size then some []
  else do
    let bytes := (rules.map Rule.bytes).sum
    let insertionPoint ← skip rd.data index 0
    let finish ← skip rd.data (rd.size - index) insertionPoint
    if finish + bytes > dataSize then some []
    else some (shiftStores (insertionPoint + bytes) (finish - insertionPoint) ++
      List.range' insertionPoint bytes)

variable {rd : RuleData} {rules new : List Rule} {index : Nat}

/- The stores once the table is walked over, as a list of rules in it. -/
theorem insertStores_at (h : rd.Stores rules) (hi : index ≤ rules.length) (new : List Rule) :
    rd.insertStores new index =
      if (encodeAll rules).length + (encodeAll new).length > dataSize then some []
      else some (shiftStores ((encodeAll (rules.take index)).length + (encodeAll new).length)
          (encodeAll (rules.drop index)).length ++
        List.range' (encodeAll (rules.take index)).length (encodeAll new).length) := by
  obtain ⟨hskip, hskip', hk⟩ := h.walk hi
  rw [insertStores, if_neg (by rw [h.size_eq]; omega), ← length_encodeAll]
  simp only [hskip, hskip', hk, Option.bind_eq_bind, Option.bind_some]

/-- On an array with the rules in it, insertRules is defined exactly if all its stores are
inside the array. -/
theorem insertRules_isSome_iff (h : rd.Stores rules) (hi : index ≤ rules.length) (r : Rule) :
    (rd.insertRules [r] index).isSome = true ↔
      ∃ stores, rd.insertStores [r] index = some stores ∧ ∀ t ∈ stores, t < dataSize := by
  rw [insertRules_at h [r] hi, insertStores_at h hi [r], length_encodeAll_single]
  have hlen := length_take_drop rules index
  by_cases hfull : (encodeAll rules).length + r.bytes > dataSize
  · simp [hfull]
  · rw [if_neg hfull, if_neg hfull]
    have hcopy : ∀ t ∈ List.range' (encodeAll (rules.take index)).length r.bytes, t < dataSize := by
      intro t ht
      rw [List.mem_range'_1] at ht
      omega
    have hiff : (shiftUp r.bytes ((encodeAll (rules.take index)).length + r.bytes)
          (encodeAll (rules.drop index)).length rd.data).isSome = true ↔ _ :=
      shiftUp_isSome_iff (bytes_pos r)
    rw [h.data_length] at hiff
    simp only [Option.some.injEq, exists_eq_left', List.forall_mem_append]
    rw [← hiff, and_iff_left hcopy]
    cases hshift : shiftUp r.bytes ((encodeAll (rules.take index)).length + r.bytes)
        (encodeAll (rules.drop index)).length rd.data with
    | none => rfl
    | some data =>
      have hsize : data.length = dataSize := (length_shiftUp hshift).trans h.data_length
      have hover : Overwrites (all Rule.write [r]) (encodeAll [r]) :=
        overwrites_all [r] fun x _ => x.overwrites_write
      have hrun := hover data (encodeAll (rules.take index)).length (by
        rw [length_encodeAll_single, hsize]
        omega)
      simp [hrun]

/-- All stores are inside, if nothing is moved or a byte is left over behind the last rule. -/
theorem stores_inside_iff (h : rd.Stores rules) (hi : index ≤ rules.length) (r : Rule)
    (hfit : (encodeAll rules).length + r.bytes ≤ dataSize) :
    (∃ stores, rd.insertStores [r] index = some stores ∧ ∀ t ∈ stores, t < dataSize) ↔
      index = rules.length ∨ (encodeAll rules).length + r.bytes < dataSize := by
  have hlen := length_take_drop rules index
  rw [insertStores_at h hi [r], length_encodeAll_single, if_neg (by omega)]
  simp only [Option.some.injEq, exists_eq_left', List.forall_mem_append]
  constructor
  · rintro ⟨hshift, _⟩
    by_cases hend : index = rules.length
    · exact .inl hend
    · have hpos := (drop_head (show index < rules.length by omega)).1
      have hfirst := hshift ((encodeAll (rules.take index)).length + r.bytes +
        (encodeAll (rules.drop index)).length) (mem_shiftStores.mpr (by omega))
      exact .inr (by omega)
  · intro hor
    constructor
    · intro t ht
      rw [mem_shiftStores] at ht
      cases hor with
      | inl hend =>
        rw [hend, List.drop_length] at ht
        simp only [encodeAll, List.flatMap_nil, List.length_nil] at ht
        omega
      | inr hroom => omega
    · intro t ht
      rw [List.mem_range'_1] at ht
      omega

end RuleData

/-- After any calls of AppendRule, DeleteRule and ClearRules (and SetPolicy), the stores of an
InsertRule that passes the check of the capacity are inside the array exactly if the rule
comes last or does not fill the array. -/
theorem insert_stores_inside_iff {calls : List Call} (hcalls : ∀ c ∈ calls, ¬ c.isInsert)
    {rd : RuleData} {outs : List Bool}
    (hrun : Runs.run RuleData.exec RuleData.zeroed calls = some (rd, outs)) (r : Rule)
    {index : Nat} (hindex : index ≤ rd.size) {finish : Nat}
    (hfinish : skip rd.data rd.size 0 = some finish) (hfit : finish + r.bytes ≤ dataSize) :
    (∃ stores, rd.insertStores [r] index = some stores ∧ ∀ t ∈ stores, t < dataSize) ↔
      index = rd.size ∨ finish + r.bytes < dataSize := by
  obtain ⟨rd', outs', hrun', rules, hs, _⟩ := represents_calls hcalls
  rw [hrun] at hrun'
  cases hrun'
  rw [hs.size_eq] at hindex
  obtain ⟨_, hwalk, _⟩ := hs.walk (Nat.zero_le rules.length)
  have hend : finish = (encodeAll rules).length := by
    rw [Nat.sub_zero] at hwalk
    exact Option.some.inj (hfinish.symm.trans hwalk)
  rw [hend] at hfit ⊢
  rw [hs.size_eq]
  exact RuleData.stores_inside_iff hs hindex r hfit

theorem not_isInsert_append {rules : List Rule} :
    ∀ c ∈ rules.map Call.appendRule, ¬ c.isInsert := by
  intro c hc
  obtain ⟨r, _, rfl⟩ := List.mem_map.mp hc
  exact id

/- Rules that fill the array but for one redirection. -/
def almostFull : List Rule := List.replicate 568 sampleEth ++ List.replicate 4 sampleRedirect

theorem foldl_append {rules : List Rule} {l : RuleList}
    (h : l.bytes + (rules.map Rule.bytes).sum ≤ dataSize) :
    (rules.map Call.appendRule).foldl RuleList.next l =
      { l with rules := l.rules ++ rules.map Rule.value } := by
  induction rules generalizing l with
  | nil => simp
  | cons r rules ih =>
    rw [List.map_cons, List.sum_cons] at h
    have hnext : l.next (.appendRule r) = { l with rules := l.rules ++ [r.value] } :=
      if_pos (by omega)
    have hbytes : RuleList.bytes { l with rules := l.rules ++ [r.value] } = l.bytes + r.bytes := by
      simp [RuleList.bytes, r.bytes_value]
    rw [List.map_cons, List.foldl_cons, hnext, ih (by rw [hbytes]; omega)]
    simp

theorem almostFull_bytes : (almostFull.map Rule.bytes).sum = dataSize - 48 := by
  rw [almostFull, List.map_append, List.map_replicate, List.map_replicate, List.sum_append,
    List.sum_replicate_nat, List.sum_replicate_nat]
  decide

theorem almostFull_length : almostFull.length = 572 := by
  rw [almostFull, List.length_append, List.length_replicate, List.length_replicate]

theorem almostFull_calls : ∃ rd outs,
    Runs.run RuleData.exec RuleData.zeroed (almostFull.map Call.appendRule) = some (rd, outs) ∧
      rd.size = 572 ∧ skip rd.data rd.size 0 = some (dataSize - 48) := by
  obtain ⟨rd, outs, hrun, rules, hs, hv, _⟩ :=
    represents_calls fun c (hc : c ∈ almostFull.map Call.appendRule) => not_isInsert_append c hc
  have hzero : RuleList.zeroed.bytes = 0 := rfl
  rw [foldl_append (by rw [hzero, almostFull_bytes]; decide)] at hv
  have hlen : (encodeAll rules).length = dataSize - 48 := by
    rw [← bytes_of_values hv, ← almostFull_bytes, RuleList.bytes]
    simp [RuleList.zeroed, Function.comp_def, Rule.bytes_value]
  obtain ⟨_, hwalk, _⟩ := hs.walk (Nat.zero_le rules.length)
  refine ⟨rd, outs, hrun, ?_, ?_⟩
  · have hsize := congrArg List.length hv
    rw [List.length_map] at hsize
    rw [hs.size_eq, hsize, RuleList.zeroed, List.nil_append, List.length_map, almostFull_length]
  · rw [← hlen]
    exact hwalk

/-- One more redirection fills the array. Put in front of the others it passes the check, and
the first store of the loop is at the offset DATA_SIZE. -/
theorem filling_insert_leaves_array : ∃ rd outs finish,
    Runs.run RuleData.exec RuleData.zeroed (almostFull.map Call.appendRule) = some (rd, outs) ∧
      0 ≤ rd.size ∧ skip rd.data rd.size 0 = some finish ∧
      finish + sampleRedirect.bytes ≤ dataSize ∧
      ∃ stores, rd.insertStores [sampleRedirect] 0 = some stores ∧ dataSize ∈ stores := by
  obtain ⟨rd, outs, hrun, _, hend⟩ := almostFull_calls
  refine ⟨rd, outs, _, hrun, Nat.zero_le _, hend, by decide, ?_⟩
  have hzero : skip rd.data 0 0 = some 0 := rfl
  rw [RuleData.insertStores, if_neg (Nat.not_lt_zero _)]
  simp only [hzero, Nat.sub_zero, hend, Option.bind_eq_bind, Option.bind_some]
  refine ⟨_, if_neg (by decide), List.mem_append_left _ ?_⟩
  rw [mem_shiftStores]
  decide

theorem insert_stores_inside_iff_last : ∃ rd outs,
    Runs.run RuleData.exec RuleData.zeroed (almostFull.map Call.appendRule) = some (rd, outs) ∧
      ∃ stores, rd.insertStores [sampleRedirect] 572 = some stores ∧ ∀ t ∈ stores, t < dataSize := by
  obtain ⟨rd, outs, hrun, hsize, hend⟩ := almostFull_calls
  have hiff := insert_stores_inside_iff not_isInsert_append hrun sampleRedirect
    (Nat.le_of_eq hsize.symm) hend (by decide)
  exact ⟨rd, outs, hrun, hiff.mpr (.inl hsize.symm)⟩

end DnsWrapper.Shm
