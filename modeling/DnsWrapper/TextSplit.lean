import Mathlib.Data.List.Basic

/-! Texts cut into lines, into the tokens between blanks, and at a comment sign. -/
namespace DnsWrapper.TextSplit

/- The results of std::getline up to the end of a stream: no line behind a last delimiter. -/
def getlines (delim : Char) (text : List Char) : List (List Char) :=
  let ps := text.splitOn delim
  if ps.getLast? = some [] then ps.dropLast else ps

def isBlank (c : Char) : Bool := c = ' ' || c = '\t'

def words (text : List Char) : List (List Char) :=
  (text.splitOnP isBlank).filter fun w => !w.isEmpty

theorem splitOn_lines (delim : Char) {lines : List (List Char)} (h : ∀ l ∈ lines, delim ∉ l)
    (rest : List Char) :
    (lines.flatMap (· ++ [delim]) ++ rest).splitOn delim = lines ++ rest.splitOn delim := by
  induction lines with
  | nil => rfl
  | cons l lines ih =>
    rw [List.forall_mem_cons] at h
    have hl : ∀ c ∈ l, (c == delim) = false := by
      intro c hc
      rw [beq_eq_false_iff_ne]
      rintro rfl
      exact h.1 hc
    rw [List.flatMap_cons, List.append_assoc, List.append_assoc, List.singleton_append,
      List.splitOn_eq_splitOnP, List.splitOnP_append_cons_of_forall_mem hl delim (beq_self_eq_true _),
      ← List.splitOn_eq_splitOnP, ih h.2, List.cons_append]

/-- Lines that are each ended by the delimiter are found again. -/
theorem getlines_lines (delim : Char) {lines : List (List Char)} (h : ∀ l ∈ lines, delim ∉ l) :
    getlines delim (lines.flatMap (· ++ [delim])) = lines := by
  have hsplit := splitOn_lines delim h []
  rw [List.append_nil] at hsplit
  simp [getlines, hsplit]

/-- So are parts with a delimiter between them, if the last one is not empty. -/
theorem getlines_parts (delim : Char) {lines : List (List Char)} {last : List Char}
    (h : ∀ l ∈ lines, delim ∉ l) (hlast : delim ∉ last) (hne : last ≠ []) :
    getlines delim (lines.flatMap (· ++ [delim]) ++ last) = lines ++ [last] := by
  have hsingle : last.splitOn delim = [last] := by
    rw [List.splitOn_eq_splitOnP]
    apply List.splitOnP_eq_singleton
    intro c hc
    rw [beq_eq_false_iff_ne]
    rintro rfl
    exact hlast hc
  simp [getlines, splitOn_lines delim h, hsingle, hne]

/- A character of a text that is not the delimiter is in one of the pieces. -/
theorem mem_pieces {c delim : Char} (hne : c ≠ delim) {s : List Char} :
    c ∈ s ↔ ∃ g ∈ s.splitOn delim, c ∈ g := by
  induction s with
  | nil => simp
  | cons d s ih =>
    rw [List.splitOn_cons_eq_if_modifyHead]
    obtain ⟨g, gs, hgs⟩ := List.exists_cons_of_ne_nil (List.splitOn_ne_nil delim s)
    rw [hgs] at ih ⊢
    by_cases hd : d = delim
    · subst hd
      simp [ih, hne]
    · simp [ih, hd, or_assoc]

theorem length_pieces (delim : Char) (s : List Char) :
    (s.splitOn delim).length = s.count delim + 1 := by
  induction s with
  | nil => rfl
  | cons c s ih =>
    rw [List.splitOn_cons_eq_if_modifyHead, List.count_cons]
    split_ifs with h
    · rw [List.length_cons, ih]
    · rw [List.length_modifyHead, ih]

@[simp] theorem words_nil : words [] = [] := by
  simp [words]

theorem words_append (a b : List Char) : words (a ++ ' ' :: b) = words a ++ words b := by
  rw [words, List.splitOnP_append_cons a b rfl, List.filter_append]
  rfl

theorem words_token {w : List Char} (hne : w ≠ []) (h : ∀ c ∈ w, isBlank c = false) :
    words w = [w] := by
  rw [words, List.splitOnP_eq_singleton h]
  simp [hne]

/- A text up to its first comment sign. -/
def uncomment (sign : Char) (line : List Char) : List Char := line.takeWhile (· ≠ sign)

theorem uncomment_past {sign : Char} {line : List Char} (h : sign ∉ line) (rest : List Char) :
    uncomment sign (line ++ rest) = line ++ uncomment sign rest := by
  apply List.takeWhile_append_of_pos
  intro c hc
  rw [decide_eq_true_eq]
  rintro rfl
  exact h hc

theorem uncomment_append {sign : Char} {line : List Char} (h : sign ∉ line)
    (rest : List Char) : uncomment sign (line ++ sign :: rest) = line := by
  rw [uncomment_past h, uncomment, List.takeWhile_cons_of_neg (by simp), List.append_nil]

theorem uncomment_of_notMem {sign : Char} {line : List Char} (h : sign ∉ line) :
    uncomment sign line = line := by
  have hpast := uncomment_past h []
  have hnil : uncomment sign [] = [] := rfl
  rwa [hnil, List.append_nil] at hpast

end DnsWrapper.TextSplit
