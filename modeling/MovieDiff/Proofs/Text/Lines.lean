import MovieDiff.Proofs.Text.Characters
import MovieDiff.Text.Lines

/-!
Lines come back from the text that they are joined to, as long as no line holds a break. A text
that ends in a break has no further line, and an empty line at the end is lost without one.
-/
namespace MovieDiff.Text

open List

variable {cs line : List Char} {c : Char}

def isSingleLine (cs : List Char) : Bool :=
  cs.all fun c => !isLineBreak c

theorem isSingleLine_iff : isSingleLine cs ↔ ∀ c ∈ cs, isLineBreak c = false := by
  simp [isSingleLine]

theorem isBlank_of_isLineBreak (h : isLineBreak c) : isBlank c := by
  simp only [isLineBreak, Bool.or_eq_true, Bool.and_eq_true, decide_eq_true_eq, beq_iff_eq] at h
  simp only [isBlank, Bool.or_eq_true, Bool.and_eq_true, decide_eq_true_eq, beq_iff_eq]
  omega

theorem isSingleLine_of_no_blank (h : ∀ c ∈ cs, isBlank c = false) : isSingleLine cs := by
  refine isSingleLine_iff.2 fun c hc => ?_
  cases hbreak : isLineBreak c with
  | false => rfl
  | true => rw [← h c hc, isBlank_of_isLineBreak hbreak]

theorem isSingleLine_append {ds : List Char} :
    isSingleLine (cs ++ ds) ↔ isSingleLine cs ∧ isSingleLine ds := by
  simp [isSingleLine]

theorem isSingleLine_cons : isSingleLine (c :: cs) ↔ isLineBreak c = false ∧ isSingleLine cs := by
  simp [isSingleLine]

theorem newline_not_mem (h : isSingleLine cs) : '\n' ∉ cs := fun hmem =>
  absurd (isSingleLine_iff.1 h _ hmem) (by decide)

theorem return_not_mem (h : isSingleLine cs) : '\r' ∉ cs := fun hmem =>
  absurd (isSingleLine_iff.1 h _ hmem) (by decide)

/-! ### Cutting -/

theorem cutLines_break (h : isLineBreak c) (hne : c ≠ '\r') (rest : List Char) :
    cutLines (c :: rest) = [] :: cutLines rest := by
  rw [cutLines, if_pos h]
  rintro tail rfl
  exact absurd rfl hne

theorem cutLines_cons (h : isLineBreak c = false) (rest : List Char) :
    cutLines (c :: rest) = match cutLines rest with
      | [] => [[c]]
      | line :: lines => (c :: line) :: lines := by
  have hne : c ≠ '\r' := by
    rintro rfl
    exact absurd h (by decide)
  cases hrest : cutLines rest with
  | nil => simp [cutLines, h, hne, hrest]
  | cons line lines => simp [cutLines, h, hne, hrest]

/-- A line ends at its line break. -/
theorem cutLines_append_newline (h : isSingleLine line) (rest : List Char) :
    cutLines (line ++ '\n' :: rest) = line :: cutLines rest := by
  induction line with
  | nil => exact cutLines_break (by decide) (by decide) rest
  | cons c line ih =>
    obtain ⟨hc, hline⟩ := isSingleLine_cons.1 h
    rw [cons_append, cutLines_cons hc, ih hline]

theorem cutLines_of_isSingleLine (h : isSingleLine line) (hne : line ≠ []) :
    cutLines line = [line] := by
  induction line with
  | nil => exact absurd rfl hne
  | cons c line ih =>
    obtain ⟨hc, hline⟩ := isSingleLine_cons.1 h
    rw [cutLines_cons hc]
    cases line with
    | nil => rfl
    | cons d line => rw [ih hline (by simp)]

/-- Lines hold no line breaks. -/
theorem isSingleLine_of_mem_cutLines (h : line ∈ cutLines cs) : isSingleLine line := by
  fun_induction cutLines cs generalizing line with
  | case1 => cases h
  | case2 rest ih =>
    rcases mem_cons.1 h with rfl | h
    · rfl
    · exact ih h
  | case3 c rest hc hbreak ih =>
    rcases mem_cons.1 h with rfl | h
    · rfl
    · exact ih h
  | case4 c rest hc hbreak heq ih =>
    rw [mem_singleton.1 h]
    exact isSingleLine_cons.2 ⟨by simpa using hbreak, rfl⟩
  | case5 c rest hc hbreak first others heq ih =>
    rw [heq] at ih
    rcases mem_cons.1 h with rfl | h
    · exact isSingleLine_cons.2 ⟨by simpa using hbreak, ih mem_cons_self⟩
    · exact ih (mem_cons_of_mem first h)

theorem isSingleLine_of_mem_splitLines {line s : String} (h : line ∈ splitLines s) :
    isSingleLine line.toList := by
  obtain ⟨cs, hcs, rfl⟩ := mem_map.1 h
  rw [String.toList_ofList]
  exact isSingleLine_of_mem_cutLines hcs

/-! ### Joining -/

theorem unifyNewlines_eq_self (h : '\r' ∉ cs) : unifyNewlines cs = cs := by
  fun_induction unifyNewlines cs with
  | case1 => rfl
  | case2 rest ih => exact absurd mem_cons_self h
  | case3 c rest hc ih =>
    rw [mem_cons, not_or] at h
    rw [if_neg (Ne.symm h.1), ih h.2]

theorem joinLines_cons_cons (line next : String) (lines : List String) :
    joinLines (line :: next :: lines) = line ++ "\n" ++ joinLines (next :: lines) :=
  String.intercalate_cons_cons

theorem toList_joinLines_cons_cons (line next : String) (lines : List String) :
    (joinLines (line :: next :: lines)).toList =
      line.toList ++ '\n' :: (joinLines (next :: lines)).toList := by
  rw [joinLines_cons_cons]
  simp

theorem joinLines_singleton (line : String) : joinLines [line] = line :=
  String.intercalate_singleton

section SingleLines

variable {lines : List String} (hlines : ∀ line ∈ lines, isSingleLine line.toList)
include hlines

theorem return_not_mem_joinLines : '\r' ∉ (joinLines lines).toList := by
  induction lines with
  | nil => simp [joinLines]
  | cons line lines ih =>
    have hline := return_not_mem (hlines line mem_cons_self)
    cases lines with
    | nil => rwa [joinLines_singleton]
    | cons next lines =>
      have hrest := ih fun other hother => hlines other (mem_cons_of_mem line hother)
      simp [toList_joinLines_cons_cons, hline, hrest]

theorem unifyNewlines_joinLines_newline :
    unifyNewlines (joinLines lines ++ "\n").toList = (joinLines lines ++ "\n").toList := by
  have hjoined := return_not_mem_joinLines hlines
  exact unifyNewlines_eq_self (by simp [hjoined])

/-- A break after the last line ends it, so that it may be empty. -/
theorem splitLines_joinLines_newline (hne : lines ≠ []) :
    splitLines (joinLines lines ++ "\n") = lines := by
  suffices hcut : cutLines ((joinLines lines).toList ++ ['\n']) = lines.map String.toList by
    simp [splitLines, hcut, Function.comp_def]
  induction lines with
  | nil => exact absurd rfl hne
  | cons line lines ih =>
    have hline := hlines line mem_cons_self
    cases lines with
    | nil => rw [joinLines_singleton, cutLines_append_newline hline]; rfl
    | cons next lines =>
      have hrest := ih (fun other hother => hlines other (mem_cons_of_mem line hother)) (by simp)
      rw [toList_joinLines_cons_cons, append_assoc, cons_append,
        cutLines_append_newline hline, hrest]
      rfl

/-- Joined lines are split again. -/
theorem splitLines_joinLines (hne : ∀ line ∈ lines, line ≠ "") :
    splitLines (joinLines lines) = lines := by
  suffices hcut : cutLines (joinLines lines).toList = lines.map String.toList by
    simp [splitLines, hcut, Function.comp_def]
  induction lines with
  | nil => rfl
  | cons line lines ih =>
    have hline := hlines line mem_cons_self
    have hcs : line.toList ≠ [] := by simpa using hne line mem_cons_self
    cases lines with
    | nil => rw [joinLines_singleton, cutLines_of_isSingleLine hline hcs]; rfl
    | cons next lines =>
      have hrest := ih (fun other hother => hlines other (mem_cons_of_mem line hother))
        fun other hother => hne other (mem_cons_of_mem line hother)
      rw [toList_joinLines_cons_cons, cutLines_append_newline hline, hrest]
      rfl

end SingleLines

end MovieDiff.Text
