import MovieDiff.Proofs.Alignment.Vote
import MovieDiff.Proofs.Pcode.Label

/-!
The labels of a line before and after a renaming. A renamed line is read with the renamed labels,
provided that its new label is a label word; a new label that is only fit as a target makes the
line lose all its labels.
-/
namespace MovieDiff.Alignment

open List
open Pcode
open Text (isBlank strip stripLeft stripRight StartsClear)

variable {label name target line rest : String} {ballot : Ballot}

/-- The labels that a line names: its own, then the target of its jump. -/
def labelsOf (line : String) : List String :=
  (splitLabel line).2.toList ++ (jumpTarget? line).toList

/-! ### Reading lines that were written -/

theorem splitLabel_eq_some (h : splitLabel line = (rest, some label)) :
    isLabelWord label.toList ∧ StartsClear rest.toList ∧ '\n' ∉ rest.toList := by
  unfold splitLabel at h
  split at h
  next word body hprefix =>
    cases h
    simp only [String.toList_ofList]
    obtain ⟨hword, hclear, hline, -⟩ := labelPrefix?_eq_some hprefix
    exact ⟨hword, hclear, hline⟩
  · cases h

theorem splitLabel_of_none (h : labelPrefix? line.toList = none) :
    splitLabel line = (line, none) := by
  simp [splitLabel, h]

theorem labelPrefix?_of_splitLabel (h : splitLabel line = (rest, none)) :
    rest = line ∧ labelPrefix? line.toList = none := by
  unfold splitLabel at h
  split at h
  · cases h
  next hprefix =>
    cases h
    exact ⟨rfl, hprefix⟩

theorem toList_write (name rest : String) :
    (name ++ ":" ++ rest).toList = name.toList ++ ':' :: rest.toList := by
  simp

/-- A label that is written is read back. -/
theorem splitLabel_write (hname : isLabelWord name.toList) (hclear : StartsClear rest.toList)
    (hline : '\n' ∉ rest.toList) :
    splitLabel (name ++ ":" ++ rest) = (rest, some name) := by
  rw [splitLabel, toList_write, labelPrefix?_write hname hclear hline]
  simp

/-- A text that gives no new start, line break or label in place of the one before. -/
structure ReadsAlike (cs new : List Char) : Prop where
  clear : StartsClear cs → StartsClear new
  single : '\n' ∉ cs → '\n' ∉ new
  unlabelled : labelPrefix? cs = none → labelPrefix? new = none

/-- A name that is a target word but no label word hides all labels of its line. -/
theorem labelsOf_write_of_not_isLabelWord (hname : isTargetWord name.toList)
    (hlabel : isLabelWord name.toList = false) (rest : String) :
    labelsOf (name ++ ":" ++ rest) = [] := by
  have hsplit : splitLabel (name ++ ":" ++ rest) = (name ++ ":" ++ rest, none) := by
    apply splitLabel_of_none
    rw [toList_write]
    exact labelPrefix?_of_not_isLabelWord hname hlabel _
  have hclear : ∀ c ∈ name.toList, isBlank c = false := fun c hc =>
    isBlank_of_isTargetChar (isTargetChar_of_mem hname hc)
  have hstrip : strip (name.toList ++ ':' :: rest.toList) =
      name.toList ++ ':' :: stripRight rest.toList := by
    have hleft : stripLeft (name.toList ++ ':' :: rest.toList) =
        name.toList ++ ':' :: rest.toList := by
      apply Text.stripLeft_eq_self
      obtain ⟨c, tail, hcs, -, -⟩ := isWordOf_iff.1 hname
      rw [hcs] at hclear ⊢
      exact Text.startsClear_cons.2 (hclear c mem_cons_self)
    rw [strip, hleft]
    exact Text.stripRight_append (by decide) _
  have hjump : jumpTarget? (name ++ ":" ++ rest) = none := by
    rw [jumpTarget?, dropLabel, hsplit, toList_write, hstrip, jumpLine?_of_colon hclear]
    rfl
  rw [labelsOf, hsplit, hjump]
  rfl

def jumpText (opcode : List Char) (target : String) : String :=
  String.ofList opcode ++ " " ++ target

theorem toList_jumpText (opcode : List Char) (target : String) :
    (jumpText opcode target).toList = opcode ++ ' ' :: target.toList := by
  simp [jumpText]

section JumpText

variable {opcode : List Char} (hopcode : isJumpWord opcode)
  (hblank : ∀ c ∈ opcode, isBlank c = false) (htarget : isTargetWord target.toList)

include hblank htarget in
theorem newline_not_mem_jumpText : '\n' ∉ (jumpText opcode target).toList := by
  have hnewline : isBlank '\n' = true := by decide
  rw [toList_jumpText]
  intro hmem
  rcases mem_append.1 hmem with hmem | hmem
  · rw [hblank _ hmem] at hnewline
    cases hnewline
  · rcases mem_cons.1 hmem with hmem | hmem
    · cases hmem
    · rw [isBlank_of_isTargetChar (isTargetChar_of_mem htarget hmem)] at hnewline
      cases hnewline

include hopcode hblank

theorem startsClear_jumpText (target : String) : StartsClear (jumpText opcode target).toList := by
  rw [toList_jumpText]
  cases opcode with
  | nil => exact absurd rfl (isJumpWord_ne_nil hopcode)
  | cons c opcode => exact Text.startsClear_cons.2 (hblank c mem_cons_self)

include htarget

theorem strip_jumpText : strip (jumpText opcode target).toList = (jumpText opcode target).toList := by
  rw [strip, Text.stripLeft_eq_self (startsClear_jumpText hopcode hblank target), toList_jumpText]
  rcases eq_nil_or_concat target.toList with hnil | ⟨front, last, hcs⟩
  · rw [hnil] at htarget
    cases htarget
  · have hlast : isBlank last = false :=
      isBlank_of_isTargetChar (isTargetChar_of_mem htarget (by simp [hcs]))
    rw [hcs, concat_eq_append, ← cons_append, ← append_assoc]
    exact Text.stripRight_append_of_not_blank hlast _

/-- A jump that is written is read back. -/
theorem jumpLine?_jumpText :
    jumpLine? (strip (jumpText opcode target).toList) = some (opcode, target.toList) := by
  rw [strip_jumpText hopcode hblank htarget, toList_jumpText]
  exact jumpLine?_write hopcode hblank htarget

/-- A jump is not taken for a label. -/
theorem labelPrefix?_jumpText : labelPrefix? (jumpText opcode target).toList = none := by
  rw [toList_jumpText]
  obtain ⟨c, tail, hcs, hc, -⟩ := isWordOf_iff.1 htarget
  have hchar := isTargetChar_of_isTargetStart hc
  rw [hcs]
  cases opcode with
  | nil => exact absurd rfl (isJumpWord_ne_nil hopcode)
  | cons w word =>
    refine labelPrefix?_of_words (hblank w mem_cons_self) (fun d hd => ⟨?_, ?_⟩)
      (isBlank_of_isTargetChar hchar) (ne_colon_of_isTargetChar hchar)
    · exact hblank d (mem_cons_of_mem _ hd)
    · exact ne_colon_of_isJumpWord hopcode d (mem_cons_of_mem _ hd)

theorem readsAlike_jumpText (cs : List Char) : ReadsAlike cs (jumpText opcode target).toList :=
  ⟨fun _ => startsClear_jumpText hopcode hblank target,
    fun _ => newline_not_mem_jumpText hblank htarget,
    fun _ => labelPrefix?_jumpText hopcode hblank htarget⟩

end JumpText

/-! ### Renamed lines -/

def targetOf? (rest : String) : Option String :=
  (jumpLine? (strip rest.toList)).map fun parts => String.ofList parts.2

theorem isTargetWord_of_targetOf? (h : targetOf? rest = some target) :
    isTargetWord target.toList := by
  obtain ⟨⟨opcode, word⟩, hjump, htarget⟩ := Option.map_eq_some_iff.1 h
  cases htarget
  rw [String.toList_ofList]
  exact (jumpLine?_eq_some hjump).2.1

theorem labelsOf_of_splitLabel {label : Option String} (h : splitLabel line = (rest, label)) :
    labelsOf line = label.toList ++ (targetOf? rest).toList := by
  rw [labelsOf, jumpTarget?, dropLabel, h, targetOf?]

/-- The rest of a line, after its label, with the target of its jump renamed. -/
def renameTarget (table : Renaming) (rest : String) : String :=
  match jumpLine? (strip rest.toList) with
  | some (opcode, target) =>
    match table.get? (String.ofList target) with
    | some newTarget => jumpText opcode newTarget
    | none => rest
  | none => rest

/-- Either the target is kept and the text with it, or the text is written as a jump. -/
theorem renameTarget_cases (table : Renaming) (rest : String) :
    (renameTarget table rest = rest ∧ ∀ target ∈ targetOf? rest, table.get? target = none) ∨
      ∃ opcode target newTarget, jumpLine? (strip rest.toList) = some (opcode, target) ∧
        table.get? (String.ofList target) = some newTarget ∧
        renameTarget table rest = jumpText opcode newTarget := by
  unfold renameTarget targetOf?
  cases hjump : jumpLine? (strip rest.toList) with
  | none => exact .inl ⟨rfl, by simp⟩
  | some parts =>
    obtain ⟨opcode, target⟩ := parts
    cases hnew : table.get? (String.ofList target) with
    | none =>
      refine .inl ⟨by simp [hnew], ?_⟩
      rintro name ⟨⟩
      exact hnew
    | some newTarget => exact .inr ⟨opcode, target, newTarget, rfl, hnew, by simp [hnew]⟩

def NamesTargets (table : Renaming) : Prop :=
  ∀ name newName, table.get? name = some newName → isTargetWord newName.toList

section Renamed

variable {table : Renaming} (htable : NamesTargets table)
include htable

/-- The target is the renamed one. -/
theorem targetOf?_renameTarget (rest : String) :
    targetOf? (renameTarget table rest) = (targetOf? rest).map table.rename := by
  rcases renameTarget_cases table rest with
    ⟨hsame, hkept⟩ | ⟨opcode, target, newTarget, hjump, hnew, hwritten⟩
  · rw [hsame]
    cases htarget : targetOf? rest with
    | none => rfl
    | some target => rw [Option.map_some, Renaming.rename_of_none (hkept target htarget)]
  · obtain ⟨hopcode, -, hblank⟩ := jumpLine?_eq_some hjump
    have hread := jumpLine?_jumpText hopcode hblank (htable _ _ hnew)
    simp [targetOf?, hwritten, hread, hjump, Renaming.rename_of_some hnew]

theorem readsAlike_renameTarget (rest : String) :
    ReadsAlike rest.toList (renameTarget table rest).toList := by
  rcases renameTarget_cases table rest with
    ⟨hsame, -⟩ | ⟨opcode, target, newTarget, hjump, hnew, hwritten⟩
  · rw [hsame]
    exact ⟨id, id, id⟩
  · obtain ⟨hopcode, -, hblank⟩ := jumpLine?_eq_some hjump
    rw [hwritten]
    exact readsAlike_jumpText hopcode hblank (htable _ _ hnew) _

omit htable in
theorem renameLabels_of_unlabelled (h : splitLabel line = (line, none)) :
    renameLabels table line = renameTarget table line := by
  unfold renameLabels renameTarget
  rw [h]
  dsimp only
  cases hjump : jumpLine? (strip line.toList) with
  | none => rfl
  | some parts =>
    cases hnew : table.get? (String.ofList parts.2) with
    | none => simp [hnew]
    | some newTarget => simp [hnew, jumpText]

omit htable in
/-- A labelled line is written anew unless nothing in it is renamed. -/
theorem renameLabels_of_labelled {label : String} (h : splitLabel line = (rest, some label)) :
    renameLabels table line = table.rename label ++ ":" ++ renameTarget table rest ∨
      renameLabels table line = line ∧ table.rename label = label ∧
        renameTarget table rest = rest := by
  unfold renameLabels
  rw [h]
  dsimp only [Option.map_some]
  rcases renameTarget_cases table rest with
    ⟨hsame, hkept⟩ | ⟨opcode, target, newTarget, hjump, hnew, hwritten⟩
  · have hunchanged : (match jumpLine? (strip rest.toList) with
        | some (opcode, target) =>
          match table.get? (String.ofList target) with
          | some newTarget =>
            table.rename label ++ ":" ++ String.ofList opcode ++ " " ++ newTarget
          | none => if some (table.rename label) == some label then line
            else table.rename label ++ ":" ++ rest
        | none => if some (table.rename label) == some label then line
            else table.rename label ++ ":" ++ rest) =
        if some (table.rename label) == some label then line
          else table.rename label ++ ":" ++ rest := by
      cases hjump : jumpLine? (strip rest.toList) with
      | none => rfl
      | some parts =>
        have hnone := hkept (String.ofList parts.2) (by simp [targetOf?, hjump])
        simp [hnone]
    rw [hsame]
    by_cases hlabel : table.rename label = label
    · refine .inr ⟨?_, hlabel, rfl⟩
      refine hunchanged.trans ?_
      simp [hlabel]
    · refine .inl (hunchanged.trans ?_)
      simp [hlabel]
  · left
    simp [hjump, hnew, hwritten, jumpText, Renaming.rename, String.append_assoc]

/-- A renamed line is read with its new label, if that can be read as a label. -/
theorem splitLabel_renameLabels {label : Option String} (hsplit : splitLabel line = (rest, label))
    (hread : ∀ name ∈ label, isLabelWord (table.rename name).toList) :
    splitLabel (renameLabels table line) = (renameTarget table rest, label.map table.rename) := by
  have halike := readsAlike_renameTarget htable rest
  cases label with
  | none =>
    obtain ⟨rfl, hnone⟩ := labelPrefix?_of_splitLabel hsplit
    rw [renameLabels_of_unlabelled hsplit]
    exact splitLabel_of_none (halike.unlabelled hnone)
  | some label =>
    obtain ⟨-, hclear, hline⟩ := splitLabel_eq_some hsplit
    rcases renameLabels_of_labelled hsplit with hwritten | ⟨hsame, hlabel, hrest⟩
    · rw [hwritten]
      exact splitLabel_write (hread label rfl) (halike.clear hclear) (halike.single hline)
    · rw [hsame, hsplit, hrest, Option.map_some, hlabel]

/-- A renamed line names the renamed labels, if its own new label can be read as a label. -/
theorem labelsOf_renameLabels
    (hread : ∀ label ∈ (splitLabel line).2, isLabelWord (table.rename label).toList) :
    labelsOf (renameLabels table line) = (labelsOf line).map table.rename := by
  rcases hsplit : splitLabel line with ⟨rest, label⟩
  rw [hsplit] at hread
  rw [labelsOf_of_splitLabel (splitLabel_renameLabels htable hsplit hread),
    labelsOf_of_splitLabel hsplit, targetOf?_renameTarget htable, map_append, Option.toList_map,
    Option.toList_map]

/-- A line whose new label cannot be read as a label names no labels any more. -/
theorem labelsOf_renameLabels_of_unreadable (hlabel : label ∈ (splitLabel line).2)
    (hread : isLabelWord (table.rename label).toList = false) :
    labelsOf (renameLabels table line) = [] := by
  rcases hsplit : splitLabel line with ⟨rest, own⟩
  rw [hsplit] at hlabel
  cases hlabel
  have hword := (splitLabel_eq_some hsplit).1
  rcases renameLabels_of_labelled hsplit with hwritten | ⟨-, hkept, -⟩
  · rw [hwritten]
    cases hnew : table.get? label with
    | none =>
      rw [Renaming.rename_of_none hnew, hword] at hread
      cases hread
    | some newLabel =>
      rw [Renaming.rename_of_some hnew] at hread ⊢
      exact labelsOf_write_of_not_isLabelWord (htable _ _ hnew) hread _
  · rw [hkept, hword] at hread
    cases hread

end Renamed

/-! ### The table of an anchor and a text -/

theorem isTargetWord_of_mem_labelsOf (h : label ∈ labelsOf line) : isTargetWord label.toList := by
  rcases mem_append.1 h with hown | htarget
  · rcases hsplit : splitLabel line with ⟨rest, own⟩
    rw [hsplit, Option.mem_toList] at hown
    cases hown
    exact isTargetWord_of_isLabelWord (splitLabel_eq_some hsplit).1
  · exact isTargetWord_of_targetOf? (Option.mem_toList.1 htarget)

theorem mem_of_mem_ballotOf {anchor name : Option String}
    (h : ballot ∈ ballotOf anchor name) : name = some ballot.1 ∧ anchor = some ballot.2 := by
  unfold ballotOf at h
  split at h
  · cases mem_singleton.1 h
    exact ⟨rfl, rfl⟩
  · cases h

/-- A ballot names labels of its two lines. -/
theorem mem_labelsOf_of_ballot {lines : String × String} (h : ballot ∈ labelBallots lines) :
    ballot.1 ∈ labelsOf lines.2 ∧ ballot.2 ∈ labelsOf lines.1 := by
  rcases mem_append.1 h with hown | htarget
  · obtain ⟨hname, hanchor⟩ := mem_of_mem_ballotOf hown
    simp [labelsOf, hname, hanchor]
  · obtain ⟨hname, hanchor⟩ := mem_of_mem_ballotOf htarget
    simp [labelsOf, hname, hanchor]

/-- The table leads from labels of the text to labels of the anchor. -/
theorem mem_of_get?_labelRenaming {anchor text : List String} {newName : String}
    (h : (labelRenaming anchor text).get? name = some newName) :
    name ∈ text.flatMap labelsOf ∧ newName ∈ anchor.flatMap labelsOf :=
  mem_of_get?_elect_ballots (fun _ _ => mem_labelsOf_of_ballot) h

theorem namesTargets_labelRenaming (anchor text : List String) :
    NamesTargets (labelRenaming anchor text) := by
  intro name newName h
  obtain ⟨line, -, hline⟩ := mem_flatMap.1 (mem_of_get?_labelRenaming h).2
  exact isTargetWord_of_mem_labelsOf hline

end MovieDiff.Alignment
