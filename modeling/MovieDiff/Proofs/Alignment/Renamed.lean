import MovieDiff.Proofs.Alignment.Tokens
import MovieDiff.Proofs.Pcode.WellFormed
import Mathlib.Logic.Equiv.Basic

/-!
Alignment takes a renaming back. A text that is written from readable lines and then has its labels
renamed one-to-one is aligned with the original to give the original, character by character. The
same holds of registers where no line names two of them, except that a store with text after its
digits comes out with that text twice.
-/
namespace MovieDiff.Alignment

open List
open Pcode
open Text (isBlank stripLeft StartsClear EndsClear)
open String (ofList ofList_toList toList_ofList)

variable {cs token word : List Char} {label : Option String} {table : Renaming}
  {store : RegisterStore} {text : List String}

/-! ### Lines as they are written -/

/-- A line made of a label, if any, and a text in which no further label is read. -/
structure IsWritten (line : String) (label : Option String) (rest : String) : Prop where
  text : line = withLabel label rest.toList
  word : ∀ name ∈ label, isLabelWord name.toList
  clear : StartsClear rest.toList
  single : '\n' ∉ rest.toList
  unlabelled : labelPrefix? rest.toList = none

/-- A text without blanks at its ends that is no jump, or a jump with one space in it. -/
inductive IsBody : String → Prop where
  | plain {rest : String} (hclear : StartsClear rest.toList) (hends : EndsClear rest.toList)
      (hjump : jumpLine? rest.toList = none) : IsBody rest
  | jump {opcode : List Char} {target : String} (hopcode : isJumpWord opcode)
      (hblank : ∀ c ∈ opcode, isBlank c = false) (htarget : isTargetWord target.toList) :
      IsBody (jumpText opcode target)

theorem withLabel_none (rest : String) : withLabel none rest.toList = rest := by
  rw [withLabel, ofList_toList]

theorem withLabel_some (name rest : String) :
    withLabel (some name) rest.toList = name ++ ":" ++ rest := by
  rw [withLabel, ofList_toList]

theorem IsWritten.split {line rest : String}
    (h : IsWritten line label rest) : splitLabel line = (rest, label) := by
  rw [h.text]
  cases label with
  | none =>
    rw [withLabel_none]
    exact splitLabel_of_none h.unlabelled
  | some name =>
    rw [withLabel_some]
    exact splitLabel_write (h.word name rfl) h.clear h.single

/-- A line stays a written one when its label or the text after that is replaced. -/
theorem IsWritten.replaced {line rest : String} {label' : Option String} {new : List Char}
    (h : IsWritten line label rest) (hword : ∀ name ∈ label', isLabelWord name.toList)
    (halike : ReadsAlike rest.toList new) : IsWritten (withLabel label' new) label' (ofList new) := by
  rw [← toList_ofList (l := new)] at halike
  exact ⟨by rw [toList_ofList], hword, halike.clear h.clear, halike.single h.single,
    halike.unlabelled h.unlabelled⟩

theorem IsBody.endsClear {rest : String} (h : IsBody rest) : EndsClear rest.toList := by
  cases h with
  | plain hclear hends hjump => exact hends
  | @jump opcode target hopcode hblank htarget =>
    have hclear : ∀ c ∈ target.toList, isBlank c = false := fun c hc =>
      isBlank_of_isTargetChar (isTargetChar_of_mem htarget hc)
    have hne : target.toList ≠ [] := by
      intro hnil
      rw [hnil] at htarget
      cases htarget
    rw [toList_jumpText, ← singleton_append, ← append_assoc]
    exact Text.endsClear_append hne (Text.endsClear_of_forall hclear)

/-- The first word of a line, up to a blank, can be told from the rest. -/
theorem eq_of_append_blank {word' rest rest' : List Char}
    (hword : ∀ c ∈ word, isBlank c = false) (hrest : ∀ c ∈ rest.head?, isBlank c = true)
    (hword' : ∀ c ∈ word', isBlank c = false) (hrest' : ∀ c ∈ rest'.head?, isBlank c = true)
    (h : word ++ rest = word' ++ rest') : word = word' ∧ rest = rest' := by
  have hfirst : ∀ {w r : List Char}, (∀ c ∈ w, isBlank c = false) →
      (∀ c ∈ r.head?, isBlank c = true) → (w ++ r).takeWhile (!isBlank ·) = w := by
    intro w r hw hr
    exact Text.takeWhile_append_of_head (fun c hc => by simp [hw c hc])
      fun c hc => by simp [hr c hc]
  have hsame : word = word' := by rw [← hfirst hword hrest, h, hfirst hword' hrest']
  subst hsame
  exact ⟨rfl, append_cancel_left h⟩

/-- A jump that is written with a single space is read with its target right after it. -/
theorem eq_of_jumpLine?_space {tail opcode target : List Char}
    (hword : ∀ c ∈ word, isBlank c = false)
    (htail : tail = [] ∨ ∃ c more, tail = ' ' :: c :: more ∧ isBlank c = false)
    (hline : '\n' ∉ word ++ tail) (hjump : jumpLine? (word ++ tail) = some (opcode, target)) :
    word = opcode ∧ tail = ' ' :: target := by
  obtain ⟨-, -, hclear⟩ := jumpLine?_eq_some hjump
  obtain ⟨b, blanks, hb, hblanks, hparts⟩ := exists_blanks_of_jumpLine? hline hjump
  have hhead : ∀ c ∈ tail.head?, isBlank c = true := by
    rcases htail with rfl | ⟨c, more, rfl, -⟩
    · simp
    · rintro d ⟨⟩
      decide
  obtain ⟨hsame, hrest⟩ :=
    eq_of_append_blank hword hhead hclear (by rintro c ⟨⟩; exact hb) hparts
  refine ⟨hsame, ?_⟩
  rcases htail with rfl | ⟨c, more, rfl, hc⟩
  · cases hrest
  · obtain ⟨-, hoperand⟩ := List.cons.inj hrest
    cases blanks with
    | nil => rw [hoperand, nil_append]
    | cons d blanks =>
      obtain ⟨rfl, -⟩ := List.cons.inj hoperand
      rw [hblanks c mem_cons_self] at hc
      cases hc

/-- A readable instruction is a body. -/
theorem isBody_instruction {line : Line} {opcode : String} (hne : opcode.toList ≠ [])
    (hopcode : ∀ c ∈ opcode.toList, isBareChar c) (hoperands : ∀ o ∈ line.operands, o.IsReadable) :
    IsBody (opcode ++ line.tailText) := by
  have hsingle := Text.newline_not_mem (isSingleLine_instruction hopcode hoperands)
  have htail : line.tailText.toList = [] ∨
      ∃ c more, line.tailText.toList = ' ' :: c :: more ∧ isBlank c = false := by
    rcases Line.tailText_cases hoperands with hnil | ⟨c, more, hmore, hc, -⟩
    · exact .inl hnil
    · exact .inr ⟨c, more, hmore, hc⟩
  cases hjump : jumpLine? (opcode ++ line.tailText).toList with
  | none =>
    exact .plain (startsClear_instruction hne hopcode) (endsClear_instruction hopcode hoperands)
      hjump
  | some parts =>
    obtain ⟨word, target⟩ := parts
    obtain ⟨hword, htarget, hclear⟩ := jumpLine?_eq_some hjump
    rw [String.toList_append] at hsingle hjump
    obtain ⟨hsame, hspace⟩ := eq_of_jumpLine?_space
      (fun c hc => isBlank_of_isBareChar (hopcode c hc)) htail hsingle hjump
    have htext : opcode ++ line.tailText = jumpText word (ofList target) := by
      rw [← String.toList_inj, toList_jumpText, toList_ofList, String.toList_append, hsame,
        hspace]
    rw [htext]
    exact .jump hword hclear (by rwa [toList_ofList])

theorem labelText_append (line : Line) (rest : String)
    (hlabel : ∀ name ∈ line.label, isLabelWord name.toList) :
    line.labelText ++ rest = withLabel line.label rest.toList := by
  cases hcase : line.label with
  | none => rw [labelText_none hcase, withLabel_none, String.empty_append]
  | some name => rw [labelText_some hcase (hlabel name hcase), withLabel_some]

/-- A readable line is written with its label and a body. -/
theorem exists_isWritten_render {line : Line} (h : line.IsReadable) :
    ∃ rest, IsWritten line.render line.label rest ∧ IsBody rest := by
  cases h with
  | @instruction sources label opcode operands hlabel hne hopcode hoperands =>
    have hsingle := @isSingleLine_instruction opcode ⟨sources, label, .instruction opcode operands⟩
      hopcode hoperands
    refine ⟨_, ⟨?_, hlabel, startsClear_instruction hne hopcode, Text.newline_not_mem hsingle,
      labelPrefix?_instruction hne hopcode hoperands⟩, isBody_instruction hne hopcode hoperands⟩
    rw [render_instruction]
    exact labelText_append _ _ hlabel
  | @closing sources label hlabel =>
    have htext := labelText_append ⟨sources, label, .structural "\x7d"⟩ "\x7d" hlabel
    have hclear : StartsClear "\x7d".toList := Text.startsClear_cons.2 (by decide)
    have hends : EndsClear "\x7d".toList := by
      rintro c ⟨⟩
      decide
    exact ⟨"\x7d", ⟨htext, hlabel, hclear, by decide, rfl⟩, .plain hclear hends (by decide)⟩
  | @labelOnly sources label hlabel =>
    have hword : ∀ name ∈ some label, isLabelWord name.toList := by
      rintro name ⟨⟩
      exact hlabel
    have htext := labelText_append ⟨sources, some label, .labelOnly⟩ "" hword
    rw [String.append_empty] at htext
    have hclear : StartsClear "".toList := by rintro c ⟨⟩
    have hends : EndsClear "".toList := by rintro c ⟨⟩
    exact ⟨"", ⟨htext, hword, hclear, by decide, rfl⟩, .plain hclear hends (by decide)⟩

/-! ### The vote of a text that was renamed -/

/-- Where a renaming leaves the keys of all lines and each new name votes for the old one, the
vote leads every line back to its old names. -/
theorem map_elect_of_renamed {key rewrite rename restored : String → String}
    {names : String → List String} {ballots : String × String → List Ballot}
    {restore : Renaming → String → String}
    (hinjective : ∀ a ∈ text.flatMap names, ∀ b ∈ text.flatMap names, rename a = rename b → a = b)
    (hlines : ∀ line ∈ text, key (rewrite line) = key line ∧
      ballots (line, rewrite line) = (names line).map (fun name => (rename name, name)) ∧
      ∀ table : Renaming, (∀ name ∈ names line, table.get? (rename name) = some name) →
        restore table (rewrite line) = restored line) :
    (text.map rewrite).map (restore (elect ((matchedLines (text.map key)
        ((text.map rewrite).map key) text (text.map rewrite)).flatMap ballots))) =
      text.map restored := by
  have hkeys : (text.map rewrite).map key = text.map key := by
    rw [map_map]
    exact map_congr_left fun line hline => (hlines line hline).1
  rw [hkeys, matchedLines_self (by simp) (by simp), ← map_prod_left_eq_zip, flatMap_map,
    flatMap_congr fun line hline => (hlines line hline).2.1, ← map_flatMap, map_map]
  refine map_congr_left fun line hline => (hlines line hline).2.2 _ fun name hname => ?_
  exact get?_elect_map hinjective (mem_flatMap.2 ⟨line, hline, hname⟩)

/-! ### Labels -/

def relabelTarget (rename : String → String) (rest : String) : String :=
  match jumpLine? rest.toList with
  | some (opcode, target) => jumpText opcode (rename (ofList target))
  | none => rest

/-- The line with its label and the target of its jump replaced. -/
def relabel (rename : String → String) (line : String) : String :=
  let (rest, label) := splitLabel line
  withLabel (label.map rename) (relabelTarget rename rest).toList

/-- Different labels of a text stay different, and stay labels. -/
structure RenamesLabels (rename : String → String) (text : List String) : Prop where
  injective : ∀ a ∈ text.flatMap labelsOf, ∀ b ∈ text.flatMap labelsOf, rename a = rename b → a = b
  targets : ∀ label ∈ text.flatMap labelsOf, isTargetWord (rename label).toList
  labels : ∀ label ∈ text.filterMap fun line => (splitLabel line).2,
    isLabelWord (rename label).toList

section JumpText

variable {opcode : List Char} {target : String} (hopcode : isJumpWord opcode)
  (hblank : ∀ c ∈ opcode, isBlank c = false) (htarget : isTargetWord target.toList)
include hopcode hblank htarget

theorem jumpLine?_toList_jumpText :
    jumpLine? (jumpText opcode target).toList = some (opcode, target.toList) := by
  rw [toList_jumpText]
  exact jumpLine?_write hopcode hblank htarget

theorem targetOf?_jumpText : targetOf? (jumpText opcode target) = some target := by
  rw [targetOf?, jumpLine?_jumpText hopcode hblank htarget, Option.map_some, ofList_toList]

theorem relabelTarget_jumpText (rename : String → String) :
    relabelTarget rename (jumpText opcode target) = jumpText opcode (rename target) := by
  rw [relabelTarget, jumpLine?_toList_jumpText hopcode hblank htarget]
  dsimp only
  rw [ofList_toList]

theorem renameTarget_jumpText (table : Renaming) :
    renameTarget table (jumpText opcode target) = jumpText opcode (table.rename target) := by
  rw [renameTarget, jumpLine?_jumpText hopcode hblank htarget]
  dsimp only
  rw [ofList_toList]
  cases hnew : table.get? target with
  | none => rw [Renaming.rename_of_none hnew]
  | some newTarget => rw [Renaming.rename_of_some hnew]

end JumpText

section Plain

variable {rest : String} (hclear : StartsClear rest.toList) (hends : EndsClear rest.toList)
  (hjump : jumpLine? rest.toList = none)

include hjump in
theorem relabelTarget_plain (rename : String → String) : relabelTarget rename rest = rest := by
  rw [relabelTarget, hjump]

include hclear hends hjump

theorem targetOf?_plain : targetOf? rest = none := by
  rw [targetOf?, Text.strip_eq_self hclear hends, hjump]
  rfl

theorem renameTarget_plain (table : Renaming) : renameTarget table rest = rest := by
  rw [renameTarget, Text.strip_eq_self hclear hends, hjump]

end Plain

section Relabelled

variable {line rest : String} (hline : IsWritten line label rest)
include hline

theorem relabel_eq (rename : String → String) :
    relabel rename line = withLabel (label.map rename) (relabelTarget rename rest).toList := by
  rw [relabel, hline.split]

theorem labelsOf_eq : labelsOf line = label.toList ++ (targetOf? rest).toList :=
  labelsOf_of_splitLabel hline.split

/-- A written line is renamed by writing it anew. -/
theorem renameLabels_eq (table : Renaming) :
    renameLabels table line =
      withLabel (label.map table.rename) (renameTarget table rest).toList := by
  cases label with
  | none =>
    have hsame : rest = line := (labelPrefix?_of_splitLabel hline.split).1
    rw [Option.map_none, withLabel_none, renameLabels_of_unlabelled (hsame ▸ hline.split), hsame]
  | some name =>
    rw [Option.map_some, withLabel_some]
    rcases @renameLabels_of_labelled line rest table name hline.split with
      hwritten | ⟨hsame, hlabel, hrest⟩
    · exact hwritten
    · rw [hsame, hlabel, hrest, ← withLabel_some, ← hline.text]

variable (hbody : IsBody rest) {rename : String → String}
  (hlabels : ∀ name ∈ label, isLabelWord (rename name).toList)
  (htargets : ∀ target ∈ targetOf? rest, isTargetWord (rename target).toList)
include hbody htargets

omit hline in
theorem targetOf?_relabelTarget :
    targetOf? (relabelTarget rename rest) = (targetOf? rest).map rename := by
  cases hbody with
  | plain hclear hends hjump =>
    rw [relabelTarget_plain hjump, targetOf?_plain hclear hends hjump]
    rfl
  | @jump opcode target hopcode hblank htarget =>
    have hread := targetOf?_jumpText hopcode hblank htarget
    rw [relabelTarget_jumpText hopcode hblank htarget, hread,
      targetOf?_jumpText hopcode hblank (htargets target hread)]
    rfl

include hlabels

/-- A line with new labels is a written line again. -/
theorem isWritten_relabel :
    IsWritten (relabel rename line) (label.map rename) (relabelTarget rename rest) := by
  have hword : ∀ name ∈ label.map rename, isLabelWord name.toList := by
    intro name hname
    obtain ⟨old, hold, rfl⟩ := Option.map_eq_some_iff.1 hname
    exact hlabels old hold
  have halike : ReadsAlike rest.toList (relabelTarget rename rest).toList := by
    cases hbody with
    | plain hclear hends hjump =>
      rw [relabelTarget_plain hjump]
      exact ⟨id, id, id⟩
    | @jump opcode target hopcode hblank htarget =>
      rw [relabelTarget_jumpText hopcode hblank htarget]
      exact readsAlike_jumpText hopcode hblank
        (htargets target (targetOf?_jumpText hopcode hblank htarget)) _
  have hnew := hline.replaced hword halike
  rwa [ofList_toList, ← relabel_eq hline] at hnew

/-- New labels do not show when labels are made anonymous. -/
theorem neutralizeLabels_relabel :
    neutralizeLabels (relabel rename line) = neutralizeLabels line := by
  have hnew := (isWritten_relabel hline hbody hlabels htargets).split
  rw [neutralizeLabels, hnew, neutralizeLabels, hline.split]
  dsimp only
  rw [Option.isSome_map]
  cases hbody with
  | plain hclear hends hjump => rw [relabelTarget_plain hjump]
  | @jump opcode target hopcode hblank htarget =>
    have hnewTarget := htargets target (targetOf?_jumpText hopcode hblank htarget)
    rw [relabelTarget_jumpText hopcode hblank htarget,
      jumpLine?_toList_jumpText hopcode hblank hnewTarget,
      jumpLine?_toList_jumpText hopcode hblank htarget]

/-- Each new label of a line votes for the old one. -/
theorem labelBallots_relabel :
    labelBallots (line, relabel rename line) =
      (labelsOf line).map fun name => (rename name, name) := by
  have hballot : ∀ name : Option String,
      ballotOf name (name.map rename) = name.toList.map fun name => (rename name, name) := by
    intro name
    cases name <;> rfl
  have hnew := (isWritten_relabel hline hbody hlabels htargets).split
  have htarget := targetOf?_relabelTarget hbody htargets
  have hjump : jumpTarget? line = targetOf? rest := by rw [jumpTarget?, dropLabel, hline.split]; rfl
  have hjumpNew : jumpTarget? (relabel rename line) = (targetOf? rest).map rename := by
    rw [← htarget, jumpTarget?, dropLabel, hnew]
    rfl
  rw [labelBallots, hjump, hjumpNew, hnew, hline.split, hballot, hballot, labelsOf_eq hline,
    map_append]

/-- A table that leads from each new label of a line to the old one restores the line. -/
theorem renameLabels_relabel
    (hback : ∀ name ∈ labelsOf line, table.get? (rename name) = some name) :
    renameLabels table (relabel rename line) = line := by
  rw [labelsOf_eq hline] at hback
  have hlabel : (label.map rename).map table.rename = label := by
    cases label with
    | none => rfl
    | some name =>
      rw [Option.map_some, Option.map_some, Renaming.rename_of_some (hback name (by simp))]
  have hrest : renameTarget table (relabelTarget rename rest) = rest := by
    cases hbody with
    | plain hclear hends hjump =>
      rw [relabelTarget_plain hjump, renameTarget_plain hclear hends hjump]
    | @jump opcode target hopcode hblank htarget =>
      have hread := targetOf?_jumpText hopcode hblank htarget
      have hold := hback target (by simp [hread])
      rw [relabelTarget_jumpText hopcode hblank htarget,
        renameTarget_jumpText hopcode hblank (htargets target hread), Renaming.rename_of_some hold]
  rw [renameLabels_eq (isWritten_relabel hline hbody hlabels htargets), hlabel, hrest, ← hline.text]

end Relabelled

def AllWritten (text : List String) : Prop :=
  ∀ line ∈ text, ∃ label rest, IsWritten line label rest ∧ IsBody rest

/-- Readable lines are written as such lines. -/
theorem allWritten_renderLines {lines : List Line} (h : AllReadable lines) :
    AllWritten (renderLines lines) := by
  intro text htext
  obtain ⟨line, hline, rfl⟩ := mem_map.1 htext
  exact ⟨line.label, exists_isWritten_render (h line hline)⟩

/-- Aligning the renamed labels of a text with the text restores it. -/
theorem alignLabels_map_relabel (hwritten : AllWritten text) {rename : String → String}
    (hrename : RenamesLabels rename text) :
    alignLabels text (text.map (relabel rename)) = text := by
  refine (map_elect_of_renamed hrename.injective fun line hmem => ?_).trans (map_id text)
  obtain ⟨label, rest, hline, hbody⟩ := hwritten line hmem
  have hlabels : ∀ name ∈ label, isLabelWord (rename name).toList := fun name hname =>
    hrename.labels name (mem_filterMap.2 ⟨line, hmem, by rwa [hline.split]⟩)
  have htargets : ∀ target ∈ targetOf? rest, isTargetWord (rename target).toList := by
    refine fun target htarget => hrename.targets target (mem_flatMap.2 ⟨line, hmem, ?_⟩)
    rw [labelsOf_eq hline]
    exact mem_append_right _ (Option.mem_toList.2 htarget)
  exact ⟨neutralizeLabels_relabel hline hbody hlabels htargets,
    labelBallots_relabel hline hbody hlabels htargets,
    fun table hback => renameLabels_relabel hline hbody hlabels htargets hback⟩

/-! ### Registers -/

def newName? (rename : String → String) (token : List Char) : Option (List Char) :=
  if (registerDigits? token).isSome then some (rename (ofList token)).toList else none

/-- A push or a store without label, with its registers replaced where they stand. -/
def reregisterIn (rename : String → String) (cs : List Char) : List Char :=
  if isRegisterPush cs then mapTokens (newName? rename) cs
  else match registerStore? cs with
    | some store =>
      let register := rename ("register" ++ ofList store.digits)
      (withDigits store (register.toList.drop registerWord.length)).text
    | none => cs

def reregister (rename : String → String) (line : String) : String :=
  let (rest, label) := splitLabel line
  withLabel label (reregisterIn rename rest.toList)

/-- Different registers of a text stay different, and stay registers. -/
structure RenamesRegisters (rename : String → String) (text : List String) : Prop where
  injective : ∀ a ∈ text.flatMap registersOf, ∀ b ∈ text.flatMap registersOf,
    rename a = rename b → a = b
  registers : ∀ register ∈ text.flatMap registersOf, isRegister (rename register)

def neutralizeIn (cs : List Char) : List Char :=
  if isRegisterPush cs then
    mapTokens (fun token => (registerDigits? token).map fun _ => "registerN".toList) cs
  else match registerStore? cs with
    | some store => store.write ['N']
    | none => cs

/-- The text after the digits of a store, without the blanks before it. -/
def storeTail (cs : List Char) : List Char :=
  match registerStore? cs with
  | some store => stripLeft store.after
  | none => []

section Equations

variable (rename : String → String)

theorem reregisterIn_push (hpush : isRegisterPush cs) :
    reregisterIn rename cs = mapTokens (newName? rename) cs := by
  rw [reregisterIn, if_pos hpush]

theorem reregisterIn_store (hwell : store.WellFormed) :
    reregisterIn rename store.text =
      (withDigits store ((rename ("register" ++ ofList store.digits)).toList.drop
        registerWord.length)).text := by
  rw [reregisterIn, hwell.not_isRegisterPush, if_neg Bool.false_ne_true, hwell.registerStore?_text]

theorem reregisterIn_other (hpush : isRegisterPush cs = false) (hstore : registerStore? cs = none) :
    reregisterIn rename cs = cs := by
  rw [reregisterIn, hpush, if_neg Bool.false_ne_true, hstore]

theorem newToken_newName? (h : (registerDigits? token).isSome) :
    newToken (newName? rename) token = (rename (ofList token)).toList := by
  rw [newToken, newName?, if_pos h, Option.getD_some]

theorem newToken_newName?_of_not (h : ¬ (registerDigits? token).isSome) :
    newToken (newName? rename) token = token := by
  rw [newToken, newName?, if_neg h, Option.getD_none]

end Equations

theorem mem_registersIn_of_token (hpush : isRegisterPush cs) (htoken : token ∈ tokenTexts cs)
    (h : (registerDigits? token).isSome) :
    ofList token ∈ registersIn cs := by
  rw [registersIn, if_pos hpush]
  exact mem_map_of_mem (mem_filter.2 ⟨htoken, h⟩)

/-- Only the new names of the registers that are there matter. -/
theorem reregisterIn_congr {rename other : String → String}
    (h : ∀ register ∈ registersIn cs, rename register = other register) :
    reregisterIn rename cs = reregisterIn other cs := by
  rcases register_cases cs with hpush | ⟨store, hwell, rfl⟩ | ⟨hpush, hstore⟩
  · rw [reregisterIn_push rename hpush, reregisterIn_push other hpush]
    apply mapTokens_congr
    intro token htoken
    by_cases hregister : (registerDigits? token).isSome
    · rw [newToken_newName? rename hregister, newToken_newName? other hregister,
        h _ (mem_registersIn_of_token hpush htoken hregister)]
    · rw [newToken_newName?_of_not rename hregister, newToken_newName?_of_not other hregister]
  · rw [registersIn_store hwell, forall_mem_singleton] at h
    rw [reregisterIn_store rename hwell, reregisterIn_store other hwell, h]
  · rw [reregisterIn_other rename hpush hstore, reregisterIn_other other hpush hstore]

theorem reregisterIn_id (cs : List Char) : reregisterIn id cs = cs := by
  rcases register_cases cs with hpush | ⟨store, hwell, rfl⟩ | ⟨hpush, hstore⟩
  · rw [reregisterIn_push id hpush]
    refine (mapTokens_congr fun token _ => ?_).trans (mapTokens_none cs)
    by_cases hregister : (registerDigits? token).isSome
    · rw [newToken_newName? id hregister, id_eq, toList_ofList]
      rfl
    · exact newToken_newName?_of_not id hregister
  · rw [reregisterIn_store id hwell, id_eq, toList_register, drop_left, withDigits_self]
  · exact reregisterIn_other id hpush hstore

section Reregistered

variable {rename : String → String} (hrename : ∀ name, isRegister name → isRegister (rename name))
include hrename

theorem replacesRegisters_newName? : ReplacesRegisters (newName? rename) := by
  intro token new hnew
  unfold newName? at hnew
  split at hnew
  next hregister =>
    cases hnew
    refine ⟨hregister, hrename _ ?_⟩
    rwa [isRegister, toList_ofList]
  · cases hnew

/-- A store keeps its form and takes the digits of its new register. -/
theorem exists_reregisterIn_store (hwell : store.WellFormed) :
    ∃ digits, (withDigits store digits).WellFormed ∧
      rename ("register" ++ ofList store.digits) = "register" ++ ofList digits ∧
      reregisterIn rename store.text = (withDigits store digits).text := by
  obtain ⟨hold, hallOld⟩ := hwell.digits
  obtain ⟨digits, hne, hall, hname⟩ :=
    exists_digits_of_isRegister (hrename _ (isRegister_append hold hallOld))
  refine ⟨digits, wellFormed_withDigits hwell hne hall, hname, ?_⟩
  rw [reregisterIn_store rename hwell, hname, toList_register, drop_left]

theorem registersIn_reregisterIn (cs : List Char) :
    registersIn (reregisterIn rename cs) = (registersIn cs).map rename := by
  rcases register_cases cs with hpush | ⟨store, hwell, rfl⟩ | ⟨hpush, hstore⟩
  · rw [reregisterIn_push rename hpush,
      registersIn_mapTokens (replacesRegisters_newName? hrename) hpush, registersIn,
      if_pos hpush, map_map]
    apply map_congr_left
    intro token htoken
    rw [newToken_newName? rename (mem_filter.1 htoken).2, ofList_toList]
    rfl
  · obtain ⟨digits, hnew, hname, htext⟩ := exists_reregisterIn_store hrename hwell
    rw [htext, registersIn_store hnew, registersIn_store hwell, map_singleton, hname]
    rfl
  · rw [reregisterIn_other rename hpush hstore]
    simp [registersIn, hpush, hstore]

/-- New registers do not show when registers are made anonymous. -/
theorem neutralizeIn_reregisterIn (cs : List Char) :
    neutralizeIn (reregisterIn rename cs) = neutralizeIn cs := by
  rcases register_cases cs with hpush | ⟨store, hwell, rfl⟩ | ⟨hpush, hstore⟩
  · have hreplaces := replacesRegisters_newName? hrename
    rw [reregisterIn_push rename hpush, neutralizeIn,
      if_pos (hreplaces.isRegisterPush_mapTokens hpush), neutralizeIn, if_pos hpush]
    refine hreplaces.words.mapTokens_mapTokens fun token _ => ?_
    have hstill := hreplaces.registerDigits?_newToken token
    cases hregister : registerDigits? token with
    | none =>
      rw [newToken_newName?_of_not rename (by simp [hregister])]
    | some digits =>
      rw [hregister, Option.isSome_some] at hstill
      obtain ⟨newDigits, hnew⟩ := Option.isSome_iff_exists.1 hstill
      simp only [newToken] at hnew ⊢
      rw [hnew, hregister]
      rfl
  · obtain ⟨digits, hnew, -, htext⟩ := exists_reregisterIn_store hrename hwell
    rw [htext, neutralizeIn, neutralizeIn, hnew.not_isRegisterPush, hwell.not_isRegisterPush,
      hnew.registerStore?_text, hwell.registerStore?_text]
    rfl
  · rw [reregisterIn_other rename hpush hstore]

/-- A table that leads from each new register to the old one restores the text, and repeats what
stands after the digits of a store. -/
theorem renameIn_reregisterIn
    (hback : ∀ register ∈ registersIn cs, table.get? (rename register) = some register) :
    renameIn table (reregisterIn rename cs) = cs ++ storeTail cs := by
  rcases register_cases cs with hpush | ⟨store, hwell, rfl⟩ | ⟨hpush, hstore⟩
  · have hreplaces := replacesRegisters_newName? hrename
    rw [reregisterIn_push rename hpush, renameIn,
      if_pos (hreplaces.isRegisterPush_mapTokens hpush), storeTail,
      registerStore?_of_isRegisterPush hpush, append_nil]
    refine (hreplaces.words.mapTokens_mapTokens fun token htoken => ?_).trans (mapTokens_none cs)
    by_cases hregister : (registerDigits? token).isSome
    · have hold := hback _ (mem_registersIn_of_token hpush htoken hregister)
      have hstill := hreplaces.registerDigits?_newToken token
      rw [hregister, newToken_newName? rename hregister] at hstill
      rw [newToken_newName? rename hregister, newToken_newRegister?, renameToken, if_pos hstill,
        ofList_toList, Renaming.rename_of_some hold, toList_ofList]
      rfl
    · rw [newToken_newName?_of_not rename hregister, newToken_newRegister?, renameToken,
        if_neg hregister]
      rfl
  · obtain ⟨digits, hnew, hname, htext⟩ := exists_reregisterIn_store hrename hwell
    have hold := hback _ (by rw [registersIn_store hwell]; exact mem_singleton_self _)
    rw [hname] at hold
    rw [htext, renameIn, hnew.not_isRegisterPush, if_neg Bool.false_ne_true,
      hnew.registerStore?_text]
    dsimp only [withDigits]
    rw [hold]
    dsimp only
    rw [toList_register, eraseWord_register hwell.digits.2, storeTail, hwell.registerStore?_text]
    simp [RegisterStore.write, RegisterStore.text]
  · rw [reregisterIn_other rename hpush hstore, renameIn, hpush, if_neg Bool.false_ne_true, hstore,
      storeTail, hstore, append_nil]

theorem readsAlike_reregisterIn (cs : List Char) : ReadsAlike cs (reregisterIn rename cs) := by
  rcases register_cases cs with hpush | ⟨store, hwell, rfl⟩ | ⟨hpush, hstore⟩
  · rw [reregisterIn_push rename hpush]
    exact readsAlike_mapTokens (replacesRegisters_newName? hrename) hpush
  · obtain ⟨digits, hnew, -, htext⟩ := exists_reregisterIn_store hrename hwell
    rw [htext]
    refine ⟨fun h => hwell.startsClear_of_before h rfl, fun hsingle => ?_,
      fun _ => hnew.labelPrefix?_text⟩
    simp only [RegisterStore.text, withDigits, mem_append, not_or] at hsingle ⊢
    exact ⟨hsingle.1, fun hmem => absurd (hnew.digits.2 _ hmem) (by decide +kernel), hsingle.2.2⟩
  · rw [reregisterIn_other rename hpush hstore]
    exact ⟨id, id, id⟩

/-- A line with new registers is a written line again. -/
theorem isWritten_reregister {line rest : String} (hline : IsWritten line label rest) :
    IsWritten (reregister rename line) label
      (ofList (reregisterIn rename rest.toList)) := by
  rw [reregister, hline.split]
  exact hline.replaced hline.word (readsAlike_reregisterIn hrename rest.toList)

end Reregistered

section Whole

variable {line rest : String} (hline : IsWritten line label rest)
include hline

theorem registersOf_eq : registersOf line = registersIn rest.toList :=
  registersOf_of_splitLabel hline.split

theorem neutralizeRegisters_eq :
    neutralizeRegisters line = withLabel label (neutralizeIn rest.toList) := by
  rw [neutralizeRegisters, hline.split]
  dsimp only
  rw [neutralizeIn]
  split
  · rfl
  · cases registerStore? rest.toList with
    | none => exact hline.text
    | some store => rfl

/-- No second label hides a register of a written line, so that it is written anew. -/
theorem renameRegisters_eq (table : Renaming) :
    renameRegisters table line = withLabel label (renameIn table rest.toList) := by
  cases hover : passesOver table line with
  | true =>
    rw [renameRegisters_of_passesOver hover]
    rw [passesOver, dropLabel, hline.split, Bool.and_eq_true, all_eq_true] at hover
    obtain ⟨hpush, hnone⟩ := hover
    rw [registersOf_of_splitLabel (splitLabel_of_none hline.unlabelled)] at hnone
    have hsame : renameIn table rest.toList = rest.toList := by
      rw [renameIn, if_pos hpush]
      refine (mapTokens_congr fun token htoken => ?_).trans (mapTokens_none rest.toList)
      rw [newToken_newRegister?, renameToken]
      split
      next hregister =>
        have habsent := hnone _ (mem_registersIn_of_token hpush htoken hregister)
        rw [Renaming.rename_of_none (Option.isNone_iff_eq_none.1 habsent), toList_ofList]
        rfl
      · rfl
    rw [hsame, ← hline.text]
  | false =>
    rcases renameRegisters_of_not_passesOver hline.split hover with hwritten | ⟨hsame, hkept⟩
    · exact hwritten
    · rw [hsame, hkept, ← hline.text]

end Whole

/-- The line as it comes back from a renaming of registers: text after the digits of a store
stands in it twice. -/
def repeatTail (line : String) : String :=
  let (rest, label) := splitLabel line
  withLabel label (rest.toList ++ storeTail rest.toList)

/-- A line that is no store, or a store that ends with its digits. -/
def EndsInDigits (line : String) : Prop :=
  ∀ store, registerStore? (dropLabel line).toList = some store → store.after = []

theorem withLabel_cancel {ds : List Char}
    (h : withLabel label cs = withLabel label ds) : cs = ds := by
  rw [← String.toList_inj] at h
  cases label with
  | none => simpa [withLabel] using h
  | some name => simpa [withLabel] using h

/-- Only text after the digits comes back twice. -/
theorem repeatTail_eq_self_iff {line rest : String}
    (hline : IsWritten line label rest) (hbody : IsBody rest) :
    repeatTail line = line ↔ EndsInDigits line := by
  have htail : repeatTail line = line ↔ storeTail rest.toList = [] := by
    rw [repeatTail, hline.split]
    dsimp only
    constructor
    · intro hsame
      exact append_right_eq_self.1 (withLabel_cancel (hsame.trans hline.text))
    · intro hnil
      rw [hnil, append_nil, ← hline.text]
  rw [htail, EndsInDigits, dropLabel, hline.split]
  dsimp only
  constructor
  · intro hnil store hstore
    rw [storeTail, hstore] at hnil
    by_contra hne
    -- A tail of blanks would end the line with one.
    have hlast : rest.toList.getLast? = some (store.after.getLast hne) := by
      rw [(registerStore?_eq_some hstore).2, RegisterStore.text, getLast?_append,
        getLast?_append, getLast?_eq_some_getLast hne]
      rfl
    have hclear := hbody.endsClear _ hlast
    rw [dropWhile_eq_nil_iff.1 hnil _ (getLast_mem hne)] at hclear
    cases hclear
  · intro hends
    rw [storeTail]
    split
    next store hstore => rw [hends store hstore]; rfl
    · rfl

/-- Aligning the renamed registers of a text with the text restores all but the tails of stores. -/
theorem alignRegisters_map_reregister_of_total (hwritten : AllWritten text)
    (hsingle : ∀ line ∈ text, (registersOf line).length ≤ 1) {rename : String → String}
    (htotal : ∀ name, isRegister name → isRegister (rename name))
    (hinjective : ∀ a ∈ text.flatMap registersOf, ∀ b ∈ text.flatMap registersOf,
      rename a = rename b → a = b) :
    alignRegisters text (text.map (reregister rename)) = text.map repeatTail := by
  refine map_elect_of_renamed hinjective fun line hmem => ?_
  obtain ⟨label, rest, hline, -⟩ := hwritten line hmem
  have hwrite := isWritten_reregister htotal hline
  have hnew : registersOf (reregister rename line) = (registersOf line).map rename := by
    rw [registersOf_eq hwrite, toList_ofList, registersIn_reregisterIn htotal, ← registersOf_eq hline]
  refine ⟨?_, ?_, fun table hback => ?_⟩
  · rw [neutralizeRegisters_eq hwrite, toList_ofList, neutralizeIn_reregisterIn htotal,
      ← neutralizeRegisters_eq hline]
  · have hone := hsingle line hmem
    rw [registerBallots, hnew]
    dsimp only
    cases hregisters : registersOf line with
    | nil => rfl
    | cons register others =>
      rw [hregisters, length_cons] at hone
      rw [length_eq_zero_iff.1 (by omega : others.length = 0)]
      rfl
  · rw [registersOf_eq hline] at hback
    rw [renameRegisters_eq hwrite, toList_ofList, renameIn_reregisterIn htotal hback, repeatTail,
      hline.split]

/-- Renamed registers are aligned back. -/
theorem alignRegisters_map_reregister (hwritten : AllWritten text)
    (hsingle : ∀ line ∈ text, (registersOf line).length ≤ 1) {rename : String → String}
    (hrename : RenamesRegisters rename text) :
    alignRegisters text (text.map (reregister rename)) = text.map repeatTail := by
  -- Names that the text does not have may be taken to stay as they are.
  obtain ⟨total, hagree, hother⟩ : ∃ total : String → String,
      (∀ name ∈ text.flatMap registersOf, total name = rename name) ∧
      ∀ name, name ∉ text.flatMap registersOf → total name = name :=
    ⟨fun name => if name ∈ text.flatMap registersOf then rename name else name,
      fun name hname => if_pos hname, fun name hname => if_neg hname⟩
  have htotal : ∀ name, isRegister name → isRegister (total name) := by
    intro name hname
    by_cases hmem : name ∈ text.flatMap registersOf
    · rw [hagree name hmem]
      exact hrename.registers name hmem
    · rwa [hother name hmem]
  have hinjective : ∀ a ∈ text.flatMap registersOf, ∀ b ∈ text.flatMap registersOf,
      total a = total b → a = b := by
    intro a ha b hb hsame
    rw [hagree a ha, hagree b hb] at hsame
    exact hrename.injective a ha b hb hsame
  have hmap : text.map (reregister rename) = text.map (reregister total) := by
    apply map_congr_left
    intro line hmem
    obtain ⟨label, rest, hline, -⟩ := hwritten line hmem
    rw [reregister, reregister, hline.split]
    dsimp only
    rw [reregisterIn_congr fun register hregister => (hagree register ?_).symm]
    rw [← registersOf_eq hline] at hregister
    exact mem_flatMap.2 ⟨line, hmem, hregister⟩
  rw [hmap]
  exact alignRegisters_map_reregister_of_total hwritten hsingle htotal hinjective

/-! ### Texts that are not renamed -/

theorem relabel_id {line rest : String} (hline : IsWritten line label rest)
    (hbody : IsBody rest) : relabel id line = line := by
  have hrest : relabelTarget id rest = rest := by
    cases hbody with
    | plain hclear hends hjump => exact relabelTarget_plain hjump id
    | jump hopcode hblank htarget => exact relabelTarget_jumpText hopcode hblank htarget id
  rw [relabel_eq hline, Option.map_id_fun, id_eq, hrest, ← hline.text]

theorem reregister_id {line rest : String}
    (hline : IsWritten line label rest) : reregister id line = line := by
  rw [reregister, hline.split]
  dsimp only
  rw [reregisterIn_id, ← hline.text]

theorem renamesLabels_id (text : List String) : RenamesLabels id text where
  injective _ _ _ _ hsame := hsame
  targets label hlabel := by
    obtain ⟨line, -, hline⟩ := mem_flatMap.1 hlabel
    exact isTargetWord_of_mem_labelsOf hline
  labels label hlabel := by
    obtain ⟨line, -, hline⟩ := mem_filterMap.1 hlabel
    rcases hsplit : splitLabel line with ⟨rest, own⟩
    rw [hsplit] at hline
    cases hline
    exact (splitLabel_eq_some hsplit).1

theorem renamesRegisters_id (text : List String) : RenamesRegisters id text where
  injective _ _ _ _ hsame := hsame
  registers register hregister := by
    obtain ⟨line, -, hline⟩ := mem_flatMap.1 hregister
    exact isRegister_of_mem_registersOf hline

/-! ### The text of a block -/

/-- The text of a readable block comes back from every renaming of its labels, and from every
renaming of its registers if no line has two of them and every store ends with its digits. Other
stores come back with the text after their digits written twice, even without a renaming. -/
theorem align_undoes_renaming {lines : List Line} {text : List String} (hread : AllReadable lines)
    (htext : text = renderLines lines) :
    (∀ rename, RenamesLabels rename text →
        alignLabels text (text.map (relabel rename)) = text) ∧
      alignLabels text text = text ∧
      ((∀ line ∈ text, (registersOf line).length ≤ 1) →
        (∀ rename, RenamesRegisters rename text →
          alignRegisters text (text.map (reregister rename)) = text.map repeatTail) ∧
        alignRegisters text text = text.map repeatTail ∧
        (text.map repeatTail = text ↔ ∀ line ∈ text, EndsInDigits line)) := by
  have hwritten : AllWritten text := by
    rw [htext]
    exact allWritten_renderLines hread
  have hrelabel : text.map (relabel id) = text := by
    refine map_eq_self_iff.2 fun line hmem => ?_
    obtain ⟨label, rest, hline, hbody⟩ := hwritten line hmem
    exact relabel_id hline hbody
  have hreregister : text.map (reregister id) = text := by
    refine map_eq_self_iff.2 fun line hmem => ?_
    obtain ⟨label, rest, hline, -⟩ := hwritten line hmem
    exact reregister_id hline
  refine ⟨fun rename hrename => alignLabels_map_relabel hwritten hrename, ?_, fun hsingle =>
    ⟨fun rename hrename => alignRegisters_map_reregister hwritten hsingle hrename, ?_, ?_⟩⟩
  · have hself := alignLabels_map_relabel hwritten (renamesLabels_id text)
    rwa [hrelabel] at hself
  · have hself := alignRegisters_map_reregister hwritten hsingle (renamesRegisters_id text)
    rwa [hreregister] at hself
  · rw [map_eq_self_iff]
    refine forall₂_congr fun line hmem => ?_
    obtain ⟨label, rest, hline, hbody⟩ := hwritten line hmem
    exact repeatTail_eq_self_iff hline hbody

/-- A loop whose two labels, or two registers, can trade places. -/
def tradingLines : List Line :=
  [⟨[0], some "loop", .instruction "Push" [.ofSymbol "register1"]⟩,
    ⟨[1], none, .instruction "StoreRegister" [.ofNumeral "2"]⟩,
    ⟨[2], none, .instruction "If" [.ofSymbol "done"]⟩,
    ⟨[3], none, .instruction "Jump" [.ofSymbol "loop"]⟩,
    ⟨[4], some "done", .labelOnly⟩]

def tradingText : List String :=
  ["loop:Push register1", "StoreRegister 2", "If done", "Jump loop", "done:"]

/-- Where two names trade places, each is voted back into its own. -/
theorem align_undoes_trade :
    AllReadable tradingLines ∧ tradingText = renderLines tradingLines ∧
      alignLabels tradingText
        ["done:Push register1", "StoreRegister 2", "If loop", "Jump done", "loop:"] =
          tradingText ∧
      alignRegisters tradingText
        ["loop:Push register2", "StoreRegister 1", "If done", "Jump loop", "done:"] =
          tradingText := by
  have hlines : readText "loop:Push register1\nStoreRegister 2\nIf done\nJump loop\ndone:\n" =
      .ok tradingLines := by decide +kernel
  have hread : AllReadable tradingLines := isReadable_of_readText hlines (by decide +kernel)
  have htext : tradingText = renderLines tradingLines := by decide +kernel
  obtain ⟨hlabels, -, hregisters⟩ := align_undoes_renaming hread htext
  have hrelabels : RenamesLabels (Equiv.swap "loop" "done") tradingText :=
    ⟨by decide +kernel, by decide +kernel, by decide +kernel⟩
  have hreregisters : RenamesRegisters (Equiv.swap "register1" "register2") tradingText :=
    ⟨by decide +kernel, by decide +kernel⟩
  have hsingle : ∀ line ∈ tradingText, (registersOf line).length ≤ 1 := by decide +kernel
  have hkept : tradingText.map repeatTail = tradingText := by decide +kernel
  have hnewLabels : tradingText.map (relabel (Equiv.swap "loop" "done")) =
      ["done:Push register1", "StoreRegister 2", "If loop", "Jump done", "loop:"] := by
    decide +kernel
  have hnewRegisters : tradingText.map (reregister (Equiv.swap "register1" "register2")) =
      ["loop:Push register2", "StoreRegister 1", "If done", "Jump loop", "done:"] := by
    decide +kernel
  refine ⟨hread, htext, ?_, ?_⟩
  · rw [← hnewLabels]
    exact hlabels _ hrelabels
  · rw [← hnewRegisters, (hregisters hsingle).1 _ hreregisters, hkept]

def pointedStore : Line :=
  ⟨[0], none, .instruction "StoreRegister" [.ofNumeral "1.0"]⟩

/-- The end of an operand is written twice even where nothing is renamed. -/
theorem alignRegisters_repeats_tail :
    AllReadable [pointedStore] ∧ renderLines [pointedStore] = ["StoreRegister 1.0"] ∧
      registersOf "StoreRegister 1.0" = ["register1"] ∧
      alignRegisters ["StoreRegister 1.0"] ["StoreRegister 1.0"] = ["StoreRegister 1.0.0"] := by
  have hlines : readText "StoreRegister 1.0\n" = .ok [pointedStore] := by decide +kernel
  refine ⟨isReadable_of_readText hlines (by decide +kernel), ?_, ?_, ?_⟩
  · decide +kernel
  · decide +kernel
  · decide +kernel

end MovieDiff.Alignment
