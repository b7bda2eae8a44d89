import MovieDiff.Proofs.Pcode.Flow
import MovieDiff.Proofs.Pcode.Lockstep
import MovieDiff.Proofs.Pcode.Unsourced

/-!
Renaming labels does not bear on the normal form. Lines whose labels and targets are renamed are
renumbered in lockstep, and once unused labels are dropped and the others are numbered, nothing is
left of the names.
-/
namespace MovieDiff.Pcode

open List
open Text (lowercase)

variable {opcode : String} {scope : LabelScope}

/-! ### Lines -/

/-- A renaming of labels that identifies two of them just when they differ in letter case only. -/
structure LabelRenaming where
  labels : Set String
  map : String → String
  lowercase_map : ∀ a ∈ labels, ∀ b ∈ labels,
    (lowercase (map a) = lowercase (map b) ↔ lowercase a = lowercase b)

variable {operands : List Operand}

/-- Where there is no target, none comes from operands that are none where there were none. -/
theorem target?_eq_none_of_operands {operands' : List Operand}
    (hnil : operands = [] → operands' = [])
    (h : (Body.instruction opcode operands).target? = none) :
    (Body.instruction opcode operands').target? = none := by
  by_cases hjump : opcode = "If" ∨ opcode = "Jump"
  · rw [Body.target?, if_pos hjump, head?_eq_none_iff] at h
    rw [hnil h]
    exact if_pos hjump
  · exact if_neg hjump

/-- Bodies that differ in the target of a jump only, which is renamed. -/
inductive Retargets (names : LabelRenaming) (spell : Operand → String) : Body → Body → Prop
  | same {body : Body} (h : body.target? = none) : Retargets names spell body body
  | jump {opcode : String} {target target' : Operand} {others : List Operand}
      (hopcode : opcode = "If" ∨ opcode = "Jump") (hmem : spell target ∈ names.labels)
      (htarget : spell target' = names.map (spell target)) :
      Retargets names spell (.instruction opcode (target :: others))
        (.instruction opcode (target' :: others))

/-- Lines that differ in labels and targets only, which are renamed, and in source lines. -/
structure Relabels (names : LabelRenaming) (spell : Operand → String) (line line' : Line) :
    Prop where
  mem : ∀ label ∈ line.label, label ∈ names.labels
  label : line'.label = line.label.map names.map
  body : Retargets names spell line.body line'.body

variable {names : LabelRenaming} {spell : Operand → String} {line line' : Line}
  {lines lines' : List Line}

theorem Relabels.alike (h : Relabels names spell line line') : Alike line line' := by
  obtain ⟨sources, label, body⟩ := line
  obtain ⟨sources', label', body'⟩ := line'
  have hbody : Retargets names spell body body' := h.body
  cases hbody with
  | same _ => exact ⟨rfl, Iff.rfl⟩
  | jump _ _ _ => exact ⟨rfl, by simp [Line.NamesStore, Line.operands]⟩

/-! ### Unused labels -/

theorem jumpKey?_eq (line : Line) :
    line.jumpKey? = (line.body.target?.map Operand.spelling).map lowercase := by
  rw [target?_eq, Line.jumpKey?]
  split
  · cases line.operands <;> rfl
  · rfl

/-- The targets of lines are renamed as their labels are. -/
theorem Relabels.target (h : Relabels names Operand.spelling line line') :
    (∀ label ∈ line.body.target?.map Operand.spelling, label ∈ names.labels) ∧
      line'.body.target?.map Operand.spelling =
        (line.body.target?.map Operand.spelling).map names.map := by
  obtain ⟨sources, label, body⟩ := line
  obtain ⟨sources', label', body'⟩ := line'
  have hbody : Retargets names Operand.spelling body body' := h.body
  cases hbody with
  | same hnone => simp [hnone]
  | jump hopcode hmem htarget => simp [Body.target?, hopcode, hmem, htarget]

/-- The labels that two corresponding lists of lines refer to. -/
theorem exists_labelReferences (h : Forall₂ (Relabels names Operand.spelling) lines lines') :
    ∃ targets : List String, (∀ target ∈ targets, target ∈ names.labels) ∧
      labelReferences lines = targets.map lowercase ∧
      labelReferences lines' = targets.map (lowercase ∘ names.map) := by
  unfold labelReferences
  induction h with
  | nil => exact ⟨[], forall_mem_nil _, rfl, rfl⟩
  | @cons line line' rest rest' hline _ ih =>
    obtain ⟨targets, hmem, hrefs, hrefs'⟩ := ih
    obtain ⟨htarget, hnew⟩ := hline.target
    rw [filterMap_cons, filterMap_cons, jumpKey?_eq, jumpKey?_eq, hnew, hrefs, hrefs']
    cases hlabel : line.body.target?.map Operand.spelling with
    | none => exact ⟨targets, hmem, rfl, rfl⟩
    | some label => exact ⟨label :: targets, forall_mem_cons.2 ⟨htarget label hlabel, hmem⟩, rfl, rfl⟩

theorem forall₂_filterMap_dropLabelUnless {references references' : List String}
    (hrefs : ∀ label ∈ names.labels,
      references'.contains (lowercase (names.map label)) = references.contains (lowercase label))
    (h : Forall₂ (Relabels names spell) lines lines') :
    Forall₂ (Relabels names spell) (lines.filterMap (dropLabelUnless references))
      (lines'.filterMap (dropLabelUnless references')) := by
  induction h with
  | nil => exact .nil
  | @cons line line' rest rest' hline _ ih =>
    obtain ⟨sources, label, body⟩ := line
    obtain ⟨sources', label', body'⟩ := line'
    obtain ⟨hmem, hlabel, hbody⟩ := hline
    dsimp only at hmem hlabel hbody
    have hempty : (body' == .labelOnly) = (body == .labelOnly) := by
      cases hbody <;> rfl
    rw [hlabel]
    cases label with
    | none => exact .cons ⟨hmem, rfl, hbody⟩ ih
    | some label =>
      have hsame := hrefs label (hmem label rfl)
      rw [filterMap_cons, filterMap_cons]
      unfold dropLabelUnless
      dsimp only [Option.map_some]
      rw [hsame, hempty]
      by_cases hkept : references.contains (lowercase label)
      · rw [if_pos hkept, if_pos hkept]
        exact .cons ⟨hmem, rfl, hbody⟩ ih
      · rw [if_neg hkept, if_neg hkept]
        by_cases honly : body == .labelOnly
        · rw [if_pos honly, if_pos honly]
          exact ih
        · rw [if_neg honly, if_neg honly]
          refine .cons ⟨?_, rfl, hbody⟩ ih
          intro label hlabel
          cases hlabel

/-- Labels are dropped on both sides. -/
theorem forall₂_dropUnusedLabels
    (h : Forall₂ (Relabels names Operand.spelling) lines lines') :
    Forall₂ (Relabels names Operand.spelling) (dropUnusedLabels lines)
      (dropUnusedLabels lines') := by
  obtain ⟨targets, hmem, hrefs, hrefs'⟩ := exists_labelReferences h
  refine forall₂_filterMap_dropLabelUnless (fun label hlabel => ?_) h
  rw [hrefs, hrefs']
  exact contains_map_congr fun target htarget =>
    names.lowercase_map target (hmem target htarget) label hlabel

/-! ### Numbers -/

theorem Relabels.labels (h : Relabels names Operand.spelling line line') :
    (∀ label ∈ line.labels, label ∈ names.labels) ∧ line'.labels = line.labels.map names.map := by
  obtain ⟨htarget, hnew⟩ := h.target
  unfold Line.labels
  rw [h.label, hnew, map_append]
  constructor
  · simpa [or_imp, forall_and] using ⟨h.mem, by simpa using htarget⟩
  · cases line.label <;> cases line.body.target? <;> rfl

/-- Lines whose labels are given the same names are the same but for source lines. -/
theorem Relabels.unsourced_nameLabels (h : Relabels names Operand.spelling line line')
    {f f' : String → String} (hnames : ∀ label ∈ line.labels, f' (names.map label) = f label) :
    (line'.nameLabels f').unsourced = (line.nameLabels f).unsourced := by
  obtain ⟨sources, label, body⟩ := line
  obtain ⟨sources', label', body'⟩ := line'
  obtain ⟨-, hlabel, hbody⟩ := h
  dsimp only at hlabel hbody
  have hlabel' : label'.map f' = label.map f := by
    rw [hlabel]
    cases label with
    | none => rfl
    | some label => exact congrArg some (hnames label mem_cons_self)
  have hbody' : body'.nameTarget f' = body.nameTarget f := by
    cases hbody with
    | same hnone => rw [nameTarget_of_none f' hnone, nameTarget_of_none f hnone]
    | @jump opcode target target' others hopcode _ htarget =>
      have hname := hnames target.spelling (mem_append_right _ (by simp [Body.target?, hopcode]))
      simp only [Body.nameTarget, if_pos hopcode, htarget, hname]
  unfold Line.nameLabels Line.unsourced
  rw [hlabel', hbody']

/-- Nothing but source lines tells the numbered lines apart. -/
theorem map_unsourced_renumberLabels
    (h : Forall₂ (Relabels names Operand.spelling) lines lines') :
    (renumberLabels (dropUnusedLabels lines')).map Line.unsourced =
      (renumberLabels (dropUnusedLabels lines)).map Line.unsourced := by
  have hused := forall₂_dropUnusedLabels h
  generalize dropUnusedLabels lines = used at hused ⊢
  generalize dropUnusedLabels lines' = used' at hused ⊢
  obtain ⟨hmem, hlabels⟩ : (∀ label ∈ used.flatMap Line.labels, label ∈ names.labels) ∧
      used'.flatMap Line.labels = (used.flatMap Line.labels).map names.map := by
    induction hused with
    | nil => exact ⟨forall_mem_nil _, rfl⟩
    | cons hline _ ih =>
      obtain ⟨hmem, hlabels⟩ := hline.labels
      rw [flatMap_cons, flatMap_cons, map_append, hlabels, ih.2]
      exact ⟨forall_mem_append.2 ⟨hmem, ih.1⟩, rfl⟩
  have hnames : ∀ line ∈ used, ∀ label ∈ line.labels,
      (LabelScope.addAll [] (used'.flatMap Line.labels)).name (names.map label) =
        (LabelScope.addAll [] (used.flatMap Line.labels)).name label := by
    intro line hline label hlabel
    rw [hlabels]
    exact LabelScope.name_addAll_congr
      (fun a ha b hb => names.lowercase_map a (hmem a ha) b (hmem b hb))
      (mem_flatMap.2 ⟨line, hline, hlabel⟩)
  symm
  rw [renumberLabels_eq, renumberLabels_eq, map_map, map_map, ← forall₂_eq_eq_eq,
    forall₂_map_left_iff, forall₂_map_right_iff]
  exact ((forall₂_and_left _ _).2 ⟨hnames, hused⟩).imp fun _ _ hline =>
    (hline.2.unsourced_nameLabels hline.1).symm

/-! ### Registers -/

def AvoidsRegisters (line line' : Line) : Prop :=
  (∀ target ∈ line.body.target?, target.registerDigits? = none) ∧
    ∀ target ∈ line'.body.target?, target.registerDigits? = none

theorem avoidsRegisters_of_target? (h : line.body.target? = none)
    (h' : line'.body.target? = none) : AvoidsRegisters line line' := by
  simp [AvoidsRegisters, h, h']

theorem relabels_of_target? (hlabel : line.label = none) (hlabel' : line'.label = none)
    (hbody : line'.body = line.body) (h : line.body.target? = none) :
    Relabels names spell line line' ∧ AvoidsRegisters line line' :=
  ⟨⟨by simp [hlabel], by rw [hlabel, hlabel']; rfl, by rw [hbody]; exact .same h⟩,
    avoidsRegisters_of_target? h (hbody ▸ h)⟩

/-- Numbering a line does not depend on its label and its source lines, and gives no target to a
line that has none. -/
theorem exists_body_numberRegisters (number : String → Nat) (body : Body) :
    ∃ body' : Body, (∀ sources label,
        (⟨sources, label, body⟩ : Line).numberRegisters number = ⟨sources, label, body'⟩) ∧
      (body.target? = none → body'.target? = none) := by
  cases body with
  | structural mark => exact ⟨_, fun _ _ => rfl, id⟩
  | labelOnly => exact ⟨_, fun _ _ => rfl, id⟩
  | instruction opcode operands =>
    by_cases hstore : opcode = "StoreRegister"
    · subst hstore
      cases operands with
      | nil => exact ⟨_, fun _ _ => rfl, id⟩
      | cons operand others => exact ⟨_, fun _ _ => rfl, fun _ => rfl⟩
    · refine ⟨.instruction opcode (operands.map (Operand.renameRegister (indexBy number))),
        fun sources label => ?_, target?_eq_none_of_operands (by rintro rfl; rfl)⟩
      simp [Line.numberRegisters, Line.hasOpcode, Line.opcode?, hstore, Line.withOperands,
        Line.operands]

/-- The registers of a jump are those behind its target, which numbering keeps. -/
theorem registers_jump (hopcode : opcode = "If" ∨ opcode = "Jump") {target : Operand}
    (hnone : target.registerDigits? = none) (others : List Operand) :
    (⟨sources, label, .instruction opcode (target :: others)⟩ : Line).registers =
        others.filterMap Operand.registerDigits? ∧
      ∀ number, (⟨sources, label, .instruction opcode (target :: others)⟩ : Line).numberRegisters
        number = ⟨sources, label, .instruction opcode
          (target :: others.map (Operand.renameRegister (indexBy number)))⟩ := by
  have hother : (⟨sources, label, .instruction opcode (target :: others)⟩ : Line).hasOpcode
      "StoreRegister" = false := by
    rcases hopcode with rfl | rfl <;> rfl
  unfold Line.registers Line.numberRegisters
  rw [hother]
  refine ⟨filterMap_cons_none hnone, fun number => ?_⟩
  simp [Line.withOperands, Line.operands, renameRegister_of_none _ hnone]

theorem Relabels.numberRegisters (h : Relabels names spell line line')
    (havoids : AvoidsRegisters line line') :
    line'.registers = line.registers ∧ line'.stored? = line.stored? ∧
      ∀ number, Relabels names spell (line.numberRegisters number) (line'.numberRegisters number) := by
  obtain ⟨sources, label, body⟩ := line
  obtain ⟨sources', label', body'⟩ := line'
  obtain ⟨hmem, hlabel, hbody⟩ := h
  dsimp only at hmem hlabel hbody
  cases hbody with
  | same hnone =>
    refine ⟨rfl, rfl, fun number => ?_⟩
    obtain ⟨body', hnumbered, hnone'⟩ := exists_body_numberRegisters number body
    rw [hnumbered, hnumbered]
    exact ⟨hmem, hlabel, .same (hnone' hnone)⟩
  | @jump opcode target target' others hopcode htarget hnew =>
    have hhead : ∀ target : Operand,
        (Body.instruction opcode (target :: others)).target? = some target := fun _ => if_pos hopcode
    obtain ⟨hregisters, hnumbered⟩ := registers_jump hopcode (havoids.1 target (hhead target)) others
    obtain ⟨hregisters', hnumbered'⟩ :=
      registers_jump hopcode (havoids.2 target' (hhead target')) others
    refine ⟨hregisters'.trans hregisters.symm, ?_, fun number => ?_⟩
    · rcases hopcode with rfl | rfl <;> rfl
    · rw [hnumbered, hnumbered']
      exact ⟨hmem, hlabel, .jump hopcode htarget hnew⟩

/-- Lines with the same registers number them alike. -/
theorem numberIn_congr {R : Line → Line → Prop} (hR : ∀ {line line'}, R line line' →
      line'.registers = line.registers ∧ line'.stored? = line.stored?)
    (h : Forall₂ R lines lines') : numberIn lines = numberIn lines' := by
  have hregisters : registersOf lines' = (registersOf lines).map id :=
    registersOf_map (fun hline => by simp [hR hline]) h
  rw [numberIn, numberIn, hregisters, map_id]

/-- Lines with labels renamed are renumbered alike. -/
def relabelling (names : LabelRenaming) (spell : Operand → String) : Lockstep Unit where
  inside _ line line' := Relabels names spell line line' ∧ AvoidsRegisters line line'
  kept := Relabels names spell
  numbers _ := Eq
  alike_inside h := h.1.alike
  alike_kept h := h.alike
  numberIn h := numberIn_congr (fun hline =>
    have hsame := hline.1.numberRegisters hline.2
    ⟨hsame.1, hsame.2.1⟩) h
  numberRegisters hline h := h ▸ (hline.1.numberRegisters hline.2).2.2 _

theorem numberRegisters_of_unsourced (h : line'.unsourced = line.unsourced) :
    Alike line line' ∧ line'.registers = line.registers ∧ line'.stored? = line.stored? ∧
      ∀ number, (line'.numberRegisters number).unsourced = (line.numberRegisters number).unsourced := by
  obtain ⟨sources, label, body⟩ := line
  obtain ⟨sources', label', body'⟩ := line'
  obtain ⟨-, rfl, rfl⟩ := Line.mk.inj h
  refine ⟨⟨rfl, Iff.rfl⟩, rfl, rfl, fun number => ?_⟩
  obtain ⟨body, hnumbered, -⟩ := exists_body_numberRegisters number body'
  rw [hnumbered, hnumbered]
  rfl

/-- Lines that differ in source lines only are renumbered alike. -/
def resourcing : Lockstep Unit where
  inside _ line line' := line'.unsourced = line.unsourced
  kept line line' := line'.unsourced = line.unsourced
  numbers _ := Eq
  alike_inside h := (numberRegisters_of_unsourced h).1
  alike_kept h := (numberRegisters_of_unsourced h).1
  numberIn h := numberIn_congr (fun hline =>
    have hsame := numberRegisters_of_unsourced hline
    ⟨hsame.2.1, hsame.2.2.1⟩) h
  numberRegisters hline h := h ▸ (numberRegisters_of_unsourced hline).2.2.2 _

end MovieDiff.Pcode
