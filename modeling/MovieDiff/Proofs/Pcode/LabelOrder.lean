import MovieDiff.Proofs.Pcode.BlockNames
import MovieDiff.Proofs.Pcode.Renaming

/-!
Labels in order. Once unused labels are dropped and the others are numbered, every label that is
defined is named by a jump and the labels are numbered as they appear. To do the same again changes
nothing.
-/
namespace MovieDiff.Pcode

open List
open Text (lowercase)

variable {scope : LabelScope}

/-- Every label that is defined is named by a jump, and labels are numbered as they appear. -/
structure FlowInOrder (items : List FlowItem) : Prop where
  referenced : ∀ item ∈ items, item.isReferenced (items.filterMap FlowItem.reference?)
  numbered : ∀ label ∈ labelsOfFlow items, label = appearanceName (labelsOfFlow items) label

def LabelsInOrder (lines : List Line) : Prop :=
  FlowInOrder (skeleton Operand.spelling lines)

variable {items : List FlowItem} {labels : List String} {label : String} {line : Line}
  {lines : List Line}

/-! ### Names by appearance -/

/-- New names do not differ in case only. -/
theorem lowercase_name_eq_iff {other : String} :
    lowercase (scope.name label) = lowercase (scope.name other) ↔
      scope.name label = scope.name other := by
  have hascii : isAscii "L" := by decide
  unfold LabelScope.name
  rw [lowercase_append hascii (isAscii_toString _), lowercase_append hascii (isAscii_toString _),
    lowercase_toString, lowercase_toString, String.append_right_inj, String.append_right_inj]

/-- Numbering labels as they appear tells the same labels apart as before. -/
theorem lowercase_appearanceName_eq_iff {other : String} (h : label ∈ labels) (h' : other ∈ labels) :
    lowercase (appearanceName labels label) = lowercase (appearanceName labels other) ↔
      lowercase label = lowercase other := by
  rw [← LabelScope.name_addAll h, ← LabelScope.name_addAll h', lowercase_name_eq_iff]
  apply LabelScope.name_inj
  rw [LabelScope.mem_addAll_iff]
  exact .inr (List.mem_map_of_mem h)

/-- Names by appearance are their own names by appearance. -/
theorem appearanceName_map (h : label ∈ labels) :
    appearanceName (labels.map (appearanceName labels)) (appearanceName labels label) =
      appearanceName labels label := by
  rw [← LabelScope.name_addAll (mem_map_of_mem h)]
  exact (LabelScope.name_addAll_congr (fun a ha b hb => lowercase_appearanceName_eq_iff ha hb) h).trans
    (LabelScope.name_addAll h)

theorem appearanceName_congr {other : String} (h : lowercase label = lowercase other) :
    appearanceName labels label = appearanceName labels other := by
  unfold appearanceName
  rw [h]

/-! ### Flows -/

theorem labelsOfFlow_map (f : String → String) (items : List FlowItem) :
    labelsOfFlow (items.map (FlowItem.map f)) = (labelsOfFlow items).map f := by
  unfold labelsOfFlow
  rw [filterMap_map, map_filterMap]
  congr 1
  funext item
  cases item <;> rfl

/-- Jumps are not dropped, so what they name stays. -/
theorem references_referencedItems (items : List FlowItem) :
    (referencedItems items).filterMap FlowItem.reference? = items.filterMap FlowItem.reference? := by
  unfold referencedItems
  rw [filterMap_filter]
  apply filterMap_congr
  intro item _
  cases item with
  | definition label => simp [FlowItem.reference?]
  | jump opcode target => rfl

/-- The flow of lines with unused labels dropped and the others numbered. -/
theorem flowInOrder_renumbered (items : List FlowItem) :
    FlowInOrder ((referencedItems items).map
      (FlowItem.map (appearanceName (labelsOfFlow (referencedItems items))))) := by
  constructor
  · intro item hitem
    obtain ⟨before, hbefore, rfl⟩ := mem_map.1 hitem
    cases before with
    | jump opcode target => rfl
    | definition label =>
      have hused := (mem_filter.1 hbefore).2
      rw [FlowItem.isReferenced, contains_iff_mem, ← references_referencedItems] at hused
      obtain ⟨jump, hjump, hkey⟩ := mem_filterMap.1 hused
      rw [FlowItem.map, FlowItem.isReferenced, contains_iff_mem]
      refine mem_filterMap.2 ⟨_, mem_map_of_mem hjump, ?_⟩
      cases jump with
      | definition other => cases hkey
      | jump opcode target =>
        obtain ⟨named, rfl, hnamed⟩ := Option.map_eq_some_iff.1 hkey
        rw [FlowItem.map, FlowItem.reference?, Option.map_some, Option.map_some,
          appearanceName_congr hnamed]
  · intro label hlabel
    rw [labelsOfFlow_map] at hlabel ⊢
    obtain ⟨before, hbefore, rfl⟩ := mem_map.1 hlabel
    exact (appearanceName_map hbefore).symm

theorem FlowInOrder.namesNoRegister (h : FlowInOrder items) : NamesNoRegister items := by
  intro label hlabel
  rw [h.numbered label hlabel, appearanceName, isRegister, String.toList_append]
  rfl

/-! ### Lines in order stay -/

/-- In order, no label is unused. -/
theorem dropUnusedLabels_eq_self (h : LabelsInOrder lines) : dropUnusedLabels lines = lines := by
  have hused : ∀ line ∈ lines, dropLabelUnless (labelReferences lines) line = some line := by
    intro line hline
    unfold dropLabelUnless
    cases hlabel : line.label with
    | none => rfl
    | some label =>
      have hmem : FlowItem.definition label ∈ skeleton Operand.spelling lines := by
        refine mem_flatMap.2 ⟨line, hline, mem_append_left _ ?_⟩
        rw [hlabel]
        exact mem_singleton_self _
      have hreferenced := h.referenced _ hmem
      rw [references_skeleton, FlowItem.isReferenced] at hreferenced
      dsimp only
      rw [if_pos hreferenced]
  unfold dropUnusedLabels
  rw [filterMap_congr hused, filterMap_some]

theorem nameLabels_eq_self {f : String → String} (hname : ∀ label ∈ line.labels, f label = label)
    (htarget : ∀ target ∈ line.body.target?, ∃ label, target = .ofSymbol label) :
    line.nameLabels f = line := by
  obtain ⟨sources, label, body⟩ := line
  have hlabel : label.map f = label := by
    cases label with
    | none => rfl
    | some label => exact congrArg some (hname label mem_cons_self)
  have hbody : body.nameTarget f = body := by
    rcases nameTarget_cases f body with ⟨-, hkept⟩ | ⟨opcode, target, others, hopcode, rfl, hnamed⟩
    · exact hkept
    · obtain ⟨name, rfl⟩ := htarget target (if_pos hopcode)
      have hkept := hname name (mem_append_right _ (by simp [Body.target?, hopcode]; rfl))
      rw [hnamed, show (Operand.ofSymbol name).spelling = name from rfl, hkept]
  unfold Line.nameLabels
  rw [hlabel, hbody]

/-- In order, labels keep their names. -/
theorem renumberLabels_eq_self (h : LabelsInOrder lines)
    (htarget : ∀ line ∈ lines, ∀ target ∈ line.body.target?, ∃ label, target = .ofSymbol label) :
    renumberLabels lines = lines := by
  rw [renumberLabels_eq, ← labelsOfFlow_skeleton]
  refine map_eq_self_iff.2 fun line hline => nameLabels_eq_self (fun label hlabel => ?_)
    (htarget line hline)
  have hmem : label ∈ labelsOfFlow (skeleton Operand.spelling lines) := by
    rw [labelsOfFlow_skeleton]
    exact mem_flatMap.2 ⟨line, hline, hlabel⟩
  rw [LabelScope.name_addAll hmem, ← h.numbered label hmem]

/-! ### Normal forms -/

theorem labelsInOrder_renumberRegisters {out : List Line} (h : LabelsInOrder lines)
    (hrun : renumberRegisters lines = .ok out) : LabelsInOrder out := by
  unfold LabelsInOrder
  rwa [skeleton_renumberRegisters hrun h.namesNoRegister]

/-- The labels of a normal form are in order. -/
theorem labelsInOrder_normalizeLines {out : List Line} (h : normalizeLines lines = .ok out) :
    LabelsInOrder out := by
  obtain ⟨numbered, -, rfl⟩ := exists_of_normalizeLines h
  unfold LabelsInOrder zeroUrlMethods emptyConstantPools
  rw [skeleton_map flow_zeroUrlMethod, skeleton_joinStrings, skeleton_map flow_emptyConstantPool,
    skeleton_foldUnitSteps, skeleton_dropDoubleNots, skeleton_renumberLabels,
    skeleton_dropUnusedLabels]
  exact flowInOrder_renumbered _

end MovieDiff.Pcode
