import MovieDiff.Proofs.Pcode.Origin

/-!
The flow of control of a block: its label definitions and its jumps in their order. The steps
towards the normal form drop the definitions that no jump names and number the labels as they
appear; they leave the rest of the flow alone.
-/
namespace MovieDiff.Pcode

open List
open Text (lowercase)

/-- The definition of a label, or a jump with the label that it names, if it names one. -/
inductive FlowItem where
  | definition (label : String)
  | jump (opcode : String) (target : Option String)
  deriving DecidableEq, Repr

namespace FlowItem

def label? : FlowItem → Option String
  | definition label => some label
  | jump _ target => target

def map (f : String → String) : FlowItem → FlowItem
  | definition label => definition (f label)
  | jump opcode target => jump opcode (target.map f)

def reference? : FlowItem → Option String
  | definition _ => none
  | jump _ target => target.map lowercase

/-- Jumps, and definitions of labels that are among the references. -/
def isReferenced (references : List String) : FlowItem → Bool
  | definition label => references.contains (lowercase label)
  | jump _ _ => true

end FlowItem

/-- The spelling of an operand in which a numeral has no zero fraction and a zero no sign. -/
def Operand.plainSpelling (operand : Operand) : String :=
  operand.plain.spelling

open Operand (spelling plainSpelling)

/-- The jump that a line makes; `spell` tells which label its first operand names. -/
def Line.jump? (spell : Operand → String) (line : Line) : Option FlowItem :=
  match line.body with
  | .instruction opcode operands =>
    if line.isJump then some (.jump opcode (operands.head?.map spell)) else none
  | _ => none

/-- The label of a line comes before its jump. -/
def Line.flow (spell : Operand → String) (line : Line) : List FlowItem :=
  (line.label.map FlowItem.definition).toList ++ (line.jump? spell).toList

def skeleton (spell : Operand → String) (lines : List Line) : List FlowItem :=
  lines.flatMap (Line.flow spell)

/-- The items without the definitions that no jump among them names, letter case aside. -/
def referencedItems (items : List FlowItem) : List FlowItem :=
  items.filter (·.isReferenced (items.filterMap FlowItem.reference?))

def labelsOfFlow (items : List FlowItem) : List String :=
  items.filterMap FlowItem.label?

/-- `L` and the number of different labels, letter case aside, that appear before a label does. -/
def appearanceName (labels : List String) (label : String) : String :=
  "L" ++ toString ((labels.map lowercase).takeWhile (· != lowercase label)).dedup.length

variable {spell : Operand → String} {line : Line}

/-! ### Lines -/

theorem skeleton_cons (line : Line) (lines : List Line) :
    skeleton spell (line :: lines) = line.flow spell ++ skeleton spell lines :=
  flatMap_cons

variable {opcode : String}

theorem isJump_of_hasOpcode (h : line.hasOpcode opcode) (hif : opcode ≠ "If")
    (hjump : opcode ≠ "Jump") : line.isJump = false := by
  unfold Line.isJump
  rw [not_hasOpcode h hif, not_hasOpcode h hjump]
  rfl

theorem isJump_withOperands (operands : List Operand) :
    (line.withOperands operands).isJump = line.isJump := by
  unfold Line.isJump
  rw [hasOpcode_withOperands, hasOpcode_withOperands]

theorem label_withOperands (operands : List Operand) :
    (line.withOperands operands).label = line.label := by
  unfold Line.withOperands
  split <;> rfl

theorem jump?_of_not_isJump (h : line.isJump = false) : line.jump? spell = none := by
  unfold Line.jump?
  rw [h]
  split <;> rfl

/-- A line that makes no jump bears on the flow by its label alone. -/
theorem flow_of_not_isJump (h : line.isJump = false) :
    line.flow spell = (line.label.map FlowItem.definition).toList := by
  rw [Line.flow, jump?_of_not_isJump h]
  exact append_nil _

theorem flow_of_unlabelled (h : line.isJump = false) (hlabel : line.label = none) :
    line.flow spell = [] := by
  rw [flow_of_not_isJump h, hlabel]
  rfl

theorem exists_body_of_isJump (h : line.isJump) :
    ∃ opcode operands, line.body = .instruction opcode operands := by
  unfold Line.isJump at h
  rw [Bool.or_eq_true] at h
  rcases h with h | h
  · exact ⟨_, exists_body_of_hasOpcode h⟩
  · exact ⟨_, exists_body_of_hasOpcode h⟩

theorem exists_jump (h : line.isJump) :
    ∃ opcode operands, (opcode = "If" ∨ opcode = "Jump") ∧
      line.body = .instruction opcode operands ∧ line.operands = operands := by
  obtain ⟨opcode, operands, hbody⟩ := exists_body_of_isJump h
  refine ⟨opcode, operands, ?_, hbody, by rw [Line.operands, hbody]⟩
  simpa [Line.isJump, Line.hasOpcode, Line.opcode?, hbody] using h

variable {operands : List Operand}

theorem jump?_of_isJump (h : line.isJump) (hbody : line.body = .instruction opcode operands) :
    line.jump? spell = some (.jump opcode (operands.head?.map spell)) := by
  unfold Line.jump?
  rw [hbody, h]
  rfl

/-- Only the first operand of a jump bears on the flow. -/
theorem flow_withOperands {spell' : Operand → String}
    (h : line.isJump → operands.head?.map spell' = line.operands.head?.map spell) :
    (line.withOperands operands).flow spell' = line.flow spell := by
  unfold Line.flow
  rw [label_withOperands]
  cases hjump : line.isJump with
  | false => rw [jump?_of_not_isJump hjump,
      jump?_of_not_isJump (by rw [isJump_withOperands, hjump])]
  | true =>
    obtain ⟨opcode, operands', hbody⟩ := exists_body_of_isJump hjump
    have hbody' : (line.withOperands operands).body = .instruction opcode operands := by
      simp [Line.withOperands, hbody]
    have hoperands : line.operands = operands' := by simp [Line.operands, hbody]
    rw [jump?_of_isJump hjump hbody, jump?_of_isJump (by rw [isJump_withOperands, hjump]) hbody',
      h hjump, hoperands]

/-! ### Steps that keep the flow -/

theorem skeleton_map {spell' : Operand → String} {f : Line → Line}
    (h : ∀ line, (f line).flow spell' = line.flow spell) (lines : List Line) :
    skeleton spell' (lines.map f) = skeleton spell lines := by
  unfold skeleton
  rw [flatMap_map]
  simp only [h]

theorem isJump_of_push (h : line.hasOpcode "Push") : line.isJump = false :=
  isJump_of_hasOpcode h (by decide) (by decide)

theorem skeleton_splitPush (line : Line) : skeleton spell (splitPush line) = line.flow spell := by
  unfold splitPush
  split
  next first second others hbody =>
    have hjump := isJump_of_push (hasOpcode_of_body hbody)
    have hothers : skeleton spell ((second :: others).map fun operand =>
        { line.withOperands [operand] with label := none }) = [] := by
      rw [skeleton, flatMap_map]
      refine flatMap_eq_nil_iff.2 fun operand _ => flow_of_unlabelled ?_ rfl
      rw [← isJump_withOperands [operand]] at hjump
      exact hjump
    rw [skeleton_cons, hothers, append_nil]
    refine flow_withOperands fun hjump' => ?_
    rw [hjump] at hjump'
    cases hjump'
  · exact append_nil _

/-- Splitting pushes keeps the flow. -/
theorem skeleton_splitPushes (lines : List Line) :
    skeleton spell (splitPushes lines) = skeleton spell lines := by
  unfold skeleton splitPushes
  rw [flatMap_assoc]
  exact flatMap_congr fun line _ => skeleton_splitPush line

/-- Once numerals are plain, the labels named are those of the plain spelling. -/
theorem skeleton_plainLiterals (lines : List Line) :
    skeleton spelling (plainLiterals lines) = skeleton plainSpelling lines := by
  refine skeleton_map (fun line => flow_withOperands fun _ => ?_) lines
  rw [head?_map, Option.map_map]
  rfl

theorem flow_plainHeader (line : Line) : (plainHeader line).flow spell = line.flow spell := by
  unfold plainHeader
  split
  next hdefinition =>
    have hjump : line.isJump = false := by
      unfold Line.isDefinition at hdefinition
      rw [Bool.or_eq_true] at hdefinition
      rcases hdefinition with h | h
      · exact isJump_of_hasOpcode h (by decide) (by decide)
      · exact isJump_of_hasOpcode h (by decide) (by decide)
    rw [flow_of_not_isJump hjump, flow_of_not_isJump rfl]
  · rfl

theorem flow_emptyConstantPool (line : Line) :
    (emptyConstantPool line).flow spell = line.flow spell := by
  unfold emptyConstantPool
  split
  next hpool =>
    refine flow_withOperands fun hjump => ?_
    rw [isJump_of_hasOpcode hpool (by decide) (by decide)] at hjump
    cases hjump
  · rfl

theorem flow_zeroUrlMethod (line : Line) : (zeroUrlMethod line).flow spell = line.flow spell := by
  unfold zeroUrlMethod
  split
  next hbody =>
    split
    · refine flow_withOperands fun _ => ?_
      simp [Line.operands, hbody]
    · rfl
  · rfl

/-- Without registers for targets, a jump keeps its target when registers are renumbered. -/
theorem flow_of_isNumbering {p : Line → Prop} {out : Line} (h : IsNumbering p line out)
    (htarget : line.isJump → ∀ target ∈ line.operands.head?, target.registerDigits? = none) :
    out.flow spell = line.flow spell := by
  rcases h with rfl | ⟨-, number, rfl⟩
  · rfl
  · unfold Line.numberRegisters
    split
    next hstore =>
      split
      · rfl
      · refine flow_withOperands fun hjump => ?_
        rw [isJump_of_hasOpcode hstore (by decide) (by decide)] at hjump
        cases hjump
    · refine flow_withOperands fun hjump => ?_
      cases hoperands : line.operands with
      | nil => rfl
      | cons target others =>
        have hnone := htarget hjump target (by rw [hoperands]; rfl)
        rw [map_cons, renameRegister_of_none _ hnone]
        rfl

def NamesNoRegister (items : List FlowItem) : Prop :=
  ∀ label ∈ labelsOfFlow items, isRegister label = false

theorem registerDigits?_eq_none {operand : Operand} (h : isRegister operand.spelling = false) :
    operand.registerDigits? = none := by
  have hnone : registerDigits? operand.value.spelling.toList = none := by
    simpa [isRegister, spelling] using h
  unfold Operand.registerDigits?
  rw [hnone]
  split <;> rfl

variable {out lines : List Line}

/-- Renumbering registers keeps the flow. -/
theorem skeleton_renumberRegisters (h : renumberRegisters lines = .ok out)
    (hnames : NamesNoRegister (skeleton spelling lines)) :
    skeleton spelling out = skeleton spelling lines := by
  have hall := forall₂_renumberRegisters h
  clear h
  induction hall with
  | nil => rfl
  | @cons line out' lines out hline _ ih =>
    rw [skeleton_cons, NamesNoRegister, labelsOfFlow, filterMap_append] at hnames
    rw [skeleton_cons, skeleton_cons, ih fun label hlabel => hnames label (mem_append_right _ hlabel),
      flow_of_isNumbering hline fun hjump target htarget => ?_]
    apply registerDigits?_eq_none
    apply hnames
    apply mem_append_left
    obtain ⟨opcode, operands, hbody⟩ := exists_body_of_isJump hjump
    have hoperands : line.operands = operands := by simp [Line.operands, hbody]
    rw [hoperands] at htarget
    refine mem_filterMap.2 ⟨.jump opcode (some target.spelling), ?_, rfl⟩
    rw [Line.flow, jump?_of_isJump hjump hbody, htarget]
    exact mem_append_right _ (mem_singleton_self _)

theorem flow_of_pushedString? {text : String} (h : line.pushedString? = some text) :
    line.flow spell = (line.label.map FlowItem.definition).toList := by
  obtain ⟨operand, hbody, -, -⟩ := exists_of_pushedString? h
  exact flow_of_not_isJump (isJump_of_push (hasOpcode_of_body hbody))

/-- No line of a pattern is a jump, and of its labels the first is kept, the only one there is. -/
theorem skeleton_of_rewrites (h : Rewrites lines out) :
    skeleton spell out = skeleton spell lines := by
  induction h with
  | nil => rfl
  | keep line _ ih => rw [skeleton_cons, skeleton_cons, ih]
  | negation hnot hlabel _ ih =>
    rw [skeleton_cons, flow_of_unlabelled (isJump_of_hasOpcode hnot (by decide) (by decide)) hlabel,
      ih]
    rfl
  | @unitStep one step _ _ hstep _ ih =>
    obtain ⟨hone, hlabel, hlabel', opcode, hmem, hopcode⟩ := exists_of_isUnitStep hstep
    obtain ⟨opcode', hmem', hopcode'⟩ := hasOpcode_unitStep one step
    have hjump := isJump_of_hasOpcode hopcode (ne_of_mem_of_not_mem hmem (by decide))
      (ne_of_mem_of_not_mem hmem (by decide))
    have hjump' := isJump_of_hasOpcode hopcode' (ne_of_mem_of_not_mem hmem' (by decide))
      (ne_of_mem_of_not_mem hmem' (by decide))
    simp only [skeleton_cons, ih, flow_of_unlabelled (isJump_of_push (hasOpcode_of_body hone)) hlabel,
      flow_of_unlabelled hjump hlabel', flow_of_unlabelled hjump' rfl, nil_append]
  | join hjoined _ ih =>
    obtain ⟨left, right, hleft, hright, hadd, hlabel, hlabel', -, hkept, hbody⟩ :=
      exists_of_joinedPush? hjoined
    simp only [skeleton_cons, ih, flow_of_pushedString? hleft, flow_of_pushedString? hright, hlabel,
      flow_of_unlabelled (isJump_of_hasOpcode hadd (by decide) (by decide)) hlabel',
      flow_of_not_isJump (isJump_of_push (hasOpcode_of_body hbody)), hkept]
    rfl

theorem skeleton_dropDoubleNots (lines : List Line) :
    skeleton spell (dropDoubleNots lines) = skeleton spell lines :=
  skeleton_of_rewrites (rewrites_dropDoubleNots lines)

theorem skeleton_foldUnitSteps (lines : List Line) :
    skeleton spell (foldUnitSteps lines) = skeleton spell lines :=
  skeleton_of_rewrites (rewrites_foldUnitSteps lines)

theorem skeleton_joinStrings (lines : List Line) :
    skeleton spell (joinStrings lines) = skeleton spell lines :=
  skeleton_of_rewrites (rewrites_joinStrings lines)

/-! ### Definitions that no jump names -/

theorem reference?_jump (h : line.isJump) :
    (line.flow spelling).filterMap FlowItem.reference? = line.jumpKey?.toList := by
  obtain ⟨opcode, operands, hbody⟩ := exists_body_of_isJump h
  have hoperands : line.operands = operands := by simp [Line.operands, hbody]
  have hlabel : (line.label.map FlowItem.definition).toList.filterMap FlowItem.reference? = [] := by
    cases line.label <;> rfl
  rw [Line.flow, filterMap_append, hlabel, jump?_of_isJump h hbody, Line.jumpKey?, if_pos h,
    hoperands]
  cases operands <;> rfl

/-- The flow tells which labels are named. -/
theorem references_skeleton (lines : List Line) :
    (skeleton spelling lines).filterMap FlowItem.reference? = labelReferences lines := by
  induction lines with
  | nil => rfl
  | cons line rest ih =>
    have hline : (line.flow spelling).filterMap FlowItem.reference? =
        line.jumpKey?.toList := by
      cases hjump : line.isJump with
      | true => exact reference?_jump hjump
      | false =>
        rw [flow_of_not_isJump hjump, Line.jumpKey?, hjump]
        cases line.label <;> rfl
    rw [skeleton_cons, filterMap_append, ih, hline, labelReferences, labelReferences,
      filterMap_cons]
    cases line.jumpKey? <;> rfl

theorem flow_dropLabelUnless (references : List String) (line : Line) :
    (dropLabelUnless references line).toList.flatMap (Line.flow spell) =
      (line.flow spell).filter (·.isReferenced references) := by
  have hjump : (line.jump? spell).toList.filter (·.isReferenced references) =
      (line.jump? spell).toList := by
    unfold Line.jump?
    split
    · split <;> rfl
    · rfl
  unfold dropLabelUnless
  cases hlabel : line.label with
  | none => simp [Line.flow, hlabel, hjump]
  | some label =>
    by_cases hmem : lowercase label ∈ references
    · have hkept : (FlowItem.definition label).isReferenced references = true := by
        simpa [FlowItem.isReferenced] using hmem
      simp [Line.flow, hlabel, hjump, hmem, hkept]
    · have hdropped : (FlowItem.definition label).isReferenced references = false := by
        simpa [FlowItem.isReferenced] using hmem
      by_cases hbody : line.body = .labelOnly
      · have hnone : line.jump? spell = none := by
          unfold Line.jump?
          rw [hbody]
        simp [Line.flow, hlabel, hmem, hdropped, hbody, hnone]
      · have hsame : ({ line with label := none } : Line).jump? spell = line.jump? spell := rfl
        simp [Line.flow, hlabel, hjump, hmem, hdropped, hbody, hsame]

/-- Labels that no jump names are dropped. -/
theorem skeleton_dropUnusedLabels (lines : List Line) :
    skeleton spelling (dropUnusedLabels lines) =
      referencedItems (skeleton spelling lines) := by
  rw [referencedItems, references_skeleton, dropUnusedLabels]
  generalize labelReferences lines = references
  induction lines with
  | nil => rfl
  | cons line rest ih =>
    rw [skeleton_cons, filter_append, ← flow_dropLabelUnless, ← ih, filterMap_cons]
    cases dropLabelUnless references line with
    | none => rfl
    | some kept => simp [skeleton_cons]

/-! ### Numbers of labels -/

variable {labels : List String} {label : String}

/-- A label takes the number of different labels that have appeared before it. -/
theorem LabelScope.name_addAll (h : label ∈ labels) :
    (LabelScope.addAll [] labels).name label = appearanceName labels label := by
  have hnumber := RegisterScope.number_addAll (mem_map_of_mem (f := lowercase) h)
  rw [name, appearanceName, addAll_eq, Nat.succ.inj hnumber]

theorem labelsOfFlow_append (items more : List FlowItem) :
    labelsOfFlow (items ++ more) = labelsOfFlow items ++ labelsOfFlow more :=
  filterMap_append

theorem jump?_eq (line : Line) (h : line.isJump) :
    ∃ opcode, line.jump? spell = some (.jump opcode (line.body.target?.map spell)) := by
  obtain ⟨opcode, operands, -, hbody, hoperands⟩ := exists_jump h
  exact ⟨opcode, by rw [jump?_of_isJump h hbody, target?_eq, if_pos h, hoperands]⟩

/-- The flow of a line has its labels. -/
theorem labelsOfFlow_flow (line : Line) : labelsOfFlow (line.flow spelling) = line.labels := by
  rw [Line.flow, labelsOfFlow_append, Line.labels]
  congr 1
  · cases line.label <;> rfl
  · cases hjump : line.isJump with
    | false =>
      rw [jump?_of_not_isJump hjump, target?_eq, hjump]
      rfl
    | true =>
      obtain ⟨opcode, hitem⟩ := @jump?_eq spelling line hjump
      rw [hitem]
      cases line.body.target? <;> rfl

theorem labelsOfFlow_skeleton (lines : List Line) :
    labelsOfFlow (skeleton spelling lines) = lines.flatMap Line.labels := by
  unfold skeleton labelsOfFlow
  rw [filterMap_flatMap]
  exact flatMap_congr fun line _ => labelsOfFlow_flow line

theorem jump?_nameLabels (f : String → String) (line : Line) :
    (line.nameLabels f).jump? spelling = (line.jump? spelling).map (FlowItem.map f) := by
  obtain ⟨sources, label, body⟩ := line
  unfold Line.nameLabels
  rcases nameTarget_cases f body with
    ⟨hnone, hkept⟩ | ⟨opcode, target, others, hopcode, rfl, hnamed⟩
  · rw [hkept]
    change (⟨sources, label, body⟩ : Line).jump? spelling = _
    cases hjump : (⟨sources, label, body⟩ : Line).isJump with
    | false => rw [jump?_of_not_isJump hjump, Option.map_none]
    | true =>
      obtain ⟨opcode, hitem⟩ := @jump?_eq spelling _ hjump
      rw [hitem, hnone]
      rfl
  · rw [hnamed]
    rcases hopcode with rfl | rfl <;> rfl

theorem flow_nameLabels (f : String → String) (line : Line) :
    (line.nameLabels f).flow spelling = (line.flow spelling).map (FlowItem.map f) := by
  rw [Line.flow, Line.flow, jump?_nameLabels, map_append]
  congr 1
  · obtain ⟨sources, label, body⟩ := line
    cases label <;> rfl
  · cases line.jump? spelling <;> rfl

/-- Labels are named as they appear. -/
theorem skeleton_renumberLabels (lines : List Line) :
    skeleton spelling (renumberLabels lines) =
      (skeleton spelling lines).map
        (FlowItem.map (appearanceName (labelsOfFlow (skeleton spelling lines)))) := by
  have hrenamed : skeleton spelling (renumberLabels lines) = (skeleton spelling lines).map
      (FlowItem.map (LabelScope.addAll [] (labelsOfFlow (skeleton spelling lines))).name) := by
    rw [renumberLabels_eq, labelsOfFlow_skeleton]
    unfold skeleton
    rw [flatMap_map, map_flatMap]
    exact flatMap_congr fun line _ => flow_nameLabels _ line
  rw [hrenamed]
  refine map_congr_left fun item hitem => ?_
  have hname : ∀ label ∈ item.label?,
      (LabelScope.addAll [] (labelsOfFlow (skeleton spelling lines))).name label =
        appearanceName (labelsOfFlow (skeleton spelling lines)) label :=
    fun label hlabel => LabelScope.name_addAll (mem_filterMap.2 ⟨item, hitem, hlabel⟩)
  cases item with
  | definition label => rw [FlowItem.map, FlowItem.map, hname label rfl]
  | jump opcode target =>
    cases target with
    | none => rfl
    | some label =>
      rw [FlowItem.map, FlowItem.map, Option.map_some, Option.map_some, hname label rfl]

/-! ### The normal form -/

/-- The flow of a normal form is that of the block without the definitions that no jump names, with
the labels numbered as they appear. Labels that differ only in letter case are one, and the target
of a jump counts in its plain spelling. -/
theorem skeleton_normalizeBlock {block normal : Block} (h : normalizeBlock block = .ok normal)
    (hnames : NamesNoRegister (skeleton plainSpelling block.lines)) :
    let items := referencedItems (skeleton plainSpelling block.lines)
    skeleton spelling normal.lines =
        items.map (FlowItem.map (appearanceName (labelsOfFlow items))) ∧
      ∀ label ∈ labelsOfFlow items, ∀ other ∈ labelsOfFlow items,
        appearanceName (labelsOfFlow items) label = appearanceName (labelsOfFlow items) other ↔
          lowercase label = lowercase other := by
  intro items
  obtain ⟨numbered, hnumbered, hlines⟩ := exists_of_normalizeLines (normalizeBlock_eq_ok h)
  have hbefore : skeleton spelling (plainHeaders (plainLiterals (splitPushes block.lines))) =
      skeleton plainSpelling block.lines := by
    unfold plainHeaders
    rw [skeleton_map flow_plainHeader, skeleton_plainLiterals, skeleton_splitPushes]
  constructor
  · rw [hlines]
    unfold zeroUrlMethods emptyConstantPools
    rw [skeleton_map flow_zeroUrlMethod, skeleton_joinStrings, skeleton_map flow_emptyConstantPool,
      skeleton_foldUnitSteps, skeleton_dropDoubleNots, skeleton_renumberLabels,
      skeleton_dropUnusedLabels, skeleton_renumberRegisters hnumbered (by rwa [hbefore]), hbefore]
  · intro label hlabel other hother
    rw [← LabelScope.name_addAll hlabel, ← LabelScope.name_addAll hother]
    apply LabelScope.name_inj
    rw [LabelScope.mem_addAll_iff]
    exact .inr (List.mem_map_of_mem hlabel)

/-- A loop with labels in both letter cases and one that no jump names. -/
def loopBlock : Block :=
  ⟨"loop", [⟨[0], some "Top", .instruction "If" [.ofSymbol "END"]⟩,
    ⟨[1], some "spare", .instruction "Pop" []⟩,
    ⟨[2], some "end", .instruction "Jump" [.ofSymbol "top"]⟩]⟩

theorem skeleton_loopBlock :
    ∃ normal, normalizeBlock loopBlock = .ok normal ∧
      NamesNoRegister (skeleton plainSpelling loopBlock.lines) ∧
      skeleton spelling normal.lines =
        [.definition "L0", .jump "If" (some "L1"), .definition "L1", .jump "Jump" (some "L0")] := by
  obtain ⟨normal, hnormal⟩ : ∃ normal, normalizeBlock loopBlock = .ok normal := ⟨_, rfl⟩
  have hnames : NamesNoRegister (skeleton plainSpelling loopBlock.lines) := by
    unfold NamesNoRegister
    decide +kernel
  refine ⟨normal, hnormal, hnames, ?_⟩
  rw [(skeleton_normalizeBlock hnormal hnames).1]
  decide +kernel

/-- Jumps to two numerals that are alike once they are plain. -/
def numeralJumps : Block :=
  ⟨"jumps", [⟨[0], none, .instruction "If" [.ofNumeral "1.0"]⟩,
    ⟨[1], none, .instruction "If" [.ofNumeral "1"]⟩]⟩

/-- As they are spelled the two targets differ; the normal form does not tell them apart. -/
theorem skeleton_numeralJumps :
    ∃ normal, normalizeBlock numeralJumps = .ok normal ∧
      NamesNoRegister (skeleton spelling numeralJumps.lines) ∧
      skeleton spelling normal.lines = [.jump "If" (some "L0"), .jump "If" (some "L0")] ∧
      let items := referencedItems (skeleton spelling numeralJumps.lines)
      items.map (FlowItem.map (appearanceName (labelsOfFlow items))) =
        [.jump "If" (some "L0"), .jump "If" (some "L1")] := by
  have hnormal : normalizeBlock numeralJumps = .ok ⟨"jumps",
      [⟨[0], none, .instruction "If" [.ofSymbol "L0"]⟩,
        ⟨[1], none, .instruction "If" [.ofSymbol "L0"]⟩]⟩ := eq_ok_of_toOption (by decide +kernel)
  refine ⟨_, hnormal, ?_, rfl, by decide +kernel⟩
  unfold NamesNoRegister
  decide +kernel

end MovieDiff.Pcode
