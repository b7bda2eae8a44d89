import MovieDiff.Proofs.Pcode.Appearance

/-!
Short sequences that are rewritten. Three steps towards the normal form look for a pattern of a few
lines. Between them they keep a line, drop a negation, or put one line in the place of two or three,
so what each of these keeps is kept by the three steps. The steps on labels take one line at a time,
and the labels of all lines are renamed alike.
-/
namespace MovieDiff.Pcode

variable {line first second add joined one step : Line}

theorem hasOpcode_of_body {opcode : String} {operands : List Operand}
    (h : line.body = .instruction opcode operands) : line.hasOpcode opcode := by
  simp [Line.hasOpcode, Line.opcode?, h]

theorem body_of_pushed? {operand : Operand} (h : line.pushed? = some operand) :
    line.body = .instruction "Push" [operand] := by
  unfold Line.pushed? at h
  split at h
  next hbody =>
    cases h
    exact hbody
  · cases h

theorem exists_of_pushedString? {text : String} (h : line.pushedString? = some text) :
    ∃ operand, line.body = .instruction "Push" [operand] ∧ operand.kind = .string ∧
      operand.value.spelling = text := by
  unfold Line.pushedString? at h
  split at h
  next operand hpushed =>
    split at h
    next hkind =>
      exact ⟨operand, body_of_pushed? hpushed, beq_iff_eq.1 hkind, Option.some.inj h⟩
    · cases h
  · cases h

/-- A joined push takes over the label of the first push, the only one there is. -/
theorem exists_of_joinedPush? (h : joinedPush? first second add = some joined) :
    ∃ left right, first.pushedString? = some left ∧ second.pushedString? = some right ∧
      add.hasOpcode "StringAdd" ∧ second.label = none ∧ add.label = none ∧
      joined.sources = mergeSources [first.sources, second.sources, add.sources] ∧
      joined.label = first.label ∧ joined.body = .instruction "Push" [.ofString (left ++ right)] := by
  unfold joinedPush? at h
  split at h
  next left right hleft hright =>
    split at h
    next hadd =>
      simp only [Bool.and_eq_true, Line.isBare, Line.isUnlabelled, beq_iff_eq,
        Option.isNone_iff_eq_none] at hadd
      cases h
      exact ⟨left, right, hleft, hright, hasOpcode_of_body hadd.1.1, hadd.1.2, hadd.2, rfl, rfl, rfl⟩
    · cases h
  · cases h

theorem exists_of_isUnitStep (h : isUnitStep one step) :
    one.body = .instruction "Push" [.ofNumeral "1"] ∧ one.label = none ∧ step.label = none ∧
      ∃ opcode ∈ ["Add", "Add2", "Subtract"], step.hasOpcode opcode := by
  simp only [isUnitStep, Line.isPushOne, Line.isStep, Line.isAdd, Line.isUnlabelled,
    Bool.and_eq_true, Bool.or_eq_true, beq_iff_eq, Option.isNone_iff_eq_none] at h
  refine ⟨body_of_pushed? h.1.1.1, h.1.2, h.2, ?_⟩
  rcases h.1.1.2 with (hadd | hadd) | hsubtract
  · exact ⟨_, by decide, hadd⟩
  · exact ⟨_, by decide, hadd⟩
  · exact ⟨_, by decide, hsubtract⟩

theorem hasOpcode_unitStep (one step : Line) :
    ∃ opcode ∈ ["Increment", "Decrement"], (unitStep one step).hasOpcode opcode := by
  refine ⟨if step.isAdd then "Increment" else "Decrement", ?_, hasOpcode_of_body rfl⟩
  split <;> decide

theorem isUnitStep_of_step {previous : Option Line} {last : Line}
    (h : (isRegisterStep first one step last || isNamedStep previous first one step last) = true) :
    isUnitStep one step := by
  rw [Bool.or_eq_true] at h
  rcases h with h | h
  · unfold isRegisterStep at h
    split at h
    · rw [Bool.and_eq_true] at h
      exact h.1
    · cases h
  · unfold isNamedStep at h
    simp only [Bool.and_eq_true] at h
    exact h.1.2

/-- The second lines are the first ones with patterns rewritten. -/
inductive Rewrites : List Line → List Line → Prop where
  | nil : Rewrites [] []
  | keep {rest out : List Line} (line : Line) :
    Rewrites rest out → Rewrites (line :: rest) (line :: out)
  | negation {line : Line} {rest out : List Line} (hnot : line.hasOpcode "Not")
    (hlabel : line.label = none) : Rewrites rest out → Rewrites (line :: rest) out
  | unitStep {one step : Line} {rest out : List Line} (hstep : isUnitStep one step) :
    Rewrites rest out → Rewrites (one :: step :: rest) (Pcode.unitStep one step :: out)
  | join {first second add joined : Line} {rest out : List Line}
    (hjoined : joinedPush? first second add = some joined) :
    Rewrites rest out → Rewrites (first :: second :: add :: rest) (joined :: out)

theorem rewrites_dropDoubleNots (lines : List Line) : Rewrites lines (dropDoubleNots lines) := by
  fun_induction dropDoubleNots lines with
  | case1 current first second branch rest hdouble ih =>
    simp only [isDoubleNot, Line.isUnlabelled, Bool.and_eq_true,
      Option.isNone_iff_eq_none] at hdouble
    obtain ⟨⟨⟨⟨⟨-, hfirst⟩, hlabel⟩, hsecond⟩, hlabel'⟩, -⟩ := hdouble
    exact .keep current (.negation hfirst hlabel (.negation hsecond hlabel' (.keep branch ih)))
  | case2 current first second branch rest _ ih => exact .keep current ih
  | case3 line rest _ ih => exact .keep line ih
  | case4 => exact .nil

theorem rewrites_foldUnitSteps (lines : List Line) : Rewrites lines (foldUnitSteps lines) := by
  unfold foldUnitSteps
  generalize (none : Option Line) = previous
  fun_induction foldUnitStepsFrom previous lines with
  | case1 previous first one step last rest hstep ih =>
    exact .keep first (.unitStep (isUnitStep_of_step hstep) (.keep last ih))
  | case2 previous first one step last rest _ ih => exact .keep first ih
  | case3 previous line rest _ ih => exact .keep line ih
  | case4 => exact .nil

theorem rewrites_joinStrings (lines : List Line) : Rewrites lines (joinStrings lines) := by
  fun_induction joinStrings lines with
  | case1 first second add rest joined hjoined ih => exact .join hjoined ih
  | case2 first second add rest _ ih => exact .keep first ih
  | case3 line rest _ ih => exact .keep line ih
  | case4 => exact .nil

/-! ### Labels -/

/-- A line stays, goes with its label if it has nothing else, or loses its label. -/
theorem dropLabelUnless_cases (references : List String) (line : Line) :
    dropLabelUnless references line = some line ∨
      dropLabelUnless references line = none ∧ line.label.isSome ∧ line.body = .labelOnly ∨
      dropLabelUnless references line = some { line with label := none } ∧
        line.body ≠ .labelOnly := by
  unfold dropLabelUnless
  cases hlabel : line.label with
  | none => exact .inl rfl
  | some label =>
    dsimp only
    split
    · exact .inl rfl
    · split
      next hbody => exact .inr (.inl ⟨rfl, rfl, beq_iff_eq.1 hbody⟩)
      next hbody => exact .inr (.inr ⟨rfl, mt beq_iff_eq.2 hbody⟩)

def Operand.spelling (operand : Operand) : String :=
  operand.value.spelling

def Body.target? : Body → Option Operand
  | .instruction opcode operands =>
    if opcode = "If" ∨ opcode = "Jump" then operands.head? else none
  | _ => none

def Body.nameTarget (f : String → String) : Body → Body
  | .instruction opcode (target :: others) =>
    .instruction opcode
      ((if opcode = "If" ∨ opcode = "Jump" then .ofSymbol (f target.spelling) else target) :: others)
  | body => body

def Line.labels (line : Line) : List String :=
  line.label.toList ++ (line.body.target?.map Operand.spelling).toList

def Line.nameLabels (f : String → String) (line : Line) : Line :=
  { line with label := line.label.map f, body := line.body.nameTarget f }

theorem target?_eq (line : Line) :
    line.body.target? = if line.isJump then line.operands.head? else none := by
  cases hbody : line.body <;>
    simp [Body.target?, Line.isJump, Line.hasOpcode, Line.opcode?, Line.operands, hbody]

/-- A jump has a target unless it has no operands. -/
theorem operands_of_target? (h : line.body.target? = none) (hjump : line.isJump) :
    line.operands = [] := by
  rwa [target?_eq, if_pos hjump, List.head?_eq_none_iff] at h

/-- Only jumps have a target to rename. -/
theorem nameTarget_cases (f : String → String) (body : Body) :
    body.target? = none ∧ body.nameTarget f = body ∨
      ∃ opcode target others, (opcode = "If" ∨ opcode = "Jump") ∧
        body = .instruction opcode (target :: others) ∧
        body.nameTarget f = .instruction opcode (.ofSymbol (f target.spelling) :: others) := by
  cases body with
  | structural mark => exact .inl ⟨rfl, rfl⟩
  | labelOnly => exact .inl ⟨rfl, rfl⟩
  | instruction opcode operands =>
    cases operands with
    | nil => exact .inl ⟨by simp [Body.target?], rfl⟩
    | cons target others =>
      by_cases hopcode : opcode = "If" ∨ opcode = "Jump"
      · exact .inr ⟨opcode, target, others, hopcode, rfl, by simp [Body.nameTarget, hopcode]⟩
      · exact .inl ⟨if_neg hopcode, by simp [Body.nameTarget, hopcode]⟩

theorem nameTarget_of_none {body : Body} (f : String → String) (h : body.target? = none) :
    body.nameTarget f = body := by
  rcases nameTarget_cases f body with ⟨-, hkept⟩ | ⟨opcode, target, others, hopcode, rfl, -⟩
  · exact hkept
  · rw [Body.target?, if_pos hopcode] at h
    cases h

variable {scope later : LabelScope}

theorem renumberLabelOf_eq (h : scope.addAll line.label.toList <+: later) :
    renumberLabelOf scope line =
      (scope.addAll line.label.toList, { line with label := line.label.map later.name }) := by
  obtain ⟨sources, label, body⟩ := line
  cases label with
  | none => rfl
  | some label =>
    have hname := LabelScope.name_of_isPrefix h (scope.key_mem_add label)
    rw [renumberLabelOf, Option.map_some, hname]
    rfl

theorem renumberTargetOf_eq
    (h : scope.addAll (line.body.target?.map Operand.spelling).toList <+: later) :
    renumberTargetOf scope line = (scope.addAll (line.body.target?.map Operand.spelling).toList,
      { line with body := line.body.nameTarget later.name }) := by
  obtain ⟨sources, label, body⟩ := line
  rcases nameTarget_cases later.name body with
    ⟨hnone, hkept⟩ | ⟨opcode, target, others, hopcode, rfl, hnamed⟩
  · rw [hkept, hnone, renumberTargetOf]
    split
    next hjump =>
      rw [operands_of_target? hnone hjump]
      rfl
    · rfl
  · have htarget : (Body.instruction opcode (target :: others)).target? = some target := if_pos hopcode
    rw [htarget] at h ⊢
    have hname := LabelScope.name_of_isPrefix h (scope.key_mem_add target.spelling)
    rw [hnamed, hname]
    rcases hopcode with rfl | rfl <;> rfl

/-- The labels of all lines are numbered as any scope numbers them that they have entered. -/
theorem renumberLabelsFrom_eq {lines : List Line}
    (h : scope.addAll (lines.flatMap Line.labels) <+: later) :
    renumberLabelsFrom scope lines = lines.map (Line.nameLabels later.name) := by
  induction lines generalizing scope with
  | nil => rfl
  | cons line rest ih =>
    rw [List.flatMap_cons, LabelScope.addAll_append, Line.labels, LabelScope.addAll_append] at h
    have htarget := (LabelScope.prefix_addAll _ _).trans h
    have hlabel := (LabelScope.prefix_addAll _ _).trans htarget
    rw [renumberLabelsFrom, renumberLabelOf_eq hlabel, renumberTargetOf_eq (by exact htarget), ih h]
    rfl

/-- Numbering labels renames each of them, in every line alike. -/
theorem renumberLabels_eq (lines : List Line) : renumberLabels lines =
    lines.map (Line.nameLabels (LabelScope.addAll [] (lines.flatMap Line.labels)).name) :=
  renumberLabelsFrom_eq (List.prefix_refl _)

end MovieDiff.Pcode
