import Mathlib.Data.List.Basic
import MovieDiff.Proofs.Pcode.Patterns
import MovieDiff.Proofs.Pcode.Split

/-!
The registers that a function reads. Lines are reduced to what bears on them: where functions open
and close, and which registers are pushed. Apart from the renumbering of registers, no step towards
the normal form changes this, except that each push comes to stand on a line of its own.
-/
namespace MovieDiff.Pcode

open List

variable {opcode : String} (operands : List Operand)

/-- A push of a register: the source lines that it stands for, the digits, and whether its line
pushes nothing else. -/
structure Read where
  sources : List Int
  register : String
  alone : Bool
  deriving DecidableEq, Repr

def Read.isolated (read : Read) : Read :=
  { read with alone := true }

/-- What a line does to the depth of functions, or what it reads. -/
inductive Step (α : Type) where
  | opening
  | closing
  | read (a : α)
  deriving DecidableEq, Repr

def Step.map {α β : Type} (f : α → β) : Step α → Step β
  | .opening => .opening
  | .closing => .closing
  | .read a => .read (f a)

def Line.reads (line : Line) : List Read :=
  if line.hasOpcode "Push" then
    line.operands.filterMap fun operand => operand.registerDigits?.map fun register =>
      ⟨line.sources, register, line.operands.length == 1⟩
  else []

def Line.steps (line : Line) : List (Step Read) :=
  if line.isDefinition then [.opening]
  else if line.isClosing then [.closing]
  else line.reads.map .read

def stepsOf (lines : List Line) : List (Step Read) :=
  lines.flatMap Line.steps

/-- What is read at depth one, up to where this depth is left. -/
def ownReads {α : Type} (depth : Nat) : List (Step α) → List α
  | [] => []
  | .opening :: rest => ownReads (depth + 1) rest
  | .closing :: rest => if depth = 1 then [] else ownReads (depth - 1) rest
  | .read a :: rest => if depth = 1 then a :: ownReads depth rest else ownReads depth rest

/-- The reads of the first function, without those of functions inside it. -/
def outerReads (lines : List Line) : List Read :=
  ownReads 0 (stepsOf lines)

theorem stepsOf_cons (line : Line) (lines : List Line) :
    stepsOf (line :: lines) = line.steps ++ stepsOf lines :=
  flatMap_cons

theorem stepsOf_append (lines more : List Line) :
    stepsOf (lines ++ more) = stepsOf lines ++ stepsOf more :=
  flatMap_append

theorem ownReads_map {α β : Type} (f : α → β) (depth : Nat) (steps : List (Step α)) :
    ownReads depth (steps.map (Step.map f)) = (ownReads depth steps).map f := by
  induction steps generalizing depth with
  | nil => rfl
  | cons step rest ih =>
    cases step with
    | opening => exact ih (depth + 1)
    | closing =>
      rw [map_cons, Step.map, ownReads, ownReads]
      split
      · rfl
      · exact ih (depth - 1)
    | read a =>
      rw [map_cons, Step.map, ownReads, ownReads]
      split
      · rw [ih, map_cons]
      · exact ih depth

/-! ### One line -/

section Line

variable {line : Line}

theorem isDefinition_of_hasOpcode (h : line.hasOpcode opcode) (hne : opcode ≠ "DefineFunction")
    (hne' : opcode ≠ "DefineFunction2") :
    line.isDefinition = false := by
  unfold Line.isDefinition Line.hasOpcode at *
  rw [beq_iff_eq] at h
  rw [h]
  simp [hne, hne']

theorem isClosing_of_hasOpcode (h : line.hasOpcode opcode) : line.isClosing = false := by
  unfold Line.isClosing
  cases hbody : line.body with
  | instruction opcode operands => rfl
  | structural mark => simp [Line.hasOpcode, Line.opcode?, hbody] at h
  | labelOnly => rfl

/-- An instruction that neither pushes nor defines bears on no register that is read. -/
theorem steps_of_hasOpcode (h : line.hasOpcode opcode) (hpush : opcode ≠ "Push")
    (hne : opcode ≠ "DefineFunction") (hne' : opcode ≠ "DefineFunction2") : line.steps = [] := by
  have hnot : line.hasOpcode "Push" = false := by
    unfold Line.hasOpcode at *
    rw [beq_iff_eq] at h
    rw [h]
    simp [hpush]
  unfold Line.steps Line.reads
  rw [isDefinition_of_hasOpcode h hne hne', isClosing_of_hasOpcode h, hnot]
  rfl

theorem steps_of_push (h : line.hasOpcode "Push") : line.steps = line.reads.map .read := by
  unfold Line.steps
  rw [isDefinition_of_hasOpcode h (by decide) (by decide), isClosing_of_hasOpcode h]
  rfl

theorem exists_body_of_hasOpcode (h : line.hasOpcode opcode) :
    ∃ operands, line.body = .instruction opcode operands := by
  unfold Line.hasOpcode Line.opcode? at h
  split at h
  next opcode' operands hbody =>
    rw [beq_iff_eq, Option.some.injEq] at h
    exact ⟨operands, by rw [hbody, h]⟩
  · cases h

theorem hasOpcode_withOperands (opcode : String) :
    (line.withOperands operands).hasOpcode opcode = line.hasOpcode opcode := by
  unfold Line.withOperands Line.hasOpcode Line.opcode?
  cases hbody : line.body <;> simp [hbody]

theorem isDefinition_withOperands :
    (line.withOperands operands).isDefinition = line.isDefinition := by
  unfold Line.isDefinition
  rw [hasOpcode_withOperands, hasOpcode_withOperands]

theorem isClosing_withOperands : (line.withOperands operands).isClosing = line.isClosing := by
  unfold Line.withOperands
  split
  next hbody =>
    unfold Line.isClosing
    rw [hbody]
    rfl
  · rfl

theorem sources_withOperands : (line.withOperands operands).sources = line.sources := by
  unfold Line.withOperands
  split <;> rfl

theorem operands_withOperands (h : line.hasOpcode opcode) (operands : List Operand) :
    (line.withOperands operands).operands = operands := by
  unfold Line.withOperands Line.operands
  cases hbody : line.body with
  | instruction opcode' operands' => rfl
  | structural mark => simp [Line.hasOpcode, Line.opcode?, hbody] at h
  | labelOnly => simp [Line.hasOpcode, Line.opcode?, hbody] at h

/-- A push reads its registers. -/
theorem reads_of_push (h : line.hasOpcode "Push") :
    line.reads = line.operands.filterMap fun operand => operand.registerDigits?.map fun register =>
      ⟨line.sources, register, line.operands.length == 1⟩ := by
  unfold Line.reads
  rw [h]
  rfl

theorem steps_withOperands_of_not_push (h : line.hasOpcode "Push" = false)
    (operands : List Operand) : (line.withOperands operands).steps = line.steps := by
  unfold Line.steps Line.reads
  rw [isDefinition_withOperands, isClosing_withOperands, hasOpcode_withOperands, h]
  rfl

theorem not_hasOpcode {other : String} (h : line.hasOpcode opcode) (hne : opcode ≠ other) :
    line.hasOpcode other = false := by
  unfold Line.hasOpcode at *
  rw [beq_iff_eq] at h
  rw [h]
  simp [hne]

end Line

/-! ### The passes -/

section Passes

variable {line : Line}

theorem stepsOf_map {f : Line → Line} (h : ∀ line, (f line).steps = line.steps) (lines : List Line) :
    stepsOf (lines.map f) = stepsOf lines := by
  unfold stepsOf
  rw [flatMap_map]
  simp only [h]

theorem registerDigits?_plain (operand : Operand) :
    operand.plain.registerDigits? = operand.registerDigits? := by
  unfold Operand.plain
  split
  next hkind =>
    rw [beq_iff_eq] at hkind
    simp [Operand.registerDigits?, Operand.ofNumeral, hkind]
  · rfl

theorem stepsOf_plainLiterals (lines : List Line) : stepsOf (plainLiterals lines) = stepsOf lines := by
  apply stepsOf_map
  intro line
  cases hpush : line.hasOpcode "Push" with
  | false => exact steps_withOperands_of_not_push hpush _
  | true =>
    have hpush' := hpush
    rw [← hasOpcode_withOperands (line.operands.map Operand.plain)] at hpush'
    rw [steps_of_push hpush', steps_of_push hpush, reads_of_push hpush', reads_of_push hpush,
      operands_withOperands hpush, sources_withOperands, filterMap_map, length_map]
    simp only [Function.comp_def, registerDigits?_plain]

theorem steps_plainHeader (line : Line) : (plainHeader line).steps = line.steps := by
  unfold plainHeader
  split
  next hdefinition =>
    unfold Line.steps
    rw [if_pos hdefinition]
    rfl
  · rfl

theorem steps_emptyConstantPool (line : Line) : (emptyConstantPool line).steps = line.steps := by
  unfold emptyConstantPool
  split
  next hpool => exact steps_withOperands_of_not_push (not_hasOpcode hpool (by decide)) _
  · rfl

theorem steps_zeroUrlMethod (line : Line) : (zeroUrlMethod line).steps = line.steps := by
  unfold zeroUrlMethod
  split
  next hbody =>
    split
    · apply steps_withOperands_of_not_push
      simp [Line.hasOpcode, Line.opcode?, hbody]
    · rfl
  · rfl

theorem stepsOf_dropUnusedLabels (lines : List Line) :
    stepsOf (dropUnusedLabels lines) = stepsOf lines := by
  unfold dropUnusedLabels
  generalize labelReferences lines = references
  induction lines with
  | nil => rfl
  | cons line rest ih =>
    rcases dropLabelUnless_cases references line with hline | ⟨hline, -, hbody⟩ | ⟨hline, -⟩
    · rw [filterMap_cons_some hline, stepsOf_cons, stepsOf_cons, ih]
    · rw [filterMap_cons_none hline, stepsOf_cons, ih]
      simp [Line.steps, Line.reads, Line.isDefinition, Line.isClosing, Line.hasOpcode,
        Line.opcode?, hbody]
    · rw [filterMap_cons_some hline, stepsOf_cons, stepsOf_cons, ih]
      rfl

theorem steps_nameLabels (f : String → String) (line : Line) :
    (line.nameLabels f).steps = line.steps := by
  obtain ⟨sources, label, body⟩ := line
  unfold Line.nameLabels
  rcases nameTarget_cases f body with ⟨-, hkept⟩ | ⟨opcode, target, others, hopcode, rfl, hnamed⟩
  · rw [hkept]
    rfl
  · rw [hnamed]
    rcases hopcode with rfl | rfl <;> rfl

theorem stepsOf_renumberLabels (lines : List Line) :
    stepsOf (renumberLabels lines) = stepsOf lines := by
  rw [renumberLabels_eq, stepsOf_map (steps_nameLabels _)]

/-- A push of something else than a register. -/
theorem steps_of_literal {operand : Operand} (hbody : line.body = .instruction "Push" [operand])
    (hkind : operand.kind ≠ .symbol) : line.steps = [] := by
  have hpush := hasOpcode_of_body hbody
  rw [steps_of_push hpush, reads_of_push hpush]
  simp [Line.operands, hbody, Operand.registerDigits?, hkind]

theorem steps_of_pushedString? {text : String} (h : line.pushedString? = some text) :
    line.steps = [] := by
  obtain ⟨operand, hbody, hkind, -⟩ := exists_of_pushedString? h
  exact steps_of_literal hbody (by rw [hkind]; decide)

/-- No line of a pattern pushes a register, nor does the line in its place. -/
theorem stepsOf_of_rewrites {lines out : List Line} (h : Rewrites lines out) :
    stepsOf out = stepsOf lines := by
  induction h with
  | nil => rfl
  | keep line _ ih => rw [stepsOf_cons, stepsOf_cons, ih]
  | negation hnot _ _ ih =>
    rw [stepsOf_cons, steps_of_hasOpcode hnot (by decide) (by decide) (by decide), ih]
    rfl
  | @unitStep one step _ _ hstep _ ih =>
    obtain ⟨hone, -, -, opcode, hmem, hopcode⟩ := exists_of_isUnitStep hstep
    obtain ⟨opcode', hmem', hopcode'⟩ := hasOpcode_unitStep one step
    have hne {other : String} (h : other ∉ ["Add", "Add2", "Subtract"]) : opcode ≠ other :=
      ne_of_mem_of_not_mem hmem h
    have hne' {other : String} (h : other ∉ ["Increment", "Decrement"]) : opcode' ≠ other :=
      ne_of_mem_of_not_mem hmem' h
    simp only [stepsOf_cons, ih, steps_of_literal hone (by decide), nil_append,
      steps_of_hasOpcode hopcode (hne (by decide)) (hne (by decide)) (hne (by decide)),
      steps_of_hasOpcode hopcode' (hne' (by decide)) (hne' (by decide)) (hne' (by decide))]
  | join hjoined _ ih =>
    obtain ⟨left, right, hleft, hright, hadd, -, -, -, -, hbody⟩ := exists_of_joinedPush? hjoined
    simp only [stepsOf_cons, ih, steps_of_pushedString? hleft, steps_of_pushedString? hright,
      steps_of_hasOpcode hadd (by decide) (by decide) (by decide), steps_of_literal hbody nofun,
      nil_append]

theorem stepsOf_dropDoubleNots (lines : List Line) :
    stepsOf (dropDoubleNots lines) = stepsOf lines :=
  stepsOf_of_rewrites (rewrites_dropDoubleNots lines)

theorem stepsOf_foldUnitSteps (lines : List Line) : stepsOf (foldUnitSteps lines) = stepsOf lines :=
  stepsOf_of_rewrites (rewrites_foldUnitSteps lines)

theorem stepsOf_joinStrings (lines : List Line) : stepsOf (joinStrings lines) = stepsOf lines :=
  stepsOf_of_rewrites (rewrites_joinStrings lines)

theorem steps_withOperands_singleton (h : line.hasOpcode "Push") (operand : Operand) :
    (line.withOperands [operand]).steps =
      (operand.registerDigits?.map fun register =>
        Step.read ⟨line.sources, register, true⟩).toList := by
  have hpush := h
  rw [← hasOpcode_withOperands [operand]] at hpush
  rw [steps_of_push hpush, reads_of_push hpush, operands_withOperands h, sources_withOperands]
  cases hdigits : operand.registerDigits? <;> simp [hdigits]

theorem map_isolated_steps (h : line.hasOpcode "Push") :
    line.steps.map (Step.map Read.isolated) =
      line.operands.flatMap fun operand => (line.withOperands [operand]).steps := by
  simp only [steps_withOperands_singleton h]
  rw [steps_of_push h, reads_of_push h, map_map, map_filterMap,
    ← filterMap_eq_flatMap_toList]
  simp only [Option.map_map]
  rfl

/-- Splitting a push only sets its reads apart. -/
theorem stepsOf_splitPush (line : Line) :
    stepsOf (splitPush line) = line.steps.map (Step.map Read.isolated) := by
  unfold splitPush
  split
  next first second others hbody =>
    have hpush : line.hasOpcode "Push" := hasOpcode_of_body hbody
    have hoperands : line.operands = first :: second :: others := by simp [Line.operands, hbody]
    rw [map_isolated_steps hpush, hoperands, stepsOf_cons, flatMap_cons, stepsOf,
      flatMap_map]
    rfl
  next hother =>
    rw [stepsOf_cons, stepsOf, flatMap_nil, append_nil]
    cases hpush : line.hasOpcode "Push" with
    | false =>
      unfold Line.steps Line.reads
      rw [hpush]
      split
      · rfl
      · split <;> rfl
    | true =>
      obtain ⟨operands, hbody⟩ := exists_body_of_hasOpcode hpush
      have hoperands : line.operands = operands := by simp [Line.operands, hbody]
      rw [map_isolated_steps hpush, hoperands]
      rcases operands with _ | ⟨operand, _ | ⟨second, others⟩⟩
      · rw [steps_of_push hpush, reads_of_push hpush, hoperands]
        rfl
      · have hsame : line.withOperands [operand] = line := by
          obtain ⟨sources, label, body⟩ := line
          simp only at hbody
          rw [hbody]
          rfl
        rw [flatMap_singleton, hsame]
      · exact absurd hbody (hother operand second others)

/-- Splitting isolates each read. -/
theorem stepsOf_splitPushes (lines : List Line) :
    stepsOf (splitPushes lines) = (stepsOf lines).map (Step.map Read.isolated) := by
  induction lines with
  | nil => rfl
  | cons line rest ih =>
    rw [splitPushes, flatMap_cons, stepsOf_append, stepsOf_splitPush, stepsOf_cons,
      map_append, ← ih]
    rfl

end Passes

end MovieDiff.Pcode
