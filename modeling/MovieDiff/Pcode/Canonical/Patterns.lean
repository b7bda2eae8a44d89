import MovieDiff.Pcode.Function

/-!
Canonical forms of short sequences of lines: double negation before a branch, adding or
subtracting one, and concatenation of two literal strings.
-/
namespace MovieDiff.Pcode

/-- The source lines of several lines, without repetition and in increasing order. -/
def mergeSources (sources : List (List Int)) : List Int :=
  (sources.flatten.mergeSort (· ≤ ·)).eraseReps

def Line.isUnlabelled (line : Line) : Bool :=
  line.label.isNone

/-- An instruction with the given opcode and no operands. -/
def Line.isBare (line : Line) (opcode : String) : Bool :=
  line.body == .instruction opcode []

def isDoubleNot (current first second branch : Line) : Bool :=
  !current.hasOpcode "Not" && first.hasOpcode "Not" && first.isUnlabelled &&
    second.hasOpcode "Not" && second.isUnlabelled && branch.hasOpcode "If"

/-- Drops two unlabelled `Not` between a line that is no `Not` and an `If`. -/
def dropDoubleNots : List Line → List Line
  | current :: first :: second :: branch :: rest =>
    if isDoubleNot current first second branch then current :: branch :: dropDoubleNots rest
    else current :: dropDoubleNots (first :: second :: branch :: rest)
  | line :: rest => line :: dropDoubleNots rest
  | [] => []

def Line.isPushOne (line : Line) : Bool :=
  line.pushed? == some (.ofNumeral "1")

def Line.isAdd (line : Line) : Bool :=
  line.hasOpcode "Add" || line.hasOpcode "Add2"

def Line.isStep (line : Line) : Bool :=
  line.isAdd || line.hasOpcode "Subtract"

/-- An unlabelled push of one and an unlabelled addition or subtraction. -/
def isUnitStep (one step : Line) : Bool :=
  one.isPushOne && step.isStep && one.isUnlabelled && step.isUnlabelled

/-- The digits of the register that a line pushes. -/
def Line.pushedRegister? (line : Line) : Option String :=
  match line.pushed? with
  | some operand =>
    if operand.isRegister then
      (registerDigits? operand.value.spelling.toList).map String.ofList
    else none
  | none => none

/-- The register that a `StoreRegister` line with one numeral stores. -/
def Line.storedNumeral? (line : Line) : Option String :=
  match line.body with
  | .instruction "StoreRegister" [operand] =>
    if operand.kind == .numeric then some operand.value.spelling else none
  | _ => none

/-- A register is pushed, stepped, and stored back or returned. -/
def isRegisterStep (push one step last : Line) : Bool :=
  match push.pushedRegister? with
  | some register =>
    isUnitStep one step && (last.isBare "Return" || last.storedNumeral? == some register)
  | none => false

/-- A member or variable whose name was just pushed is read, stepped, and written back or
returned. -/
def isNamedStep (previous : Option Line) (get one step last : Line) : Bool :=
  previous.any Line.isPushString && isUnitStep one step &&
    ((get.isBare "GetMember" && (last.isBare "SetMember" || last.isBare "Return")) ||
      (get.isBare "GetVariable" && (last.isBare "SetVariable" || last.isBare "Return")))

def unitStep (one step : Line) : Line :=
  ⟨mergeSources [one.sources, step.sources], none,
    .instruction (if step.isAdd then "Increment" else "Decrement") []⟩

/-- Writes steps by one as a single instruction; `previous` is the last line written. -/
def foldUnitStepsFrom (previous : Option Line) : List Line → List Line
  | first :: one :: step :: last :: rest =>
    if isRegisterStep first one step last || isNamedStep previous first one step last then
      first :: unitStep one step :: last :: foldUnitStepsFrom (some last) rest
    else first :: foldUnitStepsFrom (some first) (one :: step :: last :: rest)
  | line :: rest => line :: foldUnitStepsFrom (some line) rest
  | [] => []

def foldUnitSteps (lines : List Line) : List Line :=
  foldUnitStepsFrom none lines

/-- The text of a pushed literal string. -/
def Line.pushedString? (line : Line) : Option String :=
  match line.pushed? with
  | some operand => if operand.kind == .string then some operand.value.spelling else none
  | none => none

/-- The single push that stands for two pushed strings and their concatenation. -/
def joinedPush? (first second add : Line) : Option Line :=
  match first.pushedString?, second.pushedString? with
  | some left, some right =>
    if add.isBare "StringAdd" && second.isUnlabelled && add.isUnlabelled then
      some ⟨mergeSources [first.sources, second.sources, add.sources], first.label,
        .instruction "Push" [.ofString (left ++ right)]⟩
    else none
  | _, _ => none

def joinStrings : List Line → List Line
  | first :: second :: add :: rest =>
    match joinedPush? first second add with
    | some joined => joined :: joinStrings rest
    | none => first :: joinStrings (second :: add :: rest)
  | line :: rest => line :: joinStrings rest
  | [] => []

end MovieDiff.Pcode
