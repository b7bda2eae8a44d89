import MovieDiff.Pcode.Line
import MovieDiff.Text.Lowercase

/-!
Canonical labels. Labels that no jump of the block names are dropped; the others are numbered
in the order of their first appearance. Letter case does not tell labels apart.
-/
namespace MovieDiff.Pcode

/-- The label that a jump names, in lower case. -/
def Line.jumpKey? (line : Line) : Option String :=
  if line.isJump then
    match line.operands with
    | target :: _ => some (Text.lowercase target.value.spelling)
    | [] => none
  else none

def labelReferences (lines : List Line) : List String :=
  lines.filterMap Line.jumpKey?

/-- Drops a label that is not among the references, and with it a line of nothing else. -/
def dropLabelUnless (references : List String) (line : Line) : Option Line :=
  match line.label with
  | none => some line
  | some label =>
    if references.contains (Text.lowercase label) then some line
    else if line.body == .labelOnly then none
    else some { line with label := none }

def dropUnusedLabels (lines : List Line) : List Line :=
  lines.filterMap (dropLabelUnless (labelReferences lines))

/-- The labels seen so far, in lower case and in the order of their numbers. -/
abbrev LabelScope := List String

namespace LabelScope

def add (scope : LabelScope) (label : String) : LabelScope :=
  let key := Text.lowercase label
  if scope.contains key then scope else scope ++ [key]

def name (scope : LabelScope) (label : String) : String :=
  "L" ++ toString (scope.idxOf (Text.lowercase label))

end LabelScope

def renumberLabelOf (scope : LabelScope) (line : Line) : LabelScope × Line :=
  match line.label with
  | some label =>
    let scope := scope.add label
    (scope, { line with label := some (scope.name label) })
  | none => (scope, line)

def renumberTargetOf (scope : LabelScope) (line : Line) : LabelScope × Line :=
  if line.isJump then
    match line.operands with
    | target :: others =>
      let label := target.value.spelling
      let scope := scope.add label
      (scope, line.withOperands (.ofSymbol (scope.name label) :: others))
    | [] => (scope, line)
  else (scope, line)

def renumberLabelsFrom (scope : LabelScope) : List Line → List Line
  | [] => []
  | line :: rest =>
    let labelled := renumberLabelOf scope line
    let targeted := renumberTargetOf labelled.1 labelled.2
    targeted.2 :: renumberLabelsFrom targeted.1 rest

def renumberLabels (lines : List Line) : List Line :=
  renumberLabelsFrom [] lines

end MovieDiff.Pcode
