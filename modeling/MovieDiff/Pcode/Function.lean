import MovieDiff.Fault
import MovieDiff.Pcode.Line
import MovieDiff.Pcode.Register

/-!
Functions in p-code: where the body of a definition ends, and which lines before a nameless
definition bind its name.
-/
namespace MovieDiff.Pcode

/-- How many lines to go from here until as many braces close as definitions opened, at least
one having opened; `depth` and `opened` tell what came before. -/
def closingOffset (depth : Int) (opened : Bool) : List Line → Option Nat
  | [] => none
  | line :: rest =>
    if line.isDefinition then (closingOffset (depth + 1) true rest).map (· + 1)
    else
      let depth := if line.isClosing then depth - 1 else depth
      if opened && depth ≤ 0 then some 0
      else (closingOffset depth opened rest).map (· + 1)

/-- The lines from a definition through the end of its body, and the lines after them. A body
that never closes reaches to the end. -/
def cutFunction (lines : List Line) : List Line × List Line :=
  match closingOffset 0 false lines with
  | some offset => lines.splitAt (offset + 1)
  | none => (lines, [])

/-- The index of the line that closes the function at `index`, or of the last line. A negative
index counts from the end and the search goes on at the first line. -/
def functionEnd (lines : List Line) (index : Int) : Except Fault Int :=
  let fallback : Int := lines.length - 1
  if index < 0 then
    let back := (-index).toNat
    if lines.length < back then .error .lineOutOfRange
    else match closingOffset 0 false (lines.drop (lines.length - back) ++ lines) with
      | some offset => .ok (index + offset)
      | none => .ok fallback
  else match closingOffset 0 false (lines.drop index.toNat) with
    | some offset => .ok (index + offset)
    | none => .ok fallback

def Operand.isRegister (o : Operand) : Bool :=
  o.kind == .symbol && Pcode.isRegister o.value.spelling

/-- The operand of a `Push` line that has exactly one. -/
def Line.pushed? (line : Line) : Option Operand :=
  match line.body with
  | .instruction "Push" [operand] => some operand
  | _ => none

def Line.isPushRegister (line : Line) : Bool :=
  line.pushed?.any Operand.isRegister

def Line.isPushString (line : Line) : Bool :=
  line.pushed?.any (·.kind == .string)

/-- The name in a line that pushes a register and a name. -/
def Line.memberName? (line : Line) : Option String :=
  match line.body with
  | .instruction "Push" [object, name] =>
    if object.isRegister && name.kind == .string then some name.value.spelling else none
  | _ => none

/-- Looks for the nearest lines that bind a name, through at most `window` lines. The lines
come last first; the answer counts the lines before the binding. -/
def nameBefore : Nat → List Line → Option (Nat × String)
  | 0, _ => none
  | _, [] => none
  | window + 1, line :: earlier =>
    match line.memberName? with
    | some name => some (earlier.length, name)
    | none =>
      match line.pushed?, earlier with
      | some operand, previous :: older =>
        if operand.kind == .string && previous.isPushRegister then
          some (older.length, operand.value.spelling)
        else nameBefore window earlier
      | _, _ => nameBefore window earlier

def nameWindow : Nat := 64

/-- The start and the name of the binding before the line at `index`. -/
def functionName? (lines : List Line) (index : Int) (window : Int) :
    Except Fault (Option (Nat × String)) :=
  if index ≤ 0 || window ≤ 0 then .ok none
  else if lines.length < index then .error .lineOutOfRange
  else .ok (nameBefore window.toNat (lines.take index.toNat).reverse)

end MovieDiff.Pcode
