import MovieDiff.Pcode.Function

/-!
Canonical register numbers. In each function the registers that are stored are numbered first,
in the order of their first store, then the others in the order of their first use. A nested
function numbers its own registers.
-/
namespace MovieDiff.Pcode

/-- The registers of a function in the order of their numbers, which start at one. -/
abbrev RegisterScope := List String

namespace RegisterScope

def add (scope : RegisterScope) (register : String) : RegisterScope :=
  if scope.contains register then scope else scope ++ [register]

def number (scope : RegisterScope) (register : String) : Nat :=
  scope.idxOf register + 1

end RegisterScope

/-- The register that a `StoreRegister` line stores; it must name one. -/
def storedRegister (line : Line) : Except Fault String :=
  match line.operands with
  | [] => .error .missingOperand
  | operand :: _ => .ok operand.value.spelling

/-- The digits of the register that an operand uses. -/
def Operand.registerDigits? (o : Operand) : Option String :=
  if o.kind == .symbol then
    (Pcode.registerDigits? o.value.spelling.toList).map String.ofList
  else none

def renumberOperand (scope : RegisterScope) (o : Operand) : RegisterScope × Operand :=
  match o.registerDigits? with
  | some register =>
    let scope := scope.add register
    (scope, .ofSymbol ("register" ++ toString (scope.number register)))
  | none => (scope, o)

def renumberOperands (scope : RegisterScope) : List Operand → RegisterScope × List Operand
  | [] => (scope, [])
  | o :: rest =>
    let first := renumberOperand scope o
    let others := renumberOperands first.1 rest
    (others.1, first.2 :: others.2)

def renumberLine (scope : RegisterScope) (line : Line) : Except Fault (RegisterScope × Line) :=
  if line.hasOpcode "StoreRegister" then do
    let register ← storedRegister line
    let scope := scope.add register
    let number := Operand.ofNumeral (toString (scope.number register))
    return (scope, line.withOperands (number :: line.operands.drop 1))
  else
    let result := renumberOperands scope line.operands
    return (result.1, line.withOperands result.2)

/-- The header of the function at the front, its body, and the lines after it. -/
def cutBody (header : Line) (rest : List Line) : List Line × List Line :=
  let parts := cutFunction (header :: rest)
  (parts.1.drop 1, parts.2)

theorem length_cutFunction (lines : List Line) :
    (cutFunction lines).1.length + (cutFunction lines).2.length = lines.length := by
  unfold cutFunction
  split
  · simp [List.length_take]; omega
  · simp

theorem length_cutBody (header : Line) (rest : List Line) :
    (cutBody header rest).1.length + (cutBody header rest).2.length ≤ rest.length := by
  have total := length_cutFunction (header :: rest)
  have nonempty : 0 < (cutFunction (header :: rest)).1.length := by
    unfold cutFunction
    split <;> simp
  simp only [List.length_cons] at total
  simp only [cutBody, List.length_drop]
  omega

/-- The registers that a function stores itself, in the order of their first store. -/
def storesOf (scope : RegisterScope) (body : List Line) : Except Fault RegisterScope :=
  match body with
  | [] => .ok scope
  | line :: rest =>
    if line.isDefinition then storesOf scope (cutBody line rest).2
    else if line.hasOpcode "StoreRegister" then do
      let register ← storedRegister line
      storesOf (scope.add register) rest
    else storesOf scope rest
termination_by body.length
decreasing_by
  · have := length_cutBody line rest
    simp only [List.length_cons]; omega
  · simp
  · simp

mutual

def renumberBody (body : List Line) : Except Fault (List Line) := do
  renumberIn (← storesOf [] body) body
termination_by 2 * body.length + 1
decreasing_by omega

/-- Renumbers lines of a function whose registers so far are given. -/
def renumberIn (scope : RegisterScope) (lines : List Line) : Except Fault (List Line) :=
  match lines with
  | [] => .ok []
  | line :: rest =>
    if line.isDefinition then do
      let parts := cutBody line rest
      let inner ← renumberBody parts.1
      let outer ← renumberIn scope parts.2
      return line :: inner ++ outer
    else do
      let result ← renumberLine scope line
      let others ← renumberIn result.1 rest
      return result.2 :: others
termination_by 2 * lines.length
decreasing_by
  · have := length_cutBody line rest
    simp only [List.length_cons]; omega
  · have := length_cutBody line rest
    simp only [List.length_cons]; omega
  · simp

end

/-- Renumbers the registers of the first function; the lines around it stay as they are. -/
def renumberRegisters (lines : List Line) : Except Fault (List Line) :=
  match lines.dropWhile (!·.isDefinition) with
  | [] => .ok lines
  | header :: rest => do
    let parts := cutBody header rest
    let body ← renumberBody parts.1
    return lines.takeWhile (!·.isDefinition) ++ header :: body ++ parts.2

end MovieDiff.Pcode
