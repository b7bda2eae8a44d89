import MovieDiff.Pcode.Function
import MovieDiff.Text.Lowercase

/-!
Splitting a file into blocks. Every outermost function is a block, together with the lines
that bind its name and a `SetMember` right after it; what lies between is a block of its own.
-/
namespace MovieDiff.Pcode

def isFileNameChar (c : Char) : Bool :=
  c.isAlphanum || c == '.' || c == '_' || c == '-'

/-- Replaces every run of other characters by one underscore. -/
def squeezeFileName (inRun : Bool) : List Char → List Char
  | [] => []
  | c :: rest =>
    if isFileNameChar c then c :: squeezeFileName false rest
    else if inRun then squeezeFileName true rest
    else '_' :: squeezeFileName true rest

/-- A name fit for a file, or nothing when only underscores are left of it. -/
def safeFileName? (name : String) : Option String :=
  let cs := squeezeFileName false name.toList
  if !cs.isEmpty && cs.all (· == '_') then none else some (String.ofList cs)

def toplevelName : String := "__toplevel"
def anonymousName : String := "__anonymous"

def gapBlock (lines : List Line) : List Block :=
  if lines.isEmpty then [] else [⟨toplevelName, lines⟩]

def blockName (functionName : String) : String :=
  match safeFileName? functionName with
  | some name => if name.isEmpty then anonymousName else name
  | none => anonymousName

/-- The name that the first operand of a definition declares; it may be empty. -/
def declaredName (definition : Line) : Except Fault String :=
  match definition.operands with
  | [] => .error .missingOperand
  | operand :: _ =>
    if operand.kind == .string then .ok operand.value.spelling else .error .unnamedDefinition

/-- How many of the lines since the last block stay in the gap before a function, and the
function's name. The lines come last first. -/
def bindFunction (declared : String) (pending : List Line) : Nat × String :=
  if !declared.isEmpty then (pending.length, declared)
  else (nameBefore nameWindow pending).getD (pending.length, anonymousName)

/-- Moves a `SetMember` from the front of the second list to the end of the first. -/
def takeSetMember : List Line × List Line → List Line × List Line
  | (body, line :: rest) =>
    if line.hasOpcode "SetMember" then (body ++ [line], rest) else (body, line :: rest)
  | (body, []) => (body, [])

/-- The function at the front, with a trailing `SetMember`, and the lines after it. -/
def cutFunctionBlock (lines : List Line) : List Line × List Line :=
  takeSetMember (cutFunction lines)

theorem cutFunction_append (lines : List Line) :
    (cutFunction lines).1 ++ (cutFunction lines).2 = lines := by
  unfold cutFunction
  split <;> simp

theorem takeSetMember_append (parts : List Line × List Line) :
    (takeSetMember parts).1 ++ (takeSetMember parts).2 = parts.1 ++ parts.2 := by
  obtain ⟨body, rest⟩ := parts
  cases rest with
  | nil => rfl
  | cons line rest => simp only [takeSetMember]; split <;> simp

theorem length_takeSetMember_snd (parts : List Line × List Line) :
    (takeSetMember parts).2.length ≤ parts.2.length := by
  obtain ⟨body, rest⟩ := parts
  cases rest with
  | nil => simp [takeSetMember]
  | cons line rest => simp only [takeSetMember]; split <;> simp

/-- Every block takes up a line. -/
theorem length_cutFunctionBlock_snd (line : Line) (rest : List Line) :
    (cutFunctionBlock (line :: rest)).2.length < (line :: rest).length := by
  refine Nat.lt_of_le_of_lt (length_takeSetMember_snd _) ?_
  unfold cutFunction
  split
  · simp only [List.splitAt_eq, List.length_drop, List.length_cons]
    omega
  · simp

/-- Splits the lines that remain; `pending` holds, last first, those since the last block. -/
def splitFrom (pending : List Line) (lines : List Line) : Except Fault (List Block) :=
  match lines with
  | [] => .ok (gapBlock pending.reverse)
  | line :: rest =>
    if line.isDefinition then do
      let (gap, name) := bindFunction (← declaredName line) pending
      let before := pending.reverse
      let parts := cutFunctionBlock (line :: rest)
      let later ← splitFrom [] parts.2
      return gapBlock (before.take gap) ++ ⟨blockName name, before.drop gap ++ parts.1⟩ :: later
    else splitFrom (line :: pending) rest
termination_by lines.length
decreasing_by
  · exact length_cutFunctionBlock_snd line rest
  · simp

/-- Numbers the blocks whose name, in lower case, occurred before: the second `f` is `f_2`.
`seen` holds the lower-case names of the blocks before. -/
def numberBlocks (seen : List String) : List Block → List Block
  | [] => []
  | block :: blocks =>
    let key := Text.lowercase block.name
    let count := seen.count key
    let name := if count = 0 then block.name else block.name ++ "_" ++ toString (count + 1)
    { block with name := name } :: numberBlocks (key :: seen) blocks

def splitBlocks (lines : List Line) : Except Fault (List Block) := do
  return numberBlocks [] (← splitFrom [] lines)

end MovieDiff.Pcode
