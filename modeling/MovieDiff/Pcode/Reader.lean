import MovieDiff.Fault
import MovieDiff.Pcode.Label
import MovieDiff.Pcode.Line
import MovieDiff.Pcode.Token
import MovieDiff.Text.Lowercase

/-!
Reading p-code text. Blank lines are skipped, a line of a label alone or of a closing brace is
no instruction, and any other line is an opcode with operands. Commas and opening braces
between operands carry no meaning.
-/
namespace MovieDiff.Pcode

open Text (isBlankText isDigit strip)

/-- An optional minus sign, digits, and optionally a point with more digits. -/
def isNumeral (cs : List Char) : Bool :=
  let unsigned := match cs with
    | '-' :: rest => rest
    | _ => cs
  let whole := unsigned.takeWhile isDigit
  match unsigned.dropWhile isDigit with
  | [] => !whole.isEmpty
  | '.' :: fraction => !whole.isEmpty && !fraction.isEmpty && fraction.all isDigit
  | _ => false

def readOperand (token : List Char) : Except Fault Operand :=
  match token with
  | '"' :: tail =>
    match tail.reverse with
    | '"' :: inner => .ok (.ofString (String.ofList inner.reverse))
    | _ => .error .unclosedString
  | _ =>
    let text := String.ofList token
    if isNumeral token then .ok (.ofNumeral text)
    else if Text.lowercase text = "true" then .ok (.ofFlag true)
    else if Text.lowercase text = "false" then .ok (.ofFlag false)
    else .ok (.ofSymbol text)

def isOperandToken (token : Token) : Bool :=
  token.text != [','] && token.text != ['\x7b']

/-- Reads one line; a blank one yields nothing. -/
def readLine (index : Int) (line : String) : Except Fault (Option Line) := do
  if isBlankText line.toList then return none
  let (rest, label) := splitLabel line
  let content := strip rest.toList
  if label.isSome && content.isEmpty then
    return some ⟨[index], label, .labelOnly⟩
  if content == ['\x7d'] then
    return some ⟨[index], label, .structural "\x7d"⟩
  match tokenize rest.toList with
  | [] => throw .missingOperand
  | opcode :: tokens =>
    let operands ← (tokens.filter isOperandToken).mapM fun token => readOperand token.text
    return some ⟨[index], label, .instruction (String.ofList opcode.text) operands⟩

def readLinesFrom (index : Int) : List String → Except Fault (List Line)
  | [] => return []
  | line :: lines => do
    let first ← readLine index line
    let others ← readLinesFrom (index + 1) lines
    return first.toList ++ others

def readLines (lines : List String) : Except Fault (List Line) :=
  readLinesFrom 0 lines

def readText (text : String) : Except Fault (List Line) :=
  readLines (Text.splitLines (String.ofList (Text.unifyNewlines text.toList)))

/-- A line of a label alone, which must not be blank. -/
def labelOnlyLine (sources : List Int) (label : Option String) : Except Fault Line :=
  match label with
  | some text =>
    if isBlankText text.toList then .error .blankLabel else .ok ⟨sources, label, .labelOnly⟩
  | none => .error .blankLabel

/-- The text of a sequence of lines, refused when an operand is not what its kind says. -/
def renderText (lines : List Line) : Except Fault String :=
  if lines.all Line.isWellTyped then .ok (Text.joinLines (renderLines lines))
  else .error .mistypedOperand

end MovieDiff.Pcode
