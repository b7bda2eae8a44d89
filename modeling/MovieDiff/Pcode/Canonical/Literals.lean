import MovieDiff.Pcode.Function
import MovieDiff.Text.Characters

/-!
Canonical spellings that concern one line at a time: pushes of one operand, plain numerals,
function headers without bookkeeping, an empty constant pool, and `GetURL2` methods.
-/
namespace MovieDiff.Pcode

/-- Splits a push of several operands; the label stays on the first line. -/
def splitPush (line : Line) : List Line :=
  match line.body with
  | .instruction "Push" (first :: second :: others) =>
    line.withOperands [first] ::
      (second :: others).map fun operand => { line.withOperands [operand] with label := none }
  | _ => [line]

def splitPushes (lines : List Line) : List Line :=
  lines.flatMap splitPush

/-- Whether a text is a whole numeral followed by a point and a zero. -/
def isWholeDecimal (cs : List Char) : Bool :=
  let unsigned := match cs with
    | '-' :: rest => rest
    | _ => cs
  !(unsigned.takeWhile Text.isDigit).isEmpty && unsigned.dropWhile Text.isDigit == ['.', '0']

/-- Drops a zero fraction, then the sign of a zero. -/
def plainNumeral (text : String) : String :=
  let cs := text.toList
  let whole := if isWholeDecimal cs then String.ofList (cs.take (cs.length - 2)) else text
  if whole = "-0" then "0" else whole

def Operand.plain (o : Operand) : Operand :=
  if o.kind == .numeric then .ofNumeral (plainNumeral o.value.spelling) else o

def plainLiterals (lines : List Line) : List Line :=
  lines.map fun line => line.withOperands (line.operands.map Operand.plain)

/-- Keeps the name and the parameter count of a header, and of the rest the strings. -/
def plainHeader (line : Line) : Line :=
  if line.isDefinition then
    { line with
      body := .instruction "DefineFunction"
        (line.operands.take 2 ++ (line.operands.drop 2).filter (·.kind == .string)) }
  else line

def plainHeaders (lines : List Line) : List Line :=
  lines.map plainHeader

def emptyConstantPool (line : Line) : Line :=
  if line.hasOpcode "ConstantPool" then line.withOperands [.ofString ""] else line

def emptyConstantPools (lines : List Line) : List Line :=
  lines.map emptyConstantPool

/-- Sets the method of `GetURL2` with two flags and a numeral to zero. -/
def zeroUrlMethod (line : Line) : Line :=
  match line.body with
  | .instruction "GetURL2" [first, second, method] =>
    if first.kind == .boolean && second.kind == .boolean && method.kind == .numeric then
      line.withOperands [first, second, .ofNumeral "0"]
    else line
  | _ => line

def zeroUrlMethods (lines : List Line) : List Line :=
  lines.map zeroUrlMethod

end MovieDiff.Pcode
