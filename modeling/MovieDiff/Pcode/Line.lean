import MovieDiff.Text.Lines

/-!
P-code lines. A line carries the numbers of the source lines it stands for, an optional label
and a body: an instruction with operands, a structural mark such as a closing brace, or
nothing but the label. A block is a named sequence of lines.
-/
namespace MovieDiff.Pcode

inductive OperandKind where
  | string | numeric | boolean | symbol
  deriving DecidableEq, Repr

def OperandKind.named : List (String × OperandKind) :=
  [("string", .string), ("numeric", .numeric), ("boolean", .boolean), ("symbol", .symbol)]

inductive OperandValue where
  | text (s : String)
  | flag (b : Bool)
  deriving DecidableEq, Repr

/-- The spelling of a value where a label or a register is expected. -/
def OperandValue.spelling : OperandValue → String
  | .text s => s
  | .flag true => "True"
  | .flag false => "False"

structure Operand where
  kind : OperandKind
  value : OperandValue
  deriving DecidableEq, Repr

namespace Operand

def ofString (s : String) : Operand := ⟨.string, .text s⟩

def ofNumeral (s : String) : Operand := ⟨.numeric, .text s⟩

def ofSymbol (s : String) : Operand := ⟨.symbol, .text s⟩

def ofFlag (b : Bool) : Operand := ⟨.boolean, .flag b⟩

/-- Strings hold text and booleans hold a flag; numerals and symbols hold either. -/
def isWellTyped (o : Operand) : Bool :=
  match o.kind, o.value with
  | .string, .flag _ => false
  | .boolean, .text _ => false
  | _, _ => true

def render (o : Operand) : String :=
  match o.kind, o.value with
  | .string, v => "\"" ++ v.spelling ++ "\""
  | .boolean, .flag b => if b then "true" else "false"
  | _, v => v.spelling

end Operand

inductive Body where
  | instruction (opcode : String) (operands : List Operand)
  | structural (mark : String)
  | labelOnly
  deriving DecidableEq, Repr

structure Line where
  sources : List Int
  label : Option String
  body : Body
  deriving DecidableEq, Repr

namespace Line

def opcode? (line : Line) : Option String :=
  match line.body with
  | .instruction opcode _ => some opcode
  | _ => none

/-- The operands of an instruction; other lines have none. -/
def operands (line : Line) : List Operand :=
  match line.body with
  | .instruction _ operands => operands
  | _ => []

def hasOpcode (line : Line) (opcode : String) : Bool :=
  line.opcode? == some opcode

def isDefinition (line : Line) : Bool :=
  line.hasOpcode "DefineFunction" || line.hasOpcode "DefineFunction2"

def isJump (line : Line) : Bool :=
  line.hasOpcode "If" || line.hasOpcode "Jump"

def isClosing (line : Line) : Bool :=
  line.body == .structural "\x7d"

def isWellTyped (line : Line) : Bool :=
  line.operands.all Operand.isWellTyped

/-- Replaces the operands of an instruction and leaves any other line as it is. -/
def withOperands (line : Line) (operands : List Operand) : Line :=
  match line.body with
  | .instruction opcode _ => { line with body := .instruction opcode operands }
  | _ => line

/-- The label with its colon; an empty label is not written. -/
def labelText (line : Line) : String :=
  match line.label with
  | some label => if label.isEmpty then "" else label ++ ":"
  | none => ""

def render (line : Line) : String :=
  match line.body with
  | .instruction opcode operands =>
    line.labelText ++ opcode ++
      (if operands.isEmpty then "" else " " ++ ", ".intercalate (operands.map Operand.render)) ++
      (if line.isDefinition then " \x7b" else "")
  | .structural mark => line.labelText ++ mark
  | .labelOnly => line.labelText

end Line

structure Block where
  name : String
  lines : List Line
  deriving DecidableEq, Repr

def renderLines (lines : List Line) : List String :=
  lines.map Line.render

def Block.render (block : Block) : String :=
  Text.joinLines (renderLines block.lines)

end MovieDiff.Pcode
