import MovieDiff.Text.Literal.Token

/-!
Literals: numbers, texts, the words for truth and nothing, and collections of them between
parentheses or braces. `isLiteral` tells whether a text writes one.
-/
namespace MovieDiff.Text.Literal

/-- What a literal is: a number, with or without a sign, or something else, which may stand in
a set or not. -/
inductive Value where
  | number (imaginary signed : Bool)
  | other (hashable : Bool)
  deriving DecidableEq, Repr

def Value.isHashable : Value → Bool
  | number .. => true
  | other hashable => hashable

/-- An expression as far as it has been read. -/
inductive Reading where
  | nothing
  | sign
  | value (v : Value)
  | texts (bytes : Bool)
  | setWord
  | sum
  deriving DecidableEq, Repr

namespace Reading

def whole? : Reading → Option Value
  | value v => some v
  | texts _ => some (.other true)
  | _ => none

/-- A sign takes a bare number, and a sum ends in a bare imaginary one. -/
def addValue (v : Value) : Reading → Option Reading
  | nothing => some (value v)
  | sign =>
    match v with
    | .number imaginary false => some (value (.number imaginary true))
    | _ => none
  | sum => if v = .number true false then some (value (.other true)) else none
  | _ => none

/-- Texts that follow each other are one text. -/
def addText (bytes : Bool) : Reading → Option Reading
  | nothing => some (texts bytes)
  | texts before => if before = bytes then some (texts bytes) else none
  | _ => none

/-- A sum starts with a number that is not imaginary. -/
def addSign : Reading → Option Reading
  | nothing => some sign
  | value (.number false _) => some sum
  | _ => none

/-- Whether a bracket may open here. -/
def takesValue : Reading → Bool
  | nothing | sign | sum => true
  | _ => false

end Reading

inductive Bracket where
  | outside
  | parentheses
  | setCall
  | braces
  deriving DecidableEq, Repr

/-- What the part of braces that is being read is. -/
inductive BraceItem where
  | first
  | element
  | key
  | keyed
  deriving DecidableEq, Repr

/-- A bracket that is open: what was read before it, how many items are complete, and whether
all of them may stand in a set. -/
structure Frame where
  bracket : Bracket
  before : Reading
  items : Nat := 0
  hashable : Bool := true
  item : BraceItem := .first
  deriving DecidableEq, Repr

structure State where
  reading : Reading
  frame : Frame
  outer : List Frame
  deriving DecidableEq, Repr

namespace State

def start : State := ⟨.nothing, ⟨.outside, .nothing, 0, true, .first⟩, []⟩

def opened (s : State) (bracket : Bracket) : State :=
  ⟨.nothing, { bracket := bracket, before := s.reading }, s.frame :: s.outer⟩

def addItem (s : State) (v : Value) : State :=
  { s with
    reading := .nothing
    frame := { s.frame with
      items := s.frame.items + 1, hashable := s.frame.hashable && v.isHashable } }

/-- Ends a key, an element or a value between braces; keys and elements are hashable. -/
def addBraceItem (s : State) (v : Value) (next : BraceItem) (free : Bool) : Option State :=
  if free || v.isHashable then
    some ⟨.nothing, { s.frame with items := s.frame.items + 1, item := next }, s.outer⟩
  else none

def comma (s : State) : Option State := do
  let v ← s.reading.whole?
  match s.frame.bracket, s.frame.item with
  | .setCall, _ => none
  | .braces, .first | .braces, .element => s.addBraceItem v .element false
  | .braces, .keyed => s.addBraceItem v .key true
  | .braces, .key => none
  | _, _ => some (s.addItem v)

def colon (s : State) : Option State := do
  let v ← s.reading.whole?
  match s.frame.bracket, s.frame.item with
  | .braces, .first | .braces, .key => s.addBraceItem v .keyed false
  | _, _ => none

/-- The value of a bracket that closes with nothing after its last comma. -/
def closedValue? (s : State) : Option Value :=
  match s.frame.bracket, s.frame.item with
  | .outside, _ => if s.frame.items = 0 then none else some (.other s.frame.hashable)
  | .parentheses, _ => some (.other s.frame.hashable)
  | .braces, .keyed => none
  | _, _ => some (.other false)

/-- The value of a bracket that closes here. -/
def value? (s : State) : Option Value :=
  if s.reading = .nothing then s.closedValue?
  else do
    let v ← s.reading.whole?
    match s.frame.bracket with
    | .outside | .parentheses => if s.frame.items = 0 then some v else (s.addItem v).closedValue?
    | .setCall => none
    | .braces => if s.frame.item = .keyed then some (.other false) else (← s.comma).closedValue?

/-- Whether the word for sets stands alone between parentheses, which it may. -/
def isWrappedSet (s : State) : Bool :=
  s.frame.bracket = .parentheses && s.frame.items = 0 && s.reading = .setWord &&
    s.frame.before = .nothing

def close (s : State) (brackets : List Bracket) : Option State := do
  if !brackets.contains s.frame.bracket then none
  let frame :: outer := s.outer | none
  if s.isWrappedSet then return ⟨.setWord, frame, outer⟩
  let before := if s.frame.bracket = .setCall then .nothing else s.frame.before
  return ⟨← before.addValue (← s.value?), frame, outer⟩

def readWord (s : State) (name : String) : Option State :=
  if name = "True" || name = "False" || name = "None" then do
    return { s with reading := ← s.reading.addValue (.other true) }
  else if name = "set" && s.reading = .nothing then some { s with reading := .setWord }
  else none

def readMark (s : State) : Char → Option State
  | '(' =>
    if s.reading = .setWord then some (s.opened .setCall)
    else if s.reading.takesValue then some (s.opened .parentheses)
    else none
  | '\x7b' => if s.reading.takesValue then some (s.opened .braces) else none
  | ')' => s.close [.parentheses, .setCall]
  | '\x7d' => s.close [.braces]
  | ',' => s.comma
  | ':' => s.colon
  | _ => do return { s with reading := ← s.reading.addSign }

def read (s : State) : Token → Option State
  | .number imaginary => do return { s with reading := ← s.reading.addValue (.number imaginary false) }
  | .text bytes => do return { s with reading := ← s.reading.addText bytes }
  | .dots => do return { s with reading := ← s.reading.addValue (.other true) }
  | .word name => s.readWord name
  | .mark c => s.readMark c
  | .lineEnd => some s

end State

/-- Ends of lines count outside of all brackets only, where nothing but others may follow. -/
def dropLineEnds (depth : Nat) : List Token → Option (List Token)
  | [] => some []
  | .lineEnd :: rest =>
    if depth = 0 then if rest.all (· == .lineEnd) then some [] else none
    else dropLineEnds depth rest
  | token :: rest =>
    let depth := match token with
      | .mark '(' | .mark '\x7b' => depth + 1
      | .mark ')' | .mark '\x7d' => depth - 1
      | _ => depth
    (dropLineEnds depth rest).map (token :: ·)

def isLiteral (cs : List Char) : Bool :=
  let result := do
    let found ← tokens? (unifyNewlines cs)
    let kept ← dropLineEnds 0 (found.dropWhile (· == Token.lineEnd))
    let last ← kept.foldlM State.read State.start
    if last.outer.isEmpty then last.value? else none
  result.isSome

end MovieDiff.Text.Literal
