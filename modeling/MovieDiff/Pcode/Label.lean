import MovieDiff.Text.Characters

/-!
Labels. A line may start with a label and a colon, and an `If` or `Jump` line names a label
as its target. A label is a word of Latin letters, digits of any script and underscores that
does not start with a digit.
-/
namespace MovieDiff.Pcode

open Text (isBlank isDigit stripLeft)

def isLabelStart (c : Char) : Bool :=
  c.isAlpha || c == '_'

def isLabelChar (c : Char) : Bool :=
  isLabelStart c || isDigit c

/-- The text up to its final line feed, when it holds no other one. -/
def singleLine? (cs : List Char) : Option (List Char) :=
  let body := if cs.getLast? = some '\n' then cs.dropLast else cs
  if body.contains '\n' then none else some body

/-- The label before the first colon and the rest of the line. Blanks around the label and
before the rest are dropped; the rest must be a single line. -/
def labelPrefix? (cs : List Char) : Option (List Char × List Char) :=
  match stripLeft cs with
  | [] => none
  | c :: tail =>
    if isLabelStart c then
      let label := c :: tail.takeWhile isLabelChar
      match stripLeft (tail.dropWhile isLabelChar) with
      | ':' :: rest => (singleLine? (stripLeft rest)).map fun body => (label, body)
      | _ => none
    else none

/-- The line without its label, and the label. -/
def splitLabel (line : String) : String × Option String :=
  match labelPrefix? line.toList with
  | some (label, rest) => (String.ofList rest, some (String.ofList label))
  | none => (line, none)

def dropLabel (line : String) : String :=
  (splitLabel line).1

/-- Letters that the target of a jump may hold beyond those of a label: the small forms and
signs that fold to a Latin letter. -/
def foldsToLatin (c : Char) : Bool :=
  let n := c.toNat
  n == 0x130 || n == 0x131 || n == 0x17F || n == 0x212A

def isTargetStart (c : Char) : Bool :=
  isLabelStart c || foldsToLatin c

def isTargetChar (c : Char) : Bool :=
  isTargetStart c || isDigit c

/-- Whether a character is the given small Latin letter in some case. -/
def isLetter (small : Char) (c : Char) : Bool :=
  c == small || c == small.toUpper || (small == 'i' && (c.toNat == 0x130 || c.toNat == 0x131))

def spells : List Char → List Char → Bool
  | [], [] => true
  | small :: smalls, c :: cs => isLetter small c && spells smalls cs
  | _, _ => false

/-- The opcode and the target of a jump line, in any letter case: `If` or `Jump`, blanks, and
one word up to the end of the line. -/
def jumpLine? (cs : List Char) : Option (List Char × List Char) :=
  let opcode := cs.takeWhile (!isBlank ·)
  let rest := cs.dropWhile (!isBlank ·)
  if spells ['i', 'f'] opcode || spells ['j', 'u', 'm', 'p'] opcode then
    match rest, stripLeft rest with
    | _ :: _, c :: tail =>
      let after := tail.dropWhile isTargetChar
      if isTargetStart c && (after == [] || after == ['\n']) then
        some (opcode, c :: tail.takeWhile isTargetChar)
      else none
    | _, _ => none
  else none

end MovieDiff.Pcode
