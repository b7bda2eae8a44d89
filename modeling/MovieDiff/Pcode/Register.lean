import MovieDiff.Text.Characters
import MovieDiff.Text.Word

/-!
Registers. A register is written `register` and its digits; a `StoreRegister` line writes the
digits alone.
-/
namespace MovieDiff.Pcode

open Text (isBlank isDigit isWordChar stripLeft endsWord)

def registerWord : List Char := "register".toList

/-- What follows a text that the given characters start. -/
def afterPrefix? : List Char → List Char → Option (List Char)
  | [], cs => some cs
  | p :: ps, c :: cs => if p = c then afterPrefix? ps cs else none
  | _ :: _, [] => none

/-- The digits of a text that is a register and nothing else. -/
def registerDigits? (cs : List Char) : Option (List Char) :=
  match afterPrefix? registerWord cs with
  | some digits => if digits.isEmpty || !digits.all isDigit then none else some digits
  | none => none

def isRegister (s : String) : Bool :=
  (registerDigits? s.toList).isSome

/-- Whether a register, ending at a word boundary, starts the text. -/
def startsRegister (cs : List Char) : Bool :=
  match afterPrefix? registerWord cs with
  | some (c :: rest) => isDigit c && endsWord (rest.dropWhile isDigit)
  | _ => false

/-- Whether a register stands between word boundaries in the first line of a text;
`inWord` tells whether the character before the text belongs to a word. -/
def mentionsRegister (inWord : Bool) : List Char → Bool
  | [] => false
  | c :: rest =>
    (!inWord && startsRegister (c :: rest)) ||
      (c != '\n' && mentionsRegister (isWordChar c) rest)

/-- A `Push` line, without label, whose text mentions a register. -/
def isRegisterPush (cs : List Char) : Bool :=
  match afterPrefix? "Push".toList (stripLeft cs) with
  | some (c :: rest) => isBlank c && mentionsRegister false (stripLeft rest)
  | _ => false

/-- The parts of a `StoreRegister` line without label: the text before the digits, the digits,
and the text after them. -/
structure RegisterStore where
  before : List Char
  digits : List Char
  after : List Char
  deriving DecidableEq, Repr

def registerStore? (cs : List Char) : Option RegisterStore :=
  let opcode := "StoreRegister".toList
  match afterPrefix? opcode (stripLeft cs) with
  | none => none
  | some rest =>
    let blanks := rest.takeWhile isBlank
    let tail := rest.dropWhile isBlank
    let digits := tail.takeWhile isDigit
    if blanks.isEmpty || digits.isEmpty then none
    else some ⟨cs.takeWhile isBlank ++ opcode ++ blanks, digits, tail.dropWhile isDigit⟩

/-- The line with other digits. Text after the digits comes twice, the second time without
its leading blanks. -/
def RegisterStore.write (store : RegisterStore) (digits : List Char) : List Char :=
  store.before ++ digits ++ store.after ++ stripLeft store.after

end MovieDiff.Pcode
