import MovieDiff.Text.Lines

/-!
The tokens of literals: numbers in four bases, quoted texts, names, brackets and signs.
-/
namespace MovieDiff.Text.Literal

inductive Token where
  | number (imaginary : Bool)
  | text (bytes : Bool)
  | word (name : String)
  | mark (c : Char)
  | dots
  | lineEnd
  deriving DecidableEq, Repr

def isDecimalDigit (c : Char) : Bool :=
  '0' ≤ c && c ≤ '9'

def isHexDigit (c : Char) : Bool :=
  isDecimalDigit c || 'a' ≤ c && c ≤ 'f' || 'A' ≤ c && c ≤ 'F'

/-- The characters of names; all beyond the first 128 count. -/
def isNameChar (c : Char) : Bool :=
  c.isAlphanum || c == '_' || 128 ≤ c.toNat

/-- A run of digits, and what follows it. -/
def cutDigits (isDigit : Char → Bool) (cs : List Char) : List Char × List Char :=
  cs.span fun c => isDigit c || c == '_'

/-- Underscores stand between digits, one at a time. -/
def isGrouped (digits : List Char) : Bool :=
  (splitAtChar '_' digits).all fun group => !group.isEmpty

/-- What follows a run of decimal digits. -/
def afterDigits? (cs : List Char) : Option (List Char) :=
  let (digits, rest) := cutDigits isDecimalDigit cs
  if isGrouped digits then some rest else none

/-- What follows an exponent, if there is one. -/
def afterExponent? : List Char → Option (List Char)
  | c :: rest =>
    if c == 'e' || c == 'E' then
      match rest with
      | '+' :: digits | '-' :: digits => afterDigits? digits
      | digits => afterDigits? digits
    else some (c :: rest)
  | [] => some []

/-- What follows a point and the digits after it, if there are any. -/
def afterFraction? : List Char → Option (List Char)
  | '.' :: c :: rest => if isDecimalDigit c then afterDigits? (c :: rest) else some (c :: rest)
  | '.' :: [] => some []
  | cs => some cs

/-- A whole number starts with a zero only if it is zero. -/
def isWhole (digits : List Char) : Bool :=
  digits.head? != some '0' || digits.all fun c => c == '0' || c == '_'

/-- A decimal number, imaginary or not, and what follows it. -/
def readDecimal? (cs : List Char) : Option (Bool × List Char) := do
  let (digits, rest) := cutDigits isDecimalDigit cs
  if !digits.isEmpty && !isGrouped digits then none
  let fraction ← afterFraction? rest
  let scaled ← afterExponent? fraction
  match scaled with
  | 'j' :: after | 'J' :: after => some (true, after)
  | after => if scaled == rest && !isWhole digits then none else some (false, after)

/-- What follows the digits of a whole number in another base. -/
def afterBased? (isDigit : Char → Bool) (cs : List Char) : Option (List Char) :=
  let (digits, rest) := cutDigits isDigit cs
  if !digits.isEmpty && isGrouped ('0' :: digits) then some rest else none

def readNumber? : List Char → Option (Bool × List Char)
  | '0' :: c :: rest =>
    if c == 'x' || c == 'X' then (afterBased? isHexDigit rest).map (false, ·)
    else if c == 'o' || c == 'O' then
      (afterBased? (fun d => '0' ≤ d && d ≤ '7') rest).map (false, ·)
    else if c == 'b' || c == 'B' then
      (afterBased? (fun d => d == '0' || d == '1') rest).map (false, ·)
    else readDecimal? ('0' :: c :: rest)
  | cs => readDecimal? cs

/-- The inside of a text that ends at a quote, and what follows it. A backslash hides the next
character; a text with a single quote stays on its line. -/
def cutQuoted (quote : List Char) : List Char → Option (List Char × List Char)
  | [] => none
  | '\\' :: c :: rest => (cutQuoted quote rest).map fun (inner, after) => ('\\' :: c :: inner, after)
  | c :: rest =>
    if quote.isPrefixOf (c :: rest) then some ([], (c :: rest).drop quote.length)
    else if c == '\n' && quote.length == 1 then none
    else (cutQuoted quote rest).map fun (inner, after) => (c :: inner, after)

def startsWithHex (count : Nat) (cs : List Char) : Bool :=
  (cs.take count).length == count && (cs.take count).all isHexDigit

/-- Eight hexadecimal digits of a code point that exists. -/
def startsWithCodePoint (cs : List Char) : Bool :=
  startsWithHex 8 cs && (cs.take 2).all (· == '0') &&
    ((cs.drop 2).head? == some '0' || (cs.drop 2).take 2 == ['1', '0'])

/-- Escapes that give a character by its number have all their digits. Characters are not
escaped by name. -/
def hasGoodEscapes : List Char → Bool
  | '\\' :: 'x' :: rest => startsWithHex 2 rest && hasGoodEscapes rest
  | '\\' :: 'u' :: rest => startsWithHex 4 rest && hasGoodEscapes rest
  | '\\' :: 'U' :: rest => startsWithCodePoint rest && hasGoodEscapes rest
  | '\\' :: 'N' :: _ => false
  | '\\' :: _ :: rest => hasGoodEscapes rest
  | _ :: rest => hasGoodEscapes rest
  | [] => true

/-- In bytes only two digits make an escape that can go wrong. -/
def hasGoodByteEscapes : List Char → Bool
  | '\\' :: 'x' :: rest => startsWithHex 2 rest && hasGoodByteEscapes rest
  | '\\' :: _ :: rest => hasGoodByteEscapes rest
  | _ :: rest => hasGoodByteEscapes rest
  | [] => true

/-- Whether the letters before a quote ask for bytes, and whether they turn escapes off. -/
def quoteLetters? (letters : String) : Option (Bool × Bool) :=
  match letters.toLower with
  | "" | "u" => some (false, false)
  | "r" => some (false, true)
  | "b" => some (true, false)
  | "br" | "rb" => some (true, true)
  | _ => none

/-- A text from its quote on. -/
def readText? (letters : String) (cs : List Char) : Option (Token × List Char) := do
  let (bytes, raw) ← quoteLetters? letters
  let mark := cs.take 1
  let quote := if (mark ++ mark ++ mark).isPrefixOf cs then mark ++ mark ++ mark else mark
  let (inner, after) ← cutQuoted quote (cs.drop quote.length)
  let good :=
    if bytes then inner.all (fun c => c.toNat < 128) && (raw || hasGoodByteEscapes inner)
    else raw || hasGoodEscapes inner
  if good then some (.text bytes, after) else none

def isQuote (c : Char) : Bool :=
  c == '"' || c == '\''

def isMark (c : Char) : Bool :=
  "(){},:+-".toList.contains c

/-- The token at the front, if there is one before the next blank, and what follows. -/
def readToken? : List Char → Option (Option Token × List Char)
  | '\n' :: rest => some (some .lineEnd, rest)
  | '#' :: rest => some (none, rest.dropWhile (· ≠ '\n'))
  | '\\' :: '\n' :: rest => some (none, rest)
  | '.' :: '.' :: '.' :: rest => some (some .dots, rest)
  | cs =>
    match cs with
    | [] => none
    | c :: rest =>
      if c == ' ' || c == '\t' || c == '\x0c' then some (none, rest)
      else if isMark c then some (some (.mark c), rest)
      else if isDecimalDigit c || (c == '.' && rest.head?.any isDecimalDigit) then
        match readNumber? cs with
        | some (imaginary, after) =>
          if after.head?.any isNameChar then none else some (some (.number imaginary), after)
        | none => none
      else
        let (name, after) := cs.span isNameChar
        if after.head?.any isQuote then
          (readText? (String.ofList name) after).map fun (token, rest) => (some token, rest)
        else if name.isEmpty then none
        else some (some (.word (String.ofList name)), after)

/-- The tokens of a text; each takes one character at least, so the length is fuel enough. -/
def tokensWithin : Nat → List Char → Option (List Token)
  | _, [] => some []
  | 0, _ => none
  | fuel + 1, cs => do
    let (token, rest) ← readToken? cs
    let others ← tokensWithin fuel rest
    return token.toList ++ others

def tokens? (cs : List Char) : Option (List Token) :=
  if cs.contains '\x00' then none else tokensWithin cs.length cs

end MovieDiff.Text.Literal
