import MovieDiff.Text.Characters

/-!
Tokens of a p-code line. Blanks divide tokens and are dropped; a colon, a comma and the two
braces divide tokens and are tokens themselves. Neither divides inside double quotes, where a
backslash takes the character after it along.
-/
namespace MovieDiff.Pcode

open Text (isBlank)

structure Token where
  position : Nat
  text : List Char
  deriving DecidableEq, Repr

/-- Where the scanner stands: outside quotes, inside them, or inside and after a backslash. -/
inductive ScanMode where
  | plain | quoted | escaped
  deriving DecidableEq, Repr

def isSeparator (c : Char) : Bool :=
  c == ':' || c == ',' || c == '\x7b' || c == '\x7d'

/-- The token gathered so far, in reverse, unless it is empty. -/
def flushToken (start : Nat) (gathered : List Char) : List Token :=
  if gathered.isEmpty then [] else [⟨start, gathered.reverse⟩]

/-- Scans from position `position`, with the token gathered since `start`. -/
def scanTokens (mode : ScanMode) (position start : Nat) (gathered : List Char) :
    List Char → List Token
  | [] => flushToken start gathered
  | c :: rest =>
    match mode with
    | .escaped => scanTokens .quoted (position + 1) start (c :: gathered) rest
    | .quoted =>
      let next := if c = '\\' then .escaped else if c = '"' then .plain else .quoted
      scanTokens next (position + 1) start (c :: gathered) rest
    | .plain =>
      if c = '"' then scanTokens .quoted (position + 1) start (c :: gathered) rest
      else if isSeparator c then
        flushToken start gathered ++ ⟨position, [c]⟩ ::
          scanTokens .plain (position + 1) (position + 1) [] rest
      else if isBlank c then
        flushToken start gathered ++ scanTokens .plain (position + 1) (position + 1) [] rest
      else scanTokens .plain (position + 1) start (c :: gathered) rest

def tokenize (cs : List Char) : List Token :=
  scanTokens .plain 0 0 [] cs

/-- Replaces, from the last to the first, every token that has a new text. -/
def mapTokens (newText? : List Char → Option (List Char)) (cs : List Char) : List Char :=
  (tokenize cs).foldr (fun token line =>
    match newText? token.text with
    | some text =>
      line.take token.position ++ text ++ line.drop (token.position + token.text.length)
    | none => line) cs

end MovieDiff.Pcode
