import MovieDiff.Alignment.Labels
import MovieDiff.Pcode.Register
import MovieDiff.Pcode.Token

/-!
Aligning the registers of a text with those of an anchor text, by the same vote as for labels.
Only pushes and stores name registers.
-/
namespace MovieDiff.Alignment

open Pcode (splitLabel dropLabel isRegisterPush registerStore? registerDigits? tokenize
  mapTokens)

def withLabel (label : Option String) (rest : List Char) : String :=
  match label with
  | some name => name ++ ":" ++ String.ofList rest
  | none => String.ofList rest

def neutralizeRegisters (line : String) : String :=
  let (rest, label) := splitLabel line
  let cs := rest.toList
  if isRegisterPush cs then
    withLabel label (mapTokens (fun token =>
      (registerDigits? token).map fun _ => "registerN".toList) cs)
  else match registerStore? cs with
    | some store => withLabel label (store.write ['N'])
    | none => line

def registersOf (line : String) : List String :=
  let cs := (dropLabel line).toList
  if isRegisterPush cs then
    ((tokenize cs).filter fun token => (registerDigits? token.text).isSome).map fun token =>
      String.ofList token.text
  else match registerStore? cs with
    | some store => ["register" ++ String.ofList store.digits]
    | none => []

/-- Every register of one line votes for every register of the other. -/
def registerBallots (lines : String × String) : List Ballot :=
  (registersOf lines.1).flatMap fun anchor =>
    (registersOf lines.2).map fun register => (register, anchor)

/-- From the registers of the text to those of the anchor. -/
def registerRenaming (anchor text : List String) : Renaming :=
  elect ((matchedLines (anchor.map neutralizeRegisters) (text.map neutralizeRegisters)
    anchor text).flatMap registerBallots)

/-- Drops `skip` characters, then every occurrence of a word, from left to right. -/
def eraseWord (word : List Char) : Nat → List Char → List Char
  | _, [] => []
  | skip + 1, _ :: rest => eraseWord word skip rest
  | 0, c :: rest =>
    if word.isPrefixOf (c :: rest) then eraseWord word (word.length - 1) rest
    else c :: eraseWord word 0 rest

def renameRegisters (table : Renaming) (line : String) : String :=
  let (rest, label) := splitLabel line
  let cs := rest.toList
  if isRegisterPush cs then
    if (registersOf rest).all fun register => (table.get? register).isNone then line
    else withLabel label (mapTokens (fun token =>
      if (registerDigits? token).isSome then
        (table.get? (String.ofList token)).map String.toList
      else none) cs)
  else match registerStore? cs with
    | some store =>
      match table.get? ("register" ++ String.ofList store.digits) with
      | some register =>
        withLabel label (store.write (eraseWord Pcode.registerWord 0 register.toList))
      | none => line
    | none => line

def alignRegisters (anchor text : List String) : List String :=
  text.map (renameRegisters (registerRenaming anchor text))

end MovieDiff.Alignment
