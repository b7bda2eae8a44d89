import MovieDiff.Path

/-!
Writing a renaming of a path: the parts that both paths start with and end with stand once,
around the two different middles. A middle is never empty.
-/
namespace MovieDiff.Path

/-- What two lists start with, and the two rests. -/
def commonStart : List String → List String → List String × List String × List String
  | x :: xs, y :: ys =>
    if x = y then
      let (common, xs, ys) := commonStart xs ys
      (x :: common, xs, ys)
    else ([], x :: xs, y :: ys)
  | xs, ys => ([], xs, ys)

/-- As `commonStart`, but the last common part goes to both rests if only one of them is
empty. -/
def sharedStart (xs ys : List String) : List String × List String × List String :=
  let (common, restX, restY) := commonStart xs ys
  match common.getLast? with
  | some part =>
    if restX.isEmpty = restY.isEmpty then (common, restX, restY)
    else (common.dropLast, part :: restX, part :: restY)
  | none => (common, restX, restY)

/-- What both paths start with, the two middles, and what both end with. -/
structure RenameParts where
  start : List String
  old : List String
  new : List String
  stop : List String
  deriving DecidableEq, Repr

def renameParts (p q : Path) : RenameParts :=
  let (start, restP, restQ) := sharedStart p.parts q.parts
  let (stop, midP, midQ) := sharedStart restP.reverse restQ.reverse
  ⟨start, midP.reverse, midQ.reverse, stop.reverse⟩

def joinParts (parts : List String) : String :=
  "/".intercalate parts

def RenameParts.text (parts : RenameParts) : String :=
  joinParts parts.start ++ (if parts.start.isEmpty then "" else "/") ++ "\x7b" ++
    joinParts parts.old ++ " => " ++ joinParts parts.new ++ "\x7d" ++
    (if parts.stop.isEmpty then "" else "/") ++ joinParts parts.stop

/-- A path and its new name, if it has another one. -/
def renameText (p : Path) (q : Option Path) : String :=
  match q with
  | none => p.text
  | some q =>
    if p = q then p.text
    else
      let parts := renameParts p q
      if parts.start.isEmpty && parts.stop.isEmpty then p.text ++ " => " ++ q.text
      else parts.text

end MovieDiff.Path
