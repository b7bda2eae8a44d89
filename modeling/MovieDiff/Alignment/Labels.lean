import MovieDiff.Alignment.Vote
import MovieDiff.Matching
import MovieDiff.Pcode.Label

/-!
Aligning the labels of a text with those of an anchor text. The two texts are matched with all
labels made equal, and the labels at matched places vote for one another.
-/
namespace MovieDiff.Alignment

open Pcode (splitLabel dropLabel jumpLine?)
open Text (strip)

def labelMark : String := "<LABEL>"

/-- The line with its label and the target of its jump made anonymous. -/
def neutralizeLabels (line : String) : String :=
  let (rest, label) := splitLabel line
  let front := if label.isSome then labelMark ++ ": " else ""
  match jumpLine? rest.toList with
  | some (opcode, _) => front ++ String.ofList opcode ++ " " ++ labelMark
  | none => front ++ rest

def jumpTarget? (line : String) : Option String :=
  (jumpLine? (strip (dropLabel line).toList)).map fun parts => String.ofList parts.2

/-- The pairs of lines at matched places: the anchor's, then the text's. -/
def matchedLines (anchorKeys textKeys anchor text : List String) : List (String × String) :=
  (Match.all anchorKeys textKeys).flatMap fun m =>
    ((anchor.drop m.left).take m.size).zip ((text.drop m.right).take m.size)

/-- The vote of two names that both exist: the text's for the anchor's. -/
def ballotOf : Option String → Option String → List Ballot
  | some anchor, some name => [(name, anchor)]
  | _, _ => []

def labelBallots (lines : String × String) : List Ballot :=
  ballotOf (splitLabel lines.1).2 (splitLabel lines.2).2 ++
    ballotOf (jumpTarget? lines.1) (jumpTarget? lines.2)

/-- From the labels of the text to those of the anchor. -/
def labelRenaming (anchor text : List String) : Renaming :=
  elect ((matchedLines (anchor.map neutralizeLabels) (text.map neutralizeLabels)
    anchor text).flatMap labelBallots)

def renameLabels (table : Renaming) (line : String) : String :=
  let (rest, label) := splitLabel line
  let newLabel := label.map fun name => (table.get? name).getD name
  let front := match newLabel with
    | some name => name ++ ":"
    | none => ""
  let unchanged := if newLabel == label then line else front ++ rest
  match jumpLine? (strip rest.toList) with
  | some (opcode, target) =>
    match table.get? (String.ofList target) with
    | some newTarget => front ++ String.ofList opcode ++ " " ++ newTarget
    | none => unchanged
  | none => unchanged

def alignLabels (anchor text : List String) : List String :=
  text.map (renameLabels (labelRenaming anchor text))

end MovieDiff.Alignment
