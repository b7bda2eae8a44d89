import MovieDiff.Display.BlockText
import MovieDiff.Layout.Split
import MovieDiff.Layout.Unified

/-!
A block ready to be shown, and its two layouts.
-/
namespace MovieDiff.Display

open Layout (Pane)
open Text (StyledText)

inductive Language where
  | actionScript
  | pcode
  deriving DecidableEq, Repr

/-- The hunks of a block that differs. A side is resolved when its text could be told. -/
structure BlockView where
  script : Script
  names : Sides String
  pairs : List HunkPair
  messages : List String := []
  language : Language
  leftResolved : Bool
  rightResolved : Bool
  deriving DecidableEq, Repr

def unresolvedText : String :=
  "[yellow]Unable to map pcode lines to ActionScript source on this side.[/yellow]"

def absentText (side : String) : String :=
  s!"[dim]This block does not exist on side {side}.[/dim]"

/-- Gives the lines that are no context a mark. -/
def markChanges (mark : Mark) (hunk : Hunk) : Hunk :=
  hunk.map fun line => if line.isContext then line else { line with mark }

def present (hunk : Option Hunk) : Except Fault Hunk :=
  match hunk with
  | some hunk => .ok hunk
  | none => .error .missingHunk

/-- The two panes of a pair of hunks. A side that is unresolved or absent has a message. -/
def panes (view : BlockView) (pair : HunkPair) : Except Fault (Pane × Pane) :=
  match view.names with
  | .both _ _ => do
    let left ← present pair.left
    let right ← present pair.right
    if !view.leftResolved then
      return (.message unresolvedText, .ofAnnotated [markChanges .addition right])
    else if !view.rightResolved then
      return (.ofAnnotated [markChanges .deletion left], .message unresolvedText)
    else
      let (x, y) := annotate left right
      return (.ofAnnotated x, .ofAnnotated y)
  | .left _ => do
    return (.ofAnnotated (annotate (← present pair.left) []).1, .message (absentText "B"))
  | .right _ => do
    return (.message (absentText "A"), .ofAnnotated (annotate [] (← present pair.right)).2)

def splitView (width : Nat) (view : BlockView) (pair : HunkPair) :
    Except Fault Layout.ShownSplit := do
  let (left, right) ← panes view pair
  Layout.split width Layout.defaultSpacing true left right

def blockPath? (script : Option Path) (name : Option String) : Option String :=
  match script, name with
  | some script, some name => some s!"{script.text}:{name}"
  | _, _ => none

def unifiedView (view : BlockView) : Except Fault (List StyledText) :=
  Layout.unifiedLines (blockPath? view.script.left? view.names.left?)
    (blockPath? view.script.right? view.names.right?)
    (view.pairs.map fun pair => annotate (pair.left.getD []) (pair.right.getD []))

end MovieDiff.Display
