import MovieDiff.Command.Session
import MovieDiff.Display.BlockView
import MovieDiff.Scripts.Title

/-!
Showing a block in either layout. Both answer how many lines they took.
-/
namespace MovieDiff.Command

open Display (BlockView HunkPair)

/-- Hunks can be compared when both are there. -/
def sameHunks (pair : HunkPair) : Except Fault Bool :=
  match pair.left, pair.right with
  | some x, some y => .ok (Hunk.sameTexts x y)
  | _, _ => .error .incomparableHunks

/-- Whether some pair is of equal hunks; the first one ends the search. -/
def someSameHunks : List HunkPair → Except Fault Bool
  | [] => .ok false
  | pair :: rest => do if ← sameHunks pair then return true else someSameHunks rest

def comparesSource (view : BlockView) : Bool :=
  view.names.isPaired && view.language == .actionScript

def severalHunksText : String := "This block has more than one hunk."

def reportUnified (width : Nat) (debug : Bool) (view : BlockView) : Command Nat := do
  view.messages.forM say
  let unresolved := view.language == .actionScript && !(view.leftResolved && view.rightResolved)
  if unresolved then
    let side := if view.leftResolved then "B" else "A"
    say (s!"[yellow]Unable to map pcode lines to ActionScript source on side {side}. " ++
      "The diff might appear misleading.[/yellow]")
  if debug && comparesSource view then
    if ← orFault (someSameHunks view.pairs) then
      remark ("At least one pair of hunks are equal (different p-code but same decompiled " ++
        "ActionScript).")
  if debug && 1 < view.pairs.length then remark severalHunksText
  let lines ← orFault (Display.unifiedView view)
  let height := Layout.unifiedHeight width lines
  display (.unified lines height)
  return view.messages.length + (if unresolved then 1 else 0) + height

/-- The rule above a block in the split layout. -/
def titleRule (scriptTitle blockTitle : String) : String :=
  s!"[dim white]────[/dim white] {scriptTitle} [dim white]──[/dim white] {blockTitle}"

def reportPair (width : Nat) (debug : Bool) (view : BlockView) (pair : HunkPair) : Command Nat := do
  if debug && comparesSource view && (sameHunks pair).toOption == some true then
    remark "Different p-code but same decompiled ActionScript."
  let layout ← orFault (Display.splitView width view pair)
  blankLine
  display (.split layout)
  blankLine
  return layout.height + 2

def reportSplit (width : Nat) (debug : Bool) (view : BlockView) : Command Nat := do
  let path ← orFault (match view.script.left? with
    | some path => .ok path
    | none => .error .untitledScript)
  let script := Scripts.scriptTitle path view.script.right?
  let block ← orFault (Scripts.namesTitle view.names)
  display (.rule (titleRule script block))
  if !view.messages.isEmpty then
    blankLine
    view.messages.forM say
  if debug && 1 < view.pairs.length then remark severalHunksText
  let heights ← view.pairs.mapM (reportPair width debug view)
  let messages := if view.messages.isEmpty then 0 else 1 + view.messages.length
  return 1 + messages + heights.foldr (· + ·) 0

end MovieDiff.Command
