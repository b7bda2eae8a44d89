import MovieDiff.Scripts.Selection
import MovieDiff.Scripts.Title
import MovieDiff.Scripts.Tree
import MovieDiff.Text.Numeral

/-!
The tree of differences as rows of a table: what a node is, its state, and for a block the lines
that differ before and after alignment.
-/
namespace MovieDiff.Scripts

abbrev Row := List String

/-- Directories come first, then scripts, then blocks in the order asked for. -/
def nodeKey (order : SortOrder) : NodeLabel → Nat × Int × String × String
  | .root => (0, 0, "", "")
  | .directory name => (0, 0, name, "")
  | .script script => (1, 0, script.key)
  | .block block =>
    match order with
    | .natural => (2, positionKey block)
    | _ => (2, changesKey order block, block.key)

def nodeLe (order : SortOrder) (x y : DiffTree) : Bool :=
  let kx := nodeKey order x.label
  let ky := nodeKey order y.label
  kx.1 < ky.1 || kx.1 == ky.1 && numberedLe kx.2 ky.2

def sortTree (order : SortOrder) : DiffTree → DiffTree
  | .node label children => .node label ((children.map (sortTree order)).mergeSort (nodeLe order))

def blocksOf (trees : List DiffTree) : List BlockDiff :=
  trees.filterMap fun tree =>
    match tree.label with
    | .block block => some block
    | _ => none

/-- Siblings can be ordered when none is a root and, in natural order, the positions of the
blocks among them can be compared. -/
def checkSiblings (order : SortOrder) (trees : List DiffTree) : Except Fault Unit :=
  if trees.any fun tree => tree.label == .root then .error .nestedRoot
  else if order == .natural && !comparable (blocksOf trees) then .error .incomparablePositions
  else .ok ()

def modifiedText : String := "[yellow]modified[/yellow]"
def deletedText : String := "[red]deleted[/red]"
def newText : String := "[green]new[/green]"

def stateOf {α : Type} [DecidableEq α] (sides : Sides α) : String :=
  match sides with
  | .both a b =>
    if a = b then modifiedText else modifiedText ++ ", [bright_blue]renamed[/bright_blue]"
  | .left _ => deletedText
  | .right _ => newText

/-- The refined count, with the change against the plain count in percent. -/
def refinedText (changed refined : Nat) : String :=
  let ratio := Float.ofNat refined / Float.ofNat changed
  if refined < changed then
    s!"[bold green]🡖 {Text.nearestWhole ((1.0 - ratio) * 100.0)}%[/bold green] {refined}"
  else if changed < refined then
    s!"[bold red]🡕 {Text.nearestWhole ((ratio - 1.0) * 100.0)}%[/bold red] {refined}"
  else toString refined

def changeCells (block : BlockDiff) : Except Fault (List String) :=
  match block.names with
  | .both _ _ =>
    if block.changed = 0 then .error .noChangedLines
    else .ok [toString block.changed, refinedText block.changed block.refined]
  | _ => .ok ["-", "-"]

/-- The title of a node, its state and its further cells. -/
def nodeCells : NodeLabel → Except Fault (String × String × List String)
  | .root => .ok ("", "", [])
  | .directory name => .ok (s!"🗁  {name}/", "", [])
  | .script script =>
    let name (p : Path) := Path.ofString p.name
    .ok (scriptTitle (name script.first) (script.right?.map name), stateOf script, [])
  | .block block => do
    let title ← namesTitle block.names
    return (title, stateOf block.names, ← changeCells block)

/-- The line art before a node and before its children. -/
structure Branch where
  own : String
  below : String

def Branch.top : Branch := ⟨"", " "⟩

def Branch.child (parent : Branch) (isLast : Bool) : Branch :=
  ⟨parent.below ++ (if isLast then "└── " else "├── "),
   parent.below ++ (if isLast then "    " else "│   ") ++ " "⟩

mutual

/-- The row of a node, then the rows below it. -/
def rowsOf (order : SortOrder) (branch : Branch) : DiffTree → Except Fault (List Row)
  | .node label children => do
    let (title, state, cells) ← nodeCells label
    checkSiblings order children
    let below ← rowsOfAll order branch children
    return ([branch.own ++ title, s!"[italic]{state}[/italic]"] ++ cells) :: below

def rowsOfAll (order : SortOrder) (parent : Branch) : List DiffTree → Except Fault (List Row)
  | [] => .ok []
  | tree :: rest => do
    let first ← rowsOf order (parent.child rest.isEmpty) tree
    return first ++ (← rowsOfAll order parent rest)

end

/-- The rows of a whole tree; its root has none, and its children no line art. -/
def tableRows (order : SortOrder) (tree : DiffTree) : Except Fault (List Row) := do
  let sorted := (sortTree order tree).children
  checkSiblings order sorted
  return (← sorted.mapM (rowsOf order Branch.top)).flatten

end MovieDiff.Scripts
