import MovieDiff.Scripts.DiffSet

/-!
The differences as a tree: directories, in them the scripts that differ, in these the blocks
that differ.
-/
namespace MovieDiff

inductive NodeLabel where
  | root
  | directory (name : String)
  | script (script : Script)
  | block (block : BlockDiff)
  deriving DecidableEq, Repr, Inhabited

inductive NodeKind where
  | root
  | directory
  | script
  | block
  deriving DecidableEq, Repr

/-- What may be offered as the value of a node. -/
inductive NodeValue where
  | missing
  | text (s : String)
  | script (script : Script)
  | block (block : BlockDiff)
  | other (typeName : String)
  deriving DecidableEq, Repr

def NodeValue.typeName : NodeValue → String
  | missing => "NoneType"
  | text _ => "str"
  | script _ => "GfxScript"
  | block _ => "GfxScriptBlock"
  | other typeName => typeName

/-- A node of a kind, with a value of that kind. -/
def NodeLabel.make (kind : NodeKind) (value : NodeValue) : Except Fault NodeLabel :=
  match kind, value with
  | .root, .missing => .ok .root
  | .directory, .text name => .ok (.directory name)
  | .script, .script s => .ok (.script s)
  | .block, .block b => .ok (.block b)
  | .root, v => .error (.rootNodeValue v.typeName)
  | .directory, v => .error (.directoryNodeValue v.typeName)
  | .script, v => .error (.scriptNodeValue v.typeName)
  | .block, v => .error (.blockNodeValue v.typeName)

inductive DiffTree where
  | node (label : NodeLabel) (children : List DiffTree)
  deriving Repr, Inhabited

namespace DiffTree

def label : DiffTree → NodeLabel
  | node label _ => label

def children : DiffTree → List DiffTree
  | node _ children => children

def isDirectory (name : String) (tree : DiffTree) : Bool :=
  tree.label == .directory name

/-- Puts a tree below directories, which are made where they are missing. -/
def insertAt (leaf : DiffTree) : List String → List DiffTree → List DiffTree
  | [], trees => trees ++ [leaf]
  | dir :: dirs, trees =>
    if trees.any (isDirectory dir) then
      trees.map fun tree =>
        if tree.isDirectory dir then node tree.label (insertAt leaf dirs tree.children) else tree
    else trees ++ [node (.directory dir) (insertAt leaf dirs [])]

/-- A script with its differing blocks. -/
def ofScript (set : DiffSet) (script : Script) : DiffTree :=
  let blocks := ((set.blockDiff? script).getD {}).differingBlocks
  node (.script script) (blocks.map fun block => node (.block block) [])

def ofDiffSet (set : DiffSet) : DiffTree :=
  node .root (set.differingScripts.foldl (fun trees script =>
    insertAt (ofScript set script) script.first.parent.parts trees) [])

end DiffTree

end MovieDiff
