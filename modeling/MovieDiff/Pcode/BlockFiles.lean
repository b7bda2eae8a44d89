import MovieDiff.Pcode.Normal

/-!
The files that hold a normalised script: for each block its text and the source lines of each
of its lines, and at last the order of the blocks.
-/
namespace MovieDiff.Pcode

inductive BlockClass where
  | toplevel | anonymous | named
  deriving DecidableEq, Repr

/-- Top-level and nameless blocks are told by how their name starts. -/
def blockClass (name : String) : BlockClass :=
  if toplevelName.isPrefixOf name then .toplevel
  else if anonymousName.isPrefixOf name then .anonymous
  else .named

/-- A list of numbers between brackets, divided by a comma and a space. -/
def bracketed (items : List String) : String :=
  "[" ++ ", ".intercalate items ++ "]"

def sourceMapText (lines : List Line) : String :=
  bracketed (lines.map fun line => bracketed (line.sources.map toString)) ++ "\n"

def blockFileName (name : String) : String := name ++ ".pcode"
def sourceMapFileName (name : String) : String := name ++ ".pcode.map"
def orderFileName : String := "order.txt"

def blockFiles (withSourceMaps : Bool) (block : Block) : List (String × String) :=
  (blockFileName block.name, block.render ++ "\n") ::
    (if withSourceMaps then [(sourceMapFileName block.name, sourceMapText block.lines)] else [])

def orderText (blocks : List Block) : String :=
  Text.joinLines (blocks.map Block.name)

/-- The files in the order in which they are written; of two with one name the later stays. -/
def scriptFiles (withSourceMaps : Bool) (blocks : List Block) : List (String × String) :=
  blocks.flatMap (blockFiles withSourceMaps) ++ [(orderFileName, orderText blocks)]

/-- A normalised script with the number of its blocks of each class, and the names of the blocks
whose source lines are not known. -/
structure NormalScript where
  blocks : List Block
  total : Nat
  named : Nat
  anonymous : Nat
  toplevel : Nat
  unsourced : List String
  deriving DecidableEq, Repr

def NormalScript.ofBlocks (blocks : List Block) : NormalScript :=
  let count (c : BlockClass) := blocks.countP fun block => blockClass block.name == c
  ⟨blocks, blocks.length, count .named, count .anonymous, count .toplevel, []⟩

/-- A script of which the source lines of every block are known. -/
def NormalScript.requireSources (script : NormalScript) : Except Fault NormalScript :=
  if script.unsourced.isEmpty then .ok script else .error .notALine

end MovieDiff.Pcode
