import MovieDiff.Files.FileTree
import MovieDiff.Files.Rename
import MovieDiff.Sides

/-!
What differs between the scripts of two movies: the scripts that were paired, those on one side
only, and for each paired script its blocks that differ.
-/
namespace MovieDiff

abbrev Script := Sides Path

namespace Script

def make (left right : Option Path) : Except Fault Script :=
  match Sides.ofOptions? left right with
  | some script => .ok script
  | none => .error .noScriptPath

def key (script : Script) : String × String :=
  Sides.key Path.text script

def describe (script : Script) : String :=
  s!"GfxScript('{Path.renameText script.first script.right?}')"

end Script

/-- A block of a script: its name on each side, its place in the script, how many lines differ
before and after alignment, and where. -/
structure BlockDiff where
  names : Sides String
  position : Option Int := none
  changed : Nat := 0
  refined : Nat := 0
  spans : List SpanPair := []
  deriving DecidableEq, Repr

def blockNames (left right : Option String) : Except Fault (Sides String) :=
  match Sides.ofOptions? left right with
  | some names => .ok names
  | none => .error .noBlockName

def BlockDiff.key (block : BlockDiff) : String × String :=
  Sides.key id block.names

/-- The blocks of one script; a block is told by its names. -/
structure ScriptDiff where
  paired : List BlockDiff := []
  onlyLeft : List BlockDiff := []
  onlyRight : List BlockDiff := []
  deriving DecidableEq, Repr

/-- Adds a block unless one of its names is there. -/
def addBlock (blocks : List BlockDiff) (block : BlockDiff) : List BlockDiff :=
  if blocks.any fun known => known.names == block.names then blocks else blocks ++ [block]

namespace ScriptDiff

/-- The fields by their names, for inspection. -/
def fields (diff : ScriptDiff) : List (String × List BlockDiff) :=
  [("paired_blocks", diff.paired), ("unmatched_a_blocks", diff.onlyLeft),
   ("unmatched_b_blocks", diff.onlyRight)]

def hasDifferences (diff : ScriptDiff) : Bool :=
  diff.paired.any (0 < ·.changed) || !diff.onlyLeft.isEmpty || !diff.onlyRight.isEmpty

def differingBlocks (diff : ScriptDiff) : List BlockDiff :=
  (diff.onlyLeft ++ diff.onlyRight).foldl addBlock (diff.paired.filter (0 < ·.changed))

def mapBlocks (f : BlockDiff → BlockDiff) (diff : ScriptDiff) : ScriptDiff :=
  ⟨diff.paired.map f, diff.onlyLeft.map f, diff.onlyRight.map f⟩

def ofChange (change : FileChange) : BlockDiff where
  names := .both change.path.stem (change.newPath.getD change.path).stem
  changed := change.changed
  spans := change.spans

/-- Adds the blocks whose files changed, and those whose files are on one side only. -/
def addFiles (diff : ScriptDiff) (changes : List FileChange) (onlyLeft onlyRight : List Path) :
    ScriptDiff where
  paired := (changes.map ofChange).foldl addBlock diff.paired
  onlyLeft := (onlyLeft.map fun p => { names := .left p.stem }).foldl addBlock diff.onlyLeft
  onlyRight := (onlyRight.map fun p => { names := .right p.stem }).foldl addBlock diff.onlyRight

end ScriptDiff

structure DiffSet where
  paired : List Script := []
  onlyLeft : List Script := []
  onlyRight : List Script := []
  blockDiffs : List (Script × ScriptDiff) := []
  deriving DecidableEq, Repr

def addScript (scripts : List Script) (script : Script) : List Script :=
  if scripts.contains script then scripts else scripts ++ [script]

namespace DiffSet

/-- What is shown of a field: scripts, or the fields of the entry of each script. -/
inductive FieldValue where
  | scripts (scripts : List Script)
  | entries (entries : List (Script × List (String × List BlockDiff)))
  deriving DecidableEq, Repr

/-- The fields by their names, for inspection. -/
def fields (set : DiffSet) : List (String × FieldValue) :=
  [("paired_scripts", .scripts set.paired), ("unmatched_a_scripts", .scripts set.onlyLeft),
   ("unmatched_b_scripts", .scripts set.onlyRight),
   ("paired_scripts_block_diffs",
    .entries (set.blockDiffs.map fun (script, diff) => (script, diff.fields)))]

def blockDiff? (set : DiffSet) (script : Script) : Option ScriptDiff :=
  set.blockDiffs.lookup script

/-- Changes the entry of a script, which is made where it is missing. -/
def updateEntry (f : ScriptDiff → ScriptDiff) (script : Script) :
    List (Script × ScriptDiff) → List (Script × ScriptDiff)
  | [] => [(script, f {})]
  | (known, diff) :: rest =>
    if known = script then (known, f diff) :: rest
    else (known, diff) :: updateEntry f script rest

def update (set : DiffSet) (script : Script) (f : ScriptDiff → ScriptDiff) : DiffSet :=
  { set with blockDiffs := updateEntry f script set.blockDiffs }

/-- Records how the files of a paired script differ; without any difference it gets no entry. -/
def addFiles (set : DiffSet) (script : Script) (changes : List FileChange)
    (onlyLeft onlyRight : List Path) : Except Fault DiffSet :=
  if !set.paired.contains script then .error (.unknownScript script.describe)
  else if changes.isEmpty && onlyLeft.isEmpty && onlyRight.isEmpty then .ok set
  else .ok (set.update script fun diff => diff.addFiles changes onlyLeft onlyRight)

def scriptsWithDifferences (set : DiffSet) : List Script :=
  (set.blockDiffs.filter fun entry => entry.2.hasDifferences).map (·.1)

def differingScripts (set : DiffSet) : List Script :=
  (set.onlyLeft ++ set.onlyRight).foldl addScript set.scriptsWithDifferences

def isEmpty (set : DiffSet) : Bool :=
  set.differingScripts.isEmpty

def sumOver (set : DiffSet) (f : ScriptDiff → Nat) : Nat :=
  (set.blockDiffs.map fun entry => f entry.2).foldr (· + ·) 0

def modifiedBlocks (set : DiffSet) : Nat :=
  set.sumOver fun diff => diff.paired.countP (0 < ·.changed)

def modifiedLines (set : DiffSet) : Nat :=
  set.sumOver fun diff => (diff.paired.map BlockDiff.changed).foldr (· + ·) 0

def blocksOnlyLeft (set : DiffSet) : Nat :=
  set.sumOver fun diff => diff.onlyLeft.length

def blocksOnlyRight (set : DiffSet) : Nat :=
  set.sumOver fun diff => diff.onlyRight.length

end DiffSet

end MovieDiff
