import MovieDiff.Command.Movie
import MovieDiff.Scripts.Pairing
import MovieDiff.Scripts.Refinement

/-!
The diff set of two movies whose scripts are normalised: scripts paired by their blocks, blocks
placed in their scripts, counts refined.
-/
namespace MovieDiff

/-- The places of blocks in their scripts; the left side has priority. -/
def positionOf (left right : List Pcode.Block) (names : Sides String) : Except Fault Nat :=
  let find (blocks : List Pcode.Block) (name : String) : Except Fault Nat :=
    match blocks.zipIdx.reverse.find? fun entry => entry.1.name == name with
    | some (_, place) => .ok place
    | none => .error .missingIndexKey
  match names with
  | .left name | .both name _ => find left name
  | .right name => find right name

def placeBlocks (left right : List Pcode.Block) (blocks : List BlockDiff) :
    Except Fault (List BlockDiff) :=
  blocks.mapM fun block => do
    return { block with position := some (← positionOf left right block.names) }

/-- Gives the blocks of the scripts that differ their places. -/
def placeAll (left right : Movie) (set : DiffSet) : Except Fault DiffSet := do
  let placed ← set.blockDiffs.mapM fun (script, diff) => do
    match script, diff.hasDifferences with
    | .both a b, true =>
      let place := placeBlocks (left.blocksOf a) (right.blocksOf b)
      return (script, ⟨← place diff.paired, ← place diff.onlyLeft, ← place diff.onlyRight⟩)
    | _, _ => return (script, diff)
  return { set with blockDiffs := placed }

def blockLines (fs : FileSystem) (w : Workspace) (script : Path) (name : String) :
    Except Fault (List String) :=
  fs.readLines (w.normalizationDir ++ script ++ Path.ofString (Pcode.blockFileName name))

/-- Pairs the normalised scripts, places their blocks and refines the counts. -/
def compareScripts (order : TreeDiff.SearchOrder) (fs : FileSystem) (left right : Movie)
    (leftScripts rightScripts : List Path) : Except Fault DiffSet := do
  let tree (movie : Movie) (script : Path) : FileTree :=
    fs.tree (movie.workspace.normalizationDir ++ script) Workspace.blockGlob
  let set ← Scripts.pair order (tree left) (tree right) leftScripts rightScripts
  let placed ← placeAll left right set
  Scripts.refine (blockLines fs left.workspace) (blockLines fs right.workspace) placed

end MovieDiff
