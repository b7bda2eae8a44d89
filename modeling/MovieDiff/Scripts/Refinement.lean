import MovieDiff.Alignment.Registers
import MovieDiff.Scripts.DiffSet

/-!
Counting the differences of paired blocks again, with the labels and registers of the right
side aligned to the left.
-/
namespace MovieDiff.Scripts

/-- The right text with its labels, then its registers, aligned to the left one. -/
def alignText (anchor text : List String) : List String :=
  Alignment.alignRegisters anchor (Alignment.alignLabels anchor text)

variable (leftLines rightLines : Path → String → Except Fault (List String))

/-- The lines of a block on one side of its script, which must have that side. -/
def linesOn (lines : Path → String → Except Fault (List String)) (path : Option Path)
    (name : String) : Except Fault (List String) :=
  match path with
  | some path => lines path name
  | none => .error .oneSidedScript

/-- Refines a block that has both names, and leaves any other as it is. -/
def refineBlock (script : Script) (block : BlockDiff) : Except Fault BlockDiff :=
  match block.names with
  | .both leftName rightName => do
    let left ← linesOn leftLines script.left? leftName
    let right ← linesOn rightLines script.right? rightName
    return { block with refined := (TextDiff.of left (alignText left right)).changed }
  | _ => .ok block

def refineScript (script : Script) (diff : ScriptDiff) : Except Fault ScriptDiff := do
  if diff.hasDifferences then
    return { diff with paired := ← diff.paired.mapM (refineBlock leftLines rightLines script) }
  else return diff

/-- Refines the scripts that differ, given the lines of each block. -/
def refine (set : DiffSet) : Except Fault DiffSet := do
  return { set with blockDiffs := ← set.blockDiffs.mapM fun (script, diff) => do
    return (script, ← refineScript leftLines rightLines script diff) }

end MovieDiff.Scripts
