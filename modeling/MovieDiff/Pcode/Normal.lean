import MovieDiff.Pcode.Canonical.Labels
import MovieDiff.Pcode.Canonical.Literals
import MovieDiff.Pcode.Canonical.Patterns
import MovieDiff.Pcode.Canonical.Registers
import MovieDiff.Pcode.Reader
import MovieDiff.Pcode.Split

/-!
The normal form of a block: all canonical spellings, one after the other. A normalised file is
the list of its normalised blocks, from which the files that hold it are written.
-/
namespace MovieDiff.Pcode

inductive Pass where
  | pushes
  | literals
  | headers
  | registers
  | unusedLabels
  | labels
  | doubleNots
  | unitSteps
  | constantPools
  | strings
  | urlMethods
  deriving DecidableEq, Repr

/-- The steps in the order in which they are taken. -/
def Pass.all : List Pass :=
  [.pushes, .literals, .headers, .registers, .unusedLabels, .labels, .doubleNots, .unitSteps,
   .constantPools, .strings, .urlMethods]

def Pass.run (pass : Pass) (lines : List Line) : Except Fault (List Line) :=
  match pass with
  | .pushes => .ok (splitPushes lines)
  | .literals => .ok (plainLiterals lines)
  | .headers => .ok (plainHeaders lines)
  | .registers => renumberRegisters lines
  | .unusedLabels => .ok (dropUnusedLabels lines)
  | .labels => .ok (renumberLabels lines)
  | .doubleNots => .ok (dropDoubleNots lines)
  | .unitSteps => .ok (foldUnitSteps lines)
  | .constantPools => .ok (emptyConstantPools lines)
  | .strings => .ok (joinStrings lines)
  | .urlMethods => .ok (zeroUrlMethods lines)

def normalizeLines (lines : List Line) : Except Fault (List Line) :=
  Pass.all.foldlM (fun lines pass => pass.run lines) lines

def normalizeBlock (block : Block) : Except Fault Block := do
  return { block with lines := ← normalizeLines block.lines }

/-- Splits lines into blocks and brings each into normal form. -/
def normalizeScript (lines : List Line) : Except Fault (List Block) := do
  (← splitBlocks lines).mapM normalizeBlock

end MovieDiff.Pcode
