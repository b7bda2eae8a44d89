import MovieDiff.Scripts.DiffSet

/-!
Pairing the scripts of two movies by their blocks. A script may be paired with any script of
the same directory; the one of its own path is tried first and taken if it is alike enough.
-/
namespace MovieDiff.Scripts

/-- How much of a script is found in another one: its blocks that have a partner there. -/
structure Candidate where
  path : Path
  diff : TreeDiff
  deriving DecidableEq, Repr

/-- The blocks of the left script that have a partner. -/
def Candidate.found (c : Candidate) : Nat :=
  c.diff.changes.length + c.diff.equal.length

/-- The least share of partnered blocks, in tenths. -/
def pairThreshold : Nat := 9

def isAlike (found blocks : Nat) : Bool :=
  pairThreshold * blocks ≤ 10 * found

/-- The scripts of the same directory by name, the one of the same path first. -/
def candidatePaths (path : Path) (unmatched : List Path) : List Path :=
  let byName := unmatched.mergeSort fun p q => p.name ≤ q.name
  let near := byName.filter fun p => p.parent == path.parent
  if near.contains path then path :: near.erase path else near

/-- The first best candidate. The search ends at the script of the same path if that is alike
enough. -/
def bestCandidate (path : Path) (blocks : Nat) (compare : Path → TreeDiff) :
    Option Candidate → List Path → Option Candidate
  | best, [] => best
  | best, p :: rest =>
    let candidate : Candidate := ⟨p, compare p⟩
    let better := match best with
      | none => candidate
      | some known => if known.found < candidate.found then candidate else known
    if p = path ∧ isAlike candidate.found blocks then some better
    else bestCandidate path blocks compare (some better) rest

/-- Scripts still without a partner, and what is known of the others. -/
structure Search where
  left : List Path
  right : List Path
  set : DiffSet
  deriving DecidableEq, Repr

variable (order : TreeDiff.SearchOrder) (leftBlocks rightBlocks : Path → FileTree)

def matchScript (s : Search) (path : Path) : Except Fault Search :=
  let candidates := candidatePaths path s.right
  let blocks := leftBlocks path
  if candidates.isEmpty then .ok s
  else if blocks.isEmpty then .error .noScriptBlocks
  else
    let compare (p : Path) : TreeDiff := .inOrder order blocks (rightBlocks p)
    match bestCandidate path blocks.length compare none candidates with
    | none => .ok s
    | some best =>
      if !isAlike best.found blocks.length then .ok s
      else do
        let script : Script := .both path best.path
        let set := { s.set with paired := addScript s.set.paired script }
        let set ← set.addFiles script best.diff.changes best.diff.onlyLeft best.diff.onlyRight
        return ⟨s.left.erase path, s.right.erase best.path, set⟩

/-- Pairs the scripts of two movies, given the files of the blocks of each script. -/
def pair (left right : List Path) : Except Fault DiffSet := do
  let found ← (Path.sort left).foldlM (matchScript order leftBlocks rightBlocks) ⟨left, right, {}⟩
  return { found.set with
    onlyLeft := found.left.map Sides.left, onlyRight := found.right.map Sides.right }

end MovieDiff.Scripts
