import MovieDiff.Scripts.DiffSet
import MovieDiff.Text.Lowercase

/-!
Which blocks are shown, and in what order.
-/
namespace MovieDiff

inductive SortOrder where
  | natural
  | changesDescending
  | changesAscending
  deriving DecidableEq, Repr

/-- The orders by the names under which they are chosen. -/
def SortOrder.named : List (String × SortOrder) :=
  [("natural", .natural), ("changes_desc", .changesDescending), ("changes_asc", .changesAscending)]

/-- Parts of names to look for, in small letters. -/
structure Filter where
  script : Option String := none
  block : Option String := none
  deriving DecidableEq, Repr

def Filter.isSet (filter : Filter) : Bool :=
  filter.script.isSome || filter.block.isSome

namespace Scripts

def isInfix (part : List Char) : List Char → Bool
  | [] => part.isEmpty
  | c :: rest => part.isPrefixOf (c :: rest) || isInfix part rest

def nameHas (part name : String) : Bool :=
  isInfix part.toList (Text.lowercase name).toList

/-- Whether a side has the part that is looked for. -/
def sidesHave (part : Option String) (names : Sides String) : Bool :=
  match part with
  | none => true
  | some part => names.left?.any (nameHas part) || names.right?.any (nameHas part)

def Filter.acceptsScript (filter : Filter) (script : Script) : Bool :=
  match filter.script with
  | none => true
  | some part =>
    script.left?.any (fun p => nameHas part p.text) ||
      script.right?.any (fun p => nameHas part p.text)

def Filter.acceptsBlock (filter : Filter) (block : BlockDiff) : Bool :=
  sidesHave filter.block block.names

/-- A number, then the names. -/
def numberedLe (x y : Int × String × String) : Bool :=
  x.1 < y.1 || x.1 == y.1 && keyLe x.2 y.2

/-- Positions can be compared when all are known or none is. -/
def comparable (blocks : List BlockDiff) : Bool :=
  blocks.all (·.position.isSome) || blocks.all (·.position.isNone)

def positionKey (block : BlockDiff) : Int × String × String :=
  (block.position.getD 0, block.key)

def sortByPosition (blocks : List BlockDiff) : Except Fault (List BlockDiff) :=
  if comparable blocks then
    .ok (blocks.mergeSort fun x y => numberedLe (positionKey x) (positionKey y))
  else .error .incomparablePositions

/-- The refined count as a sort key, in the direction of the order. -/
def changesKey (order : SortOrder) (block : BlockDiff) : Int :=
  match order with
  | .changesDescending => -(block.refined : Int)
  | _ => block.refined

/-- By changes, then by script, then by block. -/
def changesLe (order : SortOrder) (x y : Script × BlockDiff) : Bool :=
  let kx := changesKey order x.2
  let ky := changesKey order y.2
  kx < ky || kx == ky && (x.1.key != y.1.key && keyLe x.1.key y.1.key ||
    x.1.key == y.1.key && keyLe x.2.key y.2.key)

/-- The differing blocks that the filter accepts, in natural order: by script, then by place in
the script. -/
def selectInOrder (set : DiffSet) (filter : Filter) :
    Except Fault (List (Script × BlockDiff)) := do
  let scripts := (set.scriptsWithDifferences.filter (Filter.acceptsScript filter)).mergeSort
    fun x y => keyLe x.key y.key
  let selected ← scripts.mapM fun script => do
    let blocks ← sortByPosition (((set.blockDiff? script).getD {}).differingBlocks)
    return (blocks.filter (Filter.acceptsBlock filter)).map fun block => (script, block)
  return selected.flatten

def select (set : DiffSet) (order : SortOrder) (filter : Filter) :
    Except Fault (List (Script × BlockDiff)) := do
  let found ← selectInOrder set filter
  match order with
  | .natural => return found
  | _ => return found.mergeSort (changesLe order)

end Scripts

end MovieDiff
