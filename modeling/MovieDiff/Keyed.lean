/-!
Values by key, in the order in which the keys were first put.
-/
namespace MovieDiff

abbrev Keyed (κ α : Type) := List (κ × α)

namespace Keyed

variable {κ α : Type} [DecidableEq κ]

def get? (table : Keyed κ α) (key : κ) : Option α :=
  table.lookup key

/-- A key that is there keeps its place and takes the new value. -/
def put (key : κ) (value : α) : Keyed κ α → Keyed κ α
  | [] => [(key, value)]
  | entry :: rest =>
    if entry.1 = key then (key, value) :: rest else entry :: put key value rest

def ofList (entries : List (κ × α)) : Keyed κ α :=
  entries.foldl (fun table (key, value) => put key value table) []

end Keyed

end MovieDiff
