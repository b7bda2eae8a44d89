/-!
Choosing correspondences by vote. Each ballot proposes that a name of one text stands for a
name of the other. A pair is elected when each of the two is the other's single favourite.
-/
namespace MovieDiff.Alignment

/-- A name of the text to be renamed, and the anchor's name proposed for it. -/
abbrev Ballot := String × String

/-- The one element that occurs more often than every other one. -/
def favourite? (names : List String) : Option String :=
  let candidates := names.eraseDups
  let best := (candidates.map fun name => names.count name).foldl max 0
  match candidates.filter fun name => names.count name == best with
  | [winner] => some winner
  | _ => none

def proposalsFor (ballots : List Ballot) (name : String) : List String :=
  (ballots.filter (·.1 == name)).map (·.2)

def proposersOf (ballots : List Ballot) (anchor : String) : List String :=
  (ballots.filter (·.2 == anchor)).map (·.1)

/-- The anchor's name elected for a name. -/
def elected? (ballots : List Ballot) (name : String) : Option String :=
  match favourite? (proposalsFor ballots name) with
  | some anchor => if favourite? (proposersOf ballots anchor) = some name then some anchor else none
  | none => none

/-- A renaming, as pairs of an old and a new name. -/
abbrev Renaming := List (String × String)

def elect (ballots : List Ballot) : Renaming :=
  (ballots.map (·.1)).eraseDups.filterMap fun name =>
    (elected? ballots name).map fun anchor => (name, anchor)

def Renaming.get? (table : Renaming) (name : String) : Option String :=
  table.lookup name

end MovieDiff.Alignment
