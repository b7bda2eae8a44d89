import MovieDiff.Fault
import MovieDiff.Path
import MovieDiff.Sides

/-!
The titles of scripts and blocks, in markup.
-/
namespace MovieDiff.Scripts

def pathTitle (path : Path) : String :=
  let name := s!"[bright_cyan]{path.name}[/bright_cyan]"
  if path.parent = .empty then name else path.parent.text ++ "/" ++ name

/-- A script, with its new path if that is another one. -/
def scriptTitle (path : Path) (newPath : Option Path) : String :=
  match newPath with
  | some new =>
    if path = new then pathTitle path
    else pathTitle path ++ " [bright_white]→[/bright_white] " ++ pathTitle new
  | none => pathTitle path

/-- A block, with its new name if that is another one. -/
def blockTitle (name : String) (newName : Option String) : String :=
  let title := "[bright_yellow]❖[/bright_yellow] " ++ name
  match newName with
  | some new => if name = new then title else title ++ " [bright_yellow]→[/bright_yellow] " ++ new
  | none => title

/-- The title of a block by its names; an empty left name gives way to the right one, which has
to be there then. -/
def namesTitle : Sides String → Except Fault String
  | .left name => if name.isEmpty then .error .untitledBlock else .ok (blockTitle name none)
  | .right name => .ok (blockTitle name (some name))
  | .both left right => .ok (blockTitle (if left.isEmpty then right else left) (some right))

end MovieDiff.Scripts
