import MovieDiff.Files.FileSystem
import MovieDiff.Layout.Split
import MovieDiff.Text.Markup

/-!
A run of a command: what it shows, what it does to the files, and how it stops. A run is a
function of the files it finds; its events only grow.
-/
namespace MovieDiff

open Text (StyledText)

inductive Shown where
  | markup (text : String)
  | rule (title : String)
  | table (rows : List (List String))
  | unified (lines : List StyledText) (height : Nat)
  | split (layout : Layout.ShownSplit)
  deriving DecidableEq, Repr

inductive Event where
  | out (items : List Shown)
  | line
  | err (markup : String)
  | run (arguments : List String)
  deriving DecidableEq, Repr

/-- An exit with a code, or a fault that no one handles. -/
inductive Stop where
  | exit (code : Nat)
  | fault (f : Fault)
  deriving DecidableEq, Repr

structure Session where
  files : FileSystem
  events : List Event := []
  extractorCalls : Nat := 0
  deriving DecidableEq, Repr

abbrev Command := ExceptT Stop (StateM Session)

namespace Command

def emit (event : Event) : Command Unit :=
  modify fun s => { s with events := s.events ++ [event] }

def display (item : Shown) : Command Unit :=
  emit (.out [item])

def say (markup : String) : Command Unit :=
  display (.markup markup)

def blankLine : Command Unit :=
  emit .line

def complain (markup : String) : Command Unit :=
  emit (.err ("ERROR: " ++ markup))

def warn (markup : String) : Command Unit :=
  emit (.err ("WARNING: " ++ markup))

def remark (markup : String) : Command Unit :=
  emit (.err ("DEBUG: " ++ markup))

/-- The wording of a fault as markup. -/
def faultText (f : Fault) : String :=
  Text.Markup.escape f.message

def pathText (p : Path) : String :=
  Text.Markup.escape p.text

def exit {α : Type} (code : Nat) : Command α :=
  throw (.exit code)

def fail {α : Type} (markup : String) : Command α := do
  complain markup
  exit 1

def orFault {α : Type} (outcome : Except Fault α) : Command α :=
  match outcome with
  | .ok value => pure value
  | .error f => throw (.fault f)

def files : Command FileSystem := do
  return (← get).files

def reading {α : Type} (f : FileSystem → Except Fault α) : Command α := do
  orFault (f (← files))

def changing (f : FileSystem → Except Fault FileSystem) : Command Unit := do
  let changed ← reading f
  modify fun s => { s with files := changed }

/-- The events and files of a run from given files, and how it stopped; a run to its end exits
with zero. -/
def start (command : Command Unit) (files : FileSystem) : Stop × Session :=
  match command.run.run { files } with
  | (.ok (), session) => (.exit 0, session)
  | (.error stop, session) => (stop, session)

end Command

def Fault.isAbsence (f : Fault) : Bool :=
  f.kind == .missingFile || f.kind == .noSuchFile

end MovieDiff
