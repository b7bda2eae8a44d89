import MovieDiff.Files.Glob
import MovieDiff.Text.Utf8

/-!
A file system as a value: the entries below the root directory, without links. A path is walked
name by name: each name but the last has to be a directory, and a double dot goes back up.
-/
namespace MovieDiff

abbrev Bytes := List UInt8

inductive Entry where
  | file (content : Bytes)
  | directory
  deriving DecidableEq, Repr

/-- Entries by their names from the root down; of two with the same names the first counts. -/
structure FileSystem where
  entries : List (List String × Entry)
  deriving DecidableEq, Repr

namespace FileSystem

def empty : FileSystem := ⟨[]⟩

/-- The entry at a place, given by its names from the root down. -/
def entryAt? (fs : FileSystem) : List String → Option Entry
  | [] => some .directory
  | names => fs.entries.lookup names

/-- The most bytes that a name may have. -/
def nameLimit : Nat := 255

def fits (name : String) : Bool :=
  name.utf8ByteSize ≤ nameLimit

/-- One name further from a place, which has to be a directory; `p` is the whole path. -/
def enter (fs : FileSystem) (p : Path) (place : List String) (name : String) :
    Except Fault (List String) :=
  match fs.entryAt? place with
  | some .directory =>
    if !fits name then .error (.nameTooLong p.text)
    else .ok (if name = ".." then place.dropLast else place ++ [name])
  | some (.file _) => .error (.notADirectory p.text)
  | none => .error (.noSuchFile p.text)

/-- The place that a path leads to; nothing needs to be there. -/
def locate (fs : FileSystem) (p : Path) : Except Fault (List String) :=
  p.names.foldlM (fs.enter p) []

def entry? (fs : FileSystem) (p : Path) : Option Entry :=
  match fs.locate p with
  | .ok place => fs.entryAt? place
  | .error _ => none

def isFile (fs : FileSystem) (p : Path) : Bool :=
  match fs.entry? p with
  | some (.file _) => true
  | _ => false

def isDirectory (fs : FileSystem) (p : Path) : Bool :=
  fs.entry? p == some .directory

def contains (fs : FileSystem) (p : Path) : Bool :=
  (fs.entry? p).isSome

/-- The answer to a question about a path, on which no name may be too long. -/
def ask (fs : FileSystem) (question : Path → Bool) (p : Path) : Except Fault Bool :=
  match fs.locate p with
  | .error (.nameTooLong path) => .error (.nameTooLong path)
  | _ => .ok (question p)

def read (fs : FileSystem) (p : Path) : Except Fault Bytes := do
  match fs.entryAt? (← fs.locate p) with
  | some (.file content) => return content
  | some .directory => throw (.isADirectory p.text)
  | none => throw (.noSuchFile p.text)

def put (fs : FileSystem) (place : List String) (entry : Entry) : FileSystem :=
  ⟨(place, entry) :: fs.entries.filter fun e => e.1 ≠ place⟩

/-- Writes a file into a directory that exists. -/
def write (fs : FileSystem) (p : Path) (content : Bytes) : Except Fault FileSystem := do
  let place ← fs.locate p
  if fs.entryAt? place == some .directory then throw (.isADirectory p.text)
  return fs.put place (.file content)

/-- A file system under change, and a place in it. -/
structure Walk where
  files : FileSystem
  place : List String
  deriving DecidableEq, Repr

/-- Goes to a name below a place and makes a directory there if nothing is. -/
def Walk.enter (p : Path) (w : Walk) (name : String) : Except Fault Walk :=
  if name = ".." then .ok ⟨w.files, w.place.dropLast⟩
  else if !fits name then .error (.nameTooLong p.text)
  else
    let place := w.place ++ [name]
    match w.files.entryAt? place with
    | some .directory => .ok ⟨w.files, place⟩
    | some (.file _) => .error (.fileExists p.text)
    | none => .ok ⟨w.files.put place .directory, place⟩

/-- Makes a directory and those above it where they are missing. Where the way to it leads
through a file, that is no directory; where a file stands in its own place, it exists. -/
def makeDirectories (fs : FileSystem) (p : Path) : Except Fault FileSystem :=
  match fs.locate p with
  | .error (.notADirectory path) => .error (.notADirectory path)
  | _ => return (← p.names.foldlM (Walk.enter p) ⟨fs, []⟩).files

/-- Writes a file and makes the directories above it where they are missing. -/
def install (fs : FileSystem) (p : Path) (content : Bytes) : Except Fault FileSystem := do
  (← fs.makeDirectories p.parent).write p content

/-- Removes an entry and all below it. -/
def erase (fs : FileSystem) (place : List String) : FileSystem :=
  ⟨fs.entries.filter fun e => !place.isPrefixOf e.1⟩

def removeTree (fs : FileSystem) (p : Path) : Except Fault FileSystem := do
  let place ← fs.locate p
  match fs.entryAt? place with
  | some .directory => return fs.erase place
  | some (.file _) => throw (.notADirectory p.text)
  | none => throw (.noSuchFile p.text)

def removeFile (fs : FileSystem) (p : Path) : Except Fault FileSystem := do
  let place ← fs.locate p
  match fs.entryAt? place with
  | some (.file _) => return fs.erase place
  | some .directory => throw (.isADirectory p.text)
  | none => throw (.noSuchFile p.text)

/-- Goes on with the same files where something was not there. -/
def orAbsent (fs : FileSystem) : Except Fault FileSystem → Except Fault FileSystem
  | .error (.noSuchFile _) => .ok fs
  | outcome => outcome

/-- Makes a path an empty directory, whatever it was before. -/
def makeEmptyDirectory (fs : FileSystem) (p : Path) : Except Fault FileSystem := do
  let cleared ← fs.orAbsent (if fs.isDirectory p then fs.removeTree p else fs.removeFile p)
  cleared.makeDirectories p

def namesAt (fs : FileSystem) (place : List String) : List String :=
  (fs.entries.filterMap fun e =>
    if e.1.length = place.length + 1 ∧ e.1.dropLast = place then e.1.getLast? else none).mergeSort

def childNames (fs : FileSystem) (p : Path) : List String :=
  match fs.locate p with
  | .ok place => fs.namesAt place
  | .error _ => []

/-- All entries below a directory, relative to it and sorted. -/
def pathsBelow (fs : FileSystem) (p : Path) : List Path :=
  match fs.locate p with
  | .ok place =>
    Path.sort (fs.entries.filterMap fun e =>
      if place.isPrefixOf e.1 ∧ place.length < e.1.length then
        some ⟨.none, e.1.drop place.length⟩
      else none)
  | .error _ => []

/-- What the steps of a pattern select below a directory, starting from a path relative to it.
All but the last step select directories. -/
def select (fs : FileSystem) (dir : Path) : List GlobStep → Path → List Path
  | [], p => [p]
  | .exactly name :: rest, p =>
    let next := p.child name
    if if rest.isEmpty then fs.contains (dir ++ next) else fs.isDirectory (dir ++ next) then
      fs.select dir rest next
    else []
  | .matching pattern :: rest, p =>
    (fs.childNames (dir ++ p)).flatMap fun name =>
      if Glob.matchesName pattern name.toList &&
          (rest.isEmpty || fs.isDirectory (dir ++ p.child name)) then
        fs.select dir rest (p.child name)
      else []
  | .anyDepth :: rest, p =>
    (p :: ((fs.pathsBelow (dir ++ p)).map (p ++ ·)).filter fun q =>
      fs.isDirectory (dir ++ q)).flatMap (fs.select dir rest)

/-- The files below a directory that a pattern selects, relative to it, each once and sorted. -/
def listFiles (fs : FileSystem) (dir : Path) (glob : Glob) : List Path :=
  if fs.isDirectory dir && !glob.directoriesOnly then
    (Path.sort ((fs.select dir glob.steps .empty).filter fun p => fs.isFile (dir ++ p))).eraseReps
  else []

end FileSystem

/-- The lines of a file; ill-formed bytes become replacement characters. -/
def Bytes.lines (bytes : Bytes) : List String :=
  Text.splitLines (String.ofList (Text.unifyNewlines (Text.decodeLenient bytes)))

def FileSystem.readLines (fs : FileSystem) (p : Path) : Except Fault (List String) :=
  (fs.read p).map Bytes.lines

end MovieDiff
