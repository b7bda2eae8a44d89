import MovieDiff.Command.Console
import MovieDiff.Command.Invocation

/-!
The command line. Everything that a command may look at is read first; the command then runs on
that value, and what it changed is written back. No program is started from here: the scripts of
a movie have to be in its workspace already.
-/
namespace MovieDiff.CommandLine

/-- Reads an entry and, of a directory, all below it. -/
partial def load (deep : Bool) (p : Path) (fs : FileSystem) : IO FileSystem := do
  match ← (IO.FS.realPath p.text).toBaseIO with
  | .error _ => return fs
  | .ok file =>
    if ← file.isDir then
      let mut found := (fs.makeDirectories p).toOption.getD fs
      if deep then
        for entry in ← file.readDir do
          found ← load deep (p.child entry.fileName) found
      return found
    else if ← file.pathExists then
      let content ← IO.FS.readBinFile file
      return (fs.install p content.toList).toOption.getD fs
    else return fs

def namesText (names : List String) : String :=
  (Path.mk .slash names).text

/-- Removes what is gone, the innermost first. -/
def removeGone (before after : FileSystem) : IO Unit := do
  let gone := before.entries.filter fun e => (after.entries.lookup e.1) != some e.2
  for (names, entry) in gone.mergeSort fun x y => y.1.length ≤ x.1.length do
    match entry with
    | .file _ => IO.FS.removeFile (namesText names)
    | .directory => IO.FS.removeDir (namesText names)

/-- Writes what is new, the outermost first. -/
def writeNew (before after : FileSystem) : IO Unit := do
  let new := after.entries.filter fun e => (before.entries.lookup e.1) != some e.2
  for (names, entry) in new.mergeSort fun x y => x.1.length ≤ y.1.length do
    match entry with
    | .file content => IO.FS.writeBinFile (namesText names) ⟨content.toArray⟩
    | .directory => IO.FS.createDirAll (namesText names)

/-- The name of the workspace of a file that exists. -/
def workspaceName (p : Path) : IO (Path × String) := do
  match ← (IO.FS.realPath p.text).toBaseIO with
  | .error _ => return (p, p.stem)
  | .ok file =>
    match ← file.metadata.toBaseIO with
    | .error _ => return (p, p.stem)
    | .ok data =>
      let changed := data.modified.sec.toNat * 1000000000 + data.modified.nsec.toNat
      return (p, Workspace.nameFor p changed data.byteSize.toNat)

def findPrograms (names : List String) : IO (List (String × Path)) := do
  let search := (← IO.getEnv "PATH").getD ""
  let mut found := []
  for dir in Text.splitAtChar ':' search.toList do
    for name in names do
      let p := Path.ofString (String.ofList dir ++ "/" ++ name)
      match ← (IO.FS.realPath p.text).toBaseIO with
      | .ok file =>
        if (← file.pathExists) && !(← file.isDir) then found := found ++ [(name, p)]
      | .error _ => pure ()
  return found

def temporaryDir : IO Path := do
  return (Path.ofString ((← IO.getEnv "TMPDIR").getD "/tmp")).child "movie-diff"

def noExtractor : Extractor := fun _ _ _ =>
  .error ⟨127, "Extract the scripts into the workspace first."⟩

def environment (invocation : Invocation) : IO Environment := do
  let width := ((← IO.getEnv "COLUMNS").bind String.toNat?).getD 80
  let programs ← findPrograms ["ffdec", "ffdec.sh", "ffdec-cli", "ffdec-cli.exe"]
  let names ← invocation.inputs.mapM fun p => workspaceName p.resolve
  return {
    width
    extractor := noExtractor
    around := fun fs => ⟨"Linux", fun name => programs.lookup name, fs.isFile⟩
    workspaceName := fun p => (names.lookup p).getD p.stem
    temporaryDir := ← temporaryDir }

def present (event : Event) : IO Unit :=
  match event.text? with
  | some text => if event.isError then IO.eprintln text else IO.println text
  | none => pure ()

def execute (invocation : Invocation) : IO UInt32 := do
  let env ← environment invocation
  let mut fs := FileSystem.empty
  for p in invocation.inputs do fs ← load false p.resolve fs
  for p in env.temporaryDir :: invocation.places do fs ← load true p.resolve fs
  let (stop, session) := (invocation.command env).start fs
  for event in session.events do present event
  removeGone fs session.files
  writeNew fs session.files
  match stop with
  | .exit code => return UInt32.ofNat code
  | .fault f =>
    IO.eprintln f.message
    return 1

end MovieDiff.CommandLine

open MovieDiff in
def main (arguments : List String) : IO UInt32 := do
  match Invocation.parse arguments with
  | .error e =>
    IO.eprintln e.message
    return 2
  | .ok invocation =>
    let here := Path.ofString (← IO.currentDir).toString
    CommandLine.execute (invocation.under here)
