import MovieDiff.Command.Session
import MovieDiff.Files.FileTree
import MovieDiff.Workspace

/-!
Extracting the contents of a movie with an extractor, a program of its own. Four calls are
made: the scripts as p-code, the scripts as ActionScript, and a debug file for each of them. The
command that does only this comes last.
-/
namespace MovieDiff

structure ExtractorFailure where
  code : Int
  report : String
  deriving DecidableEq, Repr

/-- An extractor answers its n-th call (from one) with given arguments by changing the files. -/
abbrev Extractor := Nat → List String → FileSystem → Except ExtractorFailure FileSystem

/-- Where the extractor may be found: the kind of system, the programs in the search path, and
which paths are files. -/
structure Surroundings where
  system : String
  program? : String → Option Path
  isFile : Path → Bool

namespace Extractor

/-- Where the extractor is installed by default on one kind of system. -/
def defaultApplication : Path :=
  Path.ofString "/Applications/FFDec.app/Contents/MacOS/FFDec"

/-- Looks for the extractor where it is usually found. -/
def discover? (around : Surroundings) : Option Path :=
  let system := Text.lowercase around.system
  let special :=
    if system = "windows" then (around.program? "ffdec-cli").or (around.program? "ffdec-cli.exe")
    else if system = "darwin" && around.isFile defaultApplication then some defaultApplication
    else none
  special.or ((around.program? "ffdec").or (around.program? "ffdec.sh"))

/-- The path given, which must be a file, or else the one that is discovered. -/
def resolve (around : Surroundings) (given : Option Path) : Except Fault Path :=
  match given with
  | some p =>
    if around.isFile p.resolve then .ok p.resolve else .error (.extractorMissing p.resolve.text)
  | none =>
    match discover? around with
    | some p => .ok p
    | none => .error .extractorUnresolved

inductive Request where
  | scripts (format : String)
  | debugFile (pcode : Bool)
  deriving DecidableEq, Repr

def Request.all : List Request :=
  [.scripts "pcode", .scripts "as", .debugFile true, .debugFile false]

/-- The movie that is written along with a debug file, and is not wanted. -/
def Request.byProduct? (request : Request) (output : Path) : Option Path :=
  match request with
  | .scripts _ => none
  | .debugFile pcode => some (output.child (if pcode then "debug_pcode" else "debug_actionscript"))

def Request.arguments (request : Request) (program movie output : Path) : List String :=
  match request with
  | .scripts format =>
    [program.text, "-format", "script:" ++ format, "-export", "script", output.text, movie.text]
  | .debugFile pcode =>
    [program.text, "-enabledebugging", "-generateswd"] ++ (if pcode then ["-pcode"] else []) ++
      [movie.text, ((request.byProduct? output).getD output).text]

/-- One call of the extractor; a failing one is reported and ends the run. -/
def call (extractor : Extractor) (arguments : List String) : Command Unit := do
  Command.emit (.run arguments)
  let session ← get
  let n := session.extractorCalls + 1
  match extractor n arguments session.files with
  | .ok changed => set { session with files := changed, extractorCalls := n }
  | .error failure =>
    set { session with extractorCalls := n }
    Command.complain s!"ffdec failed with code {failure.code}:"
    if !failure.report.isEmpty then Command.complain (Text.Markup.escape failure.report)
    Command.exit 1

def perform (extractor : Extractor) (program movie output : Path) (request : Request) :
    Command Unit := do
  call extractor (request.arguments program movie output)
  match request.byProduct? output with
  | some p => Command.changing fun fs => fs.removeFile p
  | none => pure ()

/-- Extracts everything into a directory. -/
def extract (extractor : Extractor) (program movie output : Path) : Command Unit :=
  Request.all.forM (perform extractor program movie output)

end Extractor

/-- What a command needs to know beyond its options and files: the width of the console, the
extractor, how a workspace is named for a file, the directory of temporary ones, and the order in
which files without a partner are gone through. -/
structure Environment where
  width : Nat
  extractor : Extractor
  around : FileSystem → Surroundings
  workspaceName : Path → String
  temporaryDir : Path
  searchOrder : TreeDiff.SearchOrder := .listed

def Environment.temporaryWorkspace (env : Environment) (file : Path) : Workspace :=
  .ofPath (env.temporaryDir.child (env.workspaceName file))

/-- The extractor's path, or a complaint that ends the run. -/
def Environment.findExtractor (env : Environment) (given : Option Path) : Command Path := do
  match Extractor.resolve (env.around (← Command.files)) given with
  | .ok p => return p
  | .error f => Command.fail (Command.faultText f)

namespace Command

/-- Extracts a movie into a directory, which is emptied first; without one the extraction
directory of the movie's temporary workspace is used. -/
def extract (env : Environment) (input : Path) (output extractor : Option Path) :
    Command Unit := do
  let input := input.resolve
  if !(← files).isFile input then
    fail s!"Invalid input: {pathText input} does not exist or is not a file."
  let output := match output with
    | some dir => dir.resolve
    | none => (env.temporaryWorkspace input).extractionDir
  let program ← env.findExtractor extractor
  say s!"Using ffdec at {pathText program}"
  let name := Text.Markup.escape input.name
  say s!"Extracting {name} contents in: {pathText output}"
  changing fun fs => fs.makeEmptyDirectory output
  env.extractor.extract program input output
  say "[green]Extraction complete.[/green]"

end Command

end MovieDiff
