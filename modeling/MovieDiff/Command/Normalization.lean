import MovieDiff.Command.Session
import MovieDiff.Scripts.Title
import MovieDiff.Workspace

/-!
Normalising scripts into the files of their blocks.
-/
namespace MovieDiff

open Pcode (NormalScript)

/-- The blocks of a p-code file in normal form. -/
def normalizeBytes (bytes : Bytes) : Except Fault (List Pcode.Block) := do
  Pcode.normalizeScript (← Pcode.readText (String.ofList (Text.decodeLenient bytes)))

namespace Command

def writeBlocks (output : Path) (blocks : List Pcode.Block) (withSourceMaps : Bool) :
    Command Unit :=
  (Pcode.scriptFiles withSourceMaps blocks).forM fun (name, text) =>
    changing fun fs => fs.write (output.child name) (Text.encode text)

def normalizeFile (input output : Path) (withSourceMaps : Bool) : Command NormalScript := do
  let blocks ← reading fun fs => do normalizeBytes (← fs.read input)
  changing fun fs => fs.makeDirectories output
  writeBlocks output blocks withSourceMaps
  return .ofBlocks blocks

/-- A cached script, if it is there; a missing one is worth a warning. -/
def cachedScript? (w : Workspace) (script dir : Path) : Command (Option NormalScript) := do
  match w.cachedScript (← files) script.text with
  | .ok found => return some found
  | .error f =>
    if f.isAbsence then
      warn s!"Normalization cache missing: {pathText dir}."
      return none
    else throw (.fault f)

/-- Normalises a script afresh; a failure is reported and ends the run. -/
def normalizeAfresh (raw dir : Path) : Command NormalScript := do
  changing fun fs => fs.makeEmptyDirectory dir
  tryCatch (normalizeFile raw dir true) fun stop =>
    match stop with
    | .exit code => exit code
    | .fault f => do
      complain s!"Normalization failed: {pathText raw}"
      fail (faultText f)

def normalizeScript (w : Workspace) (readCache : Bool) (script : Path) :
    Command (Path × NormalScript) := do
  let raw ← reading fun fs => w.rawPcodeFile fs script.text
  let dir ← orFault (w.normalizationPath script)
  let cached ← if readCache then cachedScript? w script dir else pure none
  match cached with
  | some found => return (script, found)
  | none => return (script, ← normalizeAfresh raw dir)

/-- Whether cached scripts are to be used: they are wanted, there are any, and they look
whole. -/
def useCache (w : Workspace) (wanted : Bool) : Command Bool := do
  let fs ← files
  if !(wanted && Workspace.hasContent fs w.normalizationDir) then return false
  if w.normalizationIsValid fs then return true
  warn ("Normalization directory is not empty, but it appears partial, corrupted, or " ++
    "unrelated. Overwriting.")
  return false

def statsRow (result : Path × NormalScript) : List String :=
  let (script, stats) := result
  [Scripts.scriptTitle script none, s!"{stats.total} blocks", s!"{stats.named} named",
   s!"{stats.anonymous} anonymous", s!"{stats.toplevel} top-level"]

/-- Normalises the scripts of a movie and shows how many blocks each has. -/
def normalizeScripts (movie : Path) (w : Workspace) (scripts : List Path) (wanted : Bool) :
    Command (List (Path × NormalScript)) := do
  let readCache ← useCache w wanted
  let results ← scripts.mapM (normalizeScript w readCache)
  say s!"{pathText movie}:"
  let sorted := results.mergeSort fun x y => x.1.le y.1
  display (.table (sorted.map statsRow))
  return results

def normalize (input output : Path) (withSourceMaps : Bool) : Command Unit := do
  let input := input.resolve
  if !(← files).isFile input then
    fail s!"Invalid input: {pathText input} does not exist or is not a file."
  let stats ← normalizeFile input output.resolve withSourceMaps
  let name := Text.Markup.escape input.name
  emit (.out [.markup s!"{name}: split into {stats.total} blocks",
    .markup s!"({stats.named} named, {stats.anonymous} anonymous, {stats.toplevel} top-level)"])
  say "[green]Normalization complete.[/green]"

end Command

end MovieDiff
