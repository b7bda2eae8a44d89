import MovieDiff.Command.Extraction
import MovieDiff.Path

/-!
One of the movies of a comparison, and its extraction.
-/
namespace MovieDiff

/-- A movie, the workspace it is worked on in, and its scripts once they are normalised. -/
structure Movie where
  file : Path
  workspace : Workspace
  scripts : List (Path × Pcode.NormalScript) := []

namespace Movie

def blocksOf (movie : Movie) (script : Path) : List Pcode.Block :=
  ((movie.scripts.lookup script).map (·.blocks)).getD []

def isSourced (movie : Movie) (script : Path) (name : String) : Bool :=
  (movie.scripts.lookup script).all fun normal => !normal.unsourced.contains name

end Movie

namespace Command

/-- Extracts a movie unless it was extracted before. -/
def extractMovie (env : Environment) (program : Path) (movie : Movie) (useCache : Bool) :
    Command Unit := do
  let dir := movie.workspace.extractionDir
  let address := Text.Markup.escape (dir.address)
  say s!"{pathText movie.file} -> [link={address}]{pathText dir}[/link]"
  let fs ← files
  if useCache && Workspace.hasContent fs dir then
    if movie.workspace.extractionIsValid fs then
      say "Extracted content already present in the target directory. Skipping."
      return
    warn ("Extraction directory is not empty, but it appears partial, corrupted, or unrelated. " ++
      "Re-extracting.")
  changing fun fs => fs.orAbsent (fs.removeTree dir)
  changing fun fs => fs.makeDirectories dir
  env.extractor.extract program movie.file dir

end Command

end MovieDiff
