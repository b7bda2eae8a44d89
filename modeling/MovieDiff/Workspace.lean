import MovieDiff.Files.FileSystem
import MovieDiff.Pcode.BlockFiles
import MovieDiff.Text.Json
import MovieDiff.Text.Sha256

/-!
The directory in which a movie is worked on. What was extracted from the movie lies below one
directory, the normalised scripts below another; no look-up leaves them.
-/
namespace MovieDiff

open Pcode (NormalScript)

/-- The base is absolute and has no double dots. -/
structure Workspace where
  base : Path
  deriving DecidableEq, Repr

namespace Workspace

def ofPath (p : Path) : Workspace :=
  ⟨p.resolve⟩

/-- The name of a workspace for a file: its stem and a digest of where it lies, when it was
changed (in nanoseconds) and how large it is. -/
def nameFor (file : Path) (changed size : Nat) : String :=
  let identity := s!"{file.resolve.text}|{changed}|{size}"
  file.stem ++ "_" ++ Text.Sha256.hexDigest (Text.encode identity)

def extractionDir (w : Workspace) : Path :=
  w.base.child "raw"

def normalizationDir (w : Workspace) : Path :=
  w.base.child "normalized_scripts"

/-- A path inside a directory, or the fault given. No name may hold a null character. -/
def insideOf (dir p : Path) (fault : Fault) : Except Fault Path :=
  let full := (dir ++ p).resolve
  if p.names.any fun name => name.toList.contains '\x00' then .error .nullInPath
  else if full.isWithin dir then .ok full
  else .error fault

def extractionPath (w : Workspace) (p : Path) : Except Fault Path :=
  insideOf w.extractionDir p .outsideExtraction

def normalizationPath (w : Workspace) (p : Path) : Except Fault Path :=
  insideOf w.normalizationDir p .outsideNormalization

variable (fs : FileSystem)

/-- A path at which something lies. -/
def existing (p : Path) (fault : Fault) : Except Fault Path := do
  if ← fs.ask fs.contains p then return p else throw fault

def debugFile (w : Workspace) (name : String) : Except Fault Path := do
  let file ← w.extractionPath (Path.ofString name)
  existing fs file (.debugFileMissing file.text)

def pcodeDebugFile (w : Workspace) : Except Fault Path :=
  w.debugFile fs "debug_pcode.swd"

def sourceDebugFile (w : Workspace) : Except Fault Path :=
  w.debugFile fs "debug_actionscript.swd"

/-- Where a script's file of a kind has to be. -/
def scriptFile (w : Workspace) (script suffix : String) : Except Fault Path := do
  let place ← w.extractionPath (Path.ofString "scripts" ++ Path.ofString script)
  let file := place.withSuffix suffix
  existing fs file (.scriptFileMissing script file.text)

def rawPcodeFile (w : Workspace) (script : String) : Except Fault Path :=
  w.scriptFile fs script ".pcode"

def actionScriptFile (w : Workspace) (script : String) : Except Fault Path :=
  w.scriptFile fs script ".as"

def hasContent (dir : Path) : Bool :=
  fs.isDirectory dir && !(fs.childNames dir).isEmpty

def sameSet {α : Type} [BEq α] (xs ys : List α) : Bool :=
  xs.all ys.contains && ys.all xs.contains

/-- Whether what was extracted looks complete: both debug files, and for every script its p-code
and its ActionScript. -/
def extractionIsValid (w : Workspace) : Bool :=
  let scripts := w.extractionDir.child "scripts"
  let listed (suffix : String) :=
    (fs.listFiles scripts (Glob.ending suffix true)).map (·.withSuffix "")
  fs.isDirectory w.extractionDir && (w.pcodeDebugFile fs).toBool && (w.sourceDebugFile fs).toBool &&
    fs.isDirectory scripts && !(listed ".pcode").isEmpty && !(listed ".as").isEmpty &&
    sameSet (listed ".pcode") (listed ".as")

/-! ### Normalised scripts -/

/-- A text file that has to be well-formed. -/
def readStrict (p : Path) : Except Fault (List Char) := do
  match Text.decodeStrict (← fs.read p) with
  | some cs => return Text.unifyNewlines cs
  | none => throw .undecodableText

/-- The block names that an order file lists, with its blank lines left out. -/
def orderNames (cs : List Char) : List String :=
  (Text.splitLines (String.ofList cs)).filter fun name => !Text.isBlankText name.toList

def blockGlob : Glob := Glob.ending ".pcode" false
def sourceMapGlob : Glob := Glob.ending ".pcode.map" false

/-- Whether a directory holds a whole normalised script: the blocks that the order file lists
and no others, each with its source map. -/
def scriptIsValid (dir : Path) : Bool :=
  let order := dir.child Pcode.orderFileName
  fs.isFile order &&
    match readStrict fs order with
    | .error _ => false
    | .ok cs =>
      let names := orderNames cs
      let blocks := fs.listFiles dir blockGlob
      let maps := fs.listFiles dir sourceMapGlob
      !names.isEmpty && sameSet (blocks.map Path.stem) names &&
        sameSet (blocks.map Path.name) (maps.map fun p => (p.withSuffix "").name)

/-- The directories below the normalised scripts that hold no directory themselves. -/
def innermostDirectories (w : Workspace) : List Path :=
  let dirs := (fs.pathsBelow w.normalizationDir).filter fun p =>
    fs.isDirectory (w.normalizationDir ++ p)
  dirs.filter fun p => !(dirs.any fun q => q.parent == p)

def normalizationIsValid (w : Workspace) : Bool :=
  let dirs := w.innermostDirectories fs
  fs.isDirectory w.normalizationDir && !dirs.isEmpty &&
    dirs.all fun p => scriptIsValid fs (w.normalizationDir ++ p)

def blockFiles (w : Workspace) (script : String) : Except Fault (List Path) := do
  let dir ← w.normalizationPath (Path.ofString script)
  if ← fs.ask fs.isDirectory dir then return fs.listFiles dir blockGlob
  else throw (.blockOrderMissing dir.text)

def blockOrderFile (w : Workspace) (script : String) : Except Fault Path := do
  let file ← w.normalizationPath (Path.ofString script ++ Path.ofString Pcode.orderFileName)
  existing fs file (.blockOrderMissing file.text)

/-- The numbers in an array of nothing else. -/
def numbersOf? : Text.Json → Option (List Int)
  | .array items => items.mapM fun
    | .number text => text.toInt?
    | _ => none
  | _ => none

/-- The source lines that a source map gives for a line, if what it gives are lines. -/
def sourcesAt (sourceMap : Text.Json) (line : Nat) : Except Fault (Option (List Int)) :=
  match sourceMap with
  | .array items =>
    match items[line]? with
    | some entry => .ok (numbersOf? entry)
    | none => .error .lineOutOfRange
  | .string text => if line < text.length then .ok none else .error .textOutOfRange
  | .object _ => .error .missingIndexKey
  | _ => .error .notIndexable

/-- A block and its source map, read back, and whether its source lines are known. -/
def readBlock (file : Path) : Except Fault (Pcode.Block × Bool) := do
  let mapText ← readStrict fs (file.withSuffix ".pcode.map")
  let sourceMap ← match Text.Json.parse? mapText with
    | some value => pure value
    | none => throw .malformedJson
  let lines ← Pcode.readText (String.ofList (Text.decodeLenient (← fs.read file)))
  let sources ← lines.zipIdx.mapM fun (_, i) => sourcesAt sourceMap i
  let sourced := lines.zipWith (fun line found => { line with sources := found.getD [] }) sources
  return (⟨file.stem, sourced⟩, sources.all Option.isSome)

/-- The place of each listed name; of two places the later counts. -/
def placeOf (names : List String) (name : String) : Except Fault Nat :=
  match (names.zipIdx.reverse.find? fun entry => entry.1 == name) with
  | some (_, place) => .ok place
  | none => .error .missingIndexKey

/-- A normalised script, read back in the order of its blocks. -/
def cachedScript (w : Workspace) (script : String) : Except Fault NormalScript := do
  let dir ← w.normalizationPath (Path.ofString script)
  if !(← fs.ask fs.isDirectory dir) then throw (.cacheMissing dir.text)
  let found ← (← w.blockFiles fs script).mapM fun p => readBlock fs (dir ++ p)
  if found.isEmpty then throw (.cacheEmpty dir.text)
  let listed := orderNames (← readStrict fs (← w.blockOrderFile fs script))
  let placed ← found.mapM fun (block, _) => do return (← placeOf listed block.name, block)
  let blocks := (placed.mergeSort fun x y => x.1 ≤ y.1).map (·.2)
  let unsourced := (found.filter fun entry => !entry.2).map (·.1.name)
  return { NormalScript.ofBlocks blocks with unsourced }

end Workspace

end MovieDiff
