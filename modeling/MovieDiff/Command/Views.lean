import MovieDiff.Command.Movie
import MovieDiff.Display.BlockView
import MovieDiff.Scripts.Selection

/-!
The blocks of a diff set as they are to be shown, in p-code or in ActionScript.
-/
namespace MovieDiff

open Display (BlockView BlockSide Language)
open DebugInfo (DebugFile LineMap)

/-- The blocks to show; a filter that accepts none is a fault. -/
def selectBlocks (set : DiffSet) (order : SortOrder) (filter : Filter) :
    Except Fault (List (Script × BlockDiff)) := do
  let selected ← Scripts.select set order filter
  if filter.isSet && selected.isEmpty then throw .noFilterMatch
  return selected

def findBlocks (left right : Movie) (script : Script) (names : Sides String) :
    Except Fault (Option Pcode.Block × Option Pcode.Block) := do
  let blocks (movie : Movie) (path : Option Path) := (path.map movie.blocksOf).getD []
  return (← Display.findBlock (blocks left script.left?) names.left?,
    ← Display.findBlock (blocks right script.right?) names.right?)

def pcodeBlockView (left right : Movie) (script : Script) (block : BlockDiff) :
    Except Fault BlockView := do
  let (leftBlock, rightBlock) ← findBlocks left right script block.names
  let view ← Display.pcodeView block.names (leftBlock.map (·.lines)) (rightBlock.map (·.lines))
  let pairs ← Display.assemble view.left view.right view.spans
  return { script, names := block.names, pairs, language := .pcode,
           leftResolved := true, rightResolved := true }

def pcodeViews (left right : Movie) (selected : List (Script × BlockDiff)) :
    Except Fault (List BlockView) :=
  selected.mapM fun (script, block) => pcodeBlockView left right script block

def movieMaps (fs : FileSystem) (movie : Movie) (scripts : List (Option Path)) :
    Except Fault (Keyed String LineMap) := do
  let pcode ← DebugFile.parse (← fs.read (← movie.workspace.pcodeDebugFile fs))
  let source ← DebugFile.parse (← fs.read (← movie.workspace.sourceDebugFile fs))
  return DebugInfo.lineMaps pcode source (some ((scripts.filterMap id).map Path.text))

def scriptMap (maps : Keyed String LineMap) (script : String) : Except Fault LineMap :=
  match Keyed.get? maps script with
  | some table => .ok table
  | none => .error (.scriptNotInDebugFile script)

def sourcesOf (block : Option Pcode.Block) : Option (List (List Int)) :=
  block.map fun block => block.lines.map (·.sources)

/-- The line map of a block, whose source lines have to be known; without a block it is empty. -/
def blockMapOf (movie : Movie) (script : Path) (table : LineMap) :
    Option Pcode.Block → Except Fault LineMap
  | some block =>
    if movie.isSourced script block.name then
      Display.blockMap (block.lines.map (·.sources)) table
    else .error .notALine
  | none => .ok []

def actionScriptLines (fs : FileSystem) (w : Workspace) (script : String) :
    Except Fault (List String) := do
  let file ← w.actionScriptFile fs script
  if !fs.isFile file then throw (.actionScriptMissing (Text.Markup.escape file.text))
  fs.readLines file

def fallbackText : String :=
  "[yellow]Unable to map pcode lines to ActionScript source for this block. " ++
    "Falling back to normalized p-code.[/yellow]"

/-- A block in ActionScript, or in p-code where its ActionScript cannot be told. -/
def sourceBlockView (fs : FileSystem) (left right : Movie)
    (leftMaps rightMaps : Keyed String LineMap) (leftPath rightPath : Path) (block : BlockDiff) :
    Except Fault BlockView := do
  let script : Script := .both leftPath rightPath
  let (leftBlock, rightBlock) ← findBlocks left right script block.names
  let leftTable ← scriptMap leftMaps leftPath.text
  let rightTable ← scriptMap rightMaps rightPath.text
  let leftMap ← blockMapOf left leftPath leftTable leftBlock
  let rightMap ← blockMapOf right rightPath rightTable rightBlock
  let leftLines ← actionScriptLines fs left.workspace leftPath.text
  let rightLines ← actionScriptLines fs right.workspace rightPath.text
  let leftSide (name : String) : BlockSide :=
    ⟨some leftPath, name, sourcesOf leftBlock, leftMap, leftLines.length⟩
  let rightSide (name : String) : BlockSide :=
    ⟨some rightPath, name, sourcesOf rightBlock, rightMap, rightLines.length⟩
  let spans ← Display.resolveBlock (block.names.mapSides leftSide rightSide) block.spans
  if spans.isEmpty then
    let view ← Display.pcodeView block.names (leftBlock.map (·.lines)) (rightBlock.map (·.lines))
    let pairs ← Display.assemble view.left view.right view.spans
    return { script, names := block.names, pairs, language := .pcode, messages := [fallbackText],
             leftResolved := block.names.left?.isNone || !view.spans.isEmpty,
             rightResolved := block.names.right?.isNone || !view.spans.isEmpty }
  else
    let pairs ← Display.assemble leftLines rightLines spans
    return { script, names := block.names, pairs, language := .actionScript,
             leftResolved := block.names.left?.isNone || spans.any (·.left?.isSome),
             rightResolved := block.names.right?.isNone || spans.any (·.right?.isSome) }

def sourceViews (fs : FileSystem) (left right : Movie) (selected : List (Script × BlockDiff)) :
    Except Fault (List BlockView) := do
  let leftMaps ← movieMaps fs left (selected.map (·.1.left?))
  let rightMaps ← movieMaps fs right (selected.map (·.1.right?))
  let views ← selected.mapM fun (script, block) =>
    match script with
    | .both a b => do
      return [← sourceBlockView fs left right leftMaps rightMaps a b block]
    | _ => .ok []
  return views.flatten

def blockViews (fs : FileSystem) (language : Language) (order : SortOrder) (filter : Filter)
    (left right : Movie) (set : DiffSet) : Except Fault (List BlockView) := do
  let selected ← selectBlocks set order filter
  match language with
  | .actionScript => sourceViews fs left right selected
  | .pcode => pcodeViews left right selected

end MovieDiff
