import MovieDiff.Command.BlockReport
import MovieDiff.Command.Extraction
import MovieDiff.DebugInfo.LineMap
import MovieDiff.Pcode.Normal

/-!
The command that shows which ActionScript line each p-code line of a block comes from.
-/
namespace MovieDiff.Command

open DebugInfo (DebugFile LineMap)
open Layout (PaneRow)

structure SourceMapOptions where
  script : String
  /-- The block to show; without one the blocks are listed. -/
  block : Option String := none
  workspace : Option Path := none
  normalized : Bool := false

/-- The text of a line of a script. Lines past the end are blank; a line before the first counts
from the end. -/
def lineText (lines : List String) (line : Int) : Except Fault String :=
  if (lines.length : Int) ≤ line then .ok ""
  else
    let place := if line < 0 then line + lines.length else line
    match (if place < 0 then none else lines[place.toNat]?) with
    | some text => .ok text
    | none => .error .lineOutOfRange

/-- The ActionScript row beside a p-code line: that of the line itself, or dimly that of the last
line that had one. -/
def sourceRow (lines : List String) (mapped last : Option Int) : Except Fault PaneRow := do
  let text ← match mapped.or last with
    | some line => lineText lines line
    | none => pure ""
  let gutter := ((mapped.or last).map fun line => toString (line + 1)).getD "~"
  return PaneRow.make gutter text (if mapped.isSome then "" else "dim")

/-- The rows of both panes, one for each source line. -/
def mappedRows (table : LineMap) (lines : List String) (last : Option Int) :
    List (Int × String) → Except Fault (List (PaneRow × PaneRow))
  | [] => .ok []
  | (source, text) :: rest => do
    let mapped := table.line? source
    let row ← sourceRow lines mapped last
    return (.make (toString (source + 1)) text "", row) ::
      (← mappedRows table lines (mapped.or last) rest)

/-- A p-code line once for each of its source lines. -/
def sourcedTexts (lines : List Pcode.Line) : List (Int × String) :=
  lines.flatMap fun line => line.sources.map fun source => (source, line.render)

/-- The workspace asked for, or the temporary one of the movie. -/
def sourceMapWorkspace (env : Environment) (movie : Path) (dir : Option Path) :
    Command Workspace := do
  match dir with
  | none => return env.temporaryWorkspace movie
  | some dir =>
    if !(← files).isDirectory dir then
      fail s!"Workspace directory not found: {pathText dir}. Run 'kcd-gfx extract' first."
    return .ofPath dir

def listBlocks (blocks : List Pcode.Block) : Command Unit := do
  say "Available blocks:"
  blocks.forM fun block => say ("  " ++ block.name)

/-- The block of a name; without one the names there are come with the complaint. -/
def pickBlock (script name : String) (blocks : List Pcode.Block) : Command Pcode.Block := do
  match blocks.find? fun block => block.name == name with
  | some block => return block
  | none =>
    complain ("Block " ++ Text.quoted name ++ " not found in script " ++ Text.quoted script ++ ".")
    fail ("Available blocks: " ++ ", ".intercalate (blocks.map (·.name)))

/-- Both debug files of a movie; a missing one ends the run. -/
def debugFiles (w : Workspace) : Command (DebugFile × DebugFile) := do
  let fs ← files
  let read (file : Except Fault Path) : Except Fault DebugFile := do
    DebugFile.parse (← fs.read (← file))
  let both : Except Fault (DebugFile × DebugFile) := do
    return (← read (w.pcodeDebugFile fs), ← read (w.sourceDebugFile fs))
  match both with
  | .ok found => return found
  | .error f => if f.isAbsence then fail (faultText f) else throw (.fault f)

def showSourceMap (width : Nat) (w : Workspace) (script name : String) (block : Pcode.Block) :
    Command Unit := do
  let (pcode, source) ← debugFiles w
  let table ← match Keyed.get? (DebugInfo.lineMaps pcode source (some [script])) script with
    | some table => pure table
    | none => fail (Fault.message (.scriptNotInDebugFile script))
  let file ← orFault (w.extractionPath (Path.ofString ("scripts/" ++ script ++ ".as")))
  if !(← files).isFile file then fail s!"ActionScript file not found: {pathText file}"
  let lines ← reading fun fs => fs.readLines file
  display (.rule (titleRule s!"[bold cyan]{script}[/bold cyan]" (Scripts.blockTitle name none)))
  blankLine
  let rows ← orFault (mappedRows table lines none (sourcedTexts block.lines))
  let layout ← orFault (Layout.split width Layout.defaultSpacing true
    (.lines (rows.map (·.1))) (.lines (rows.map (·.2))))
  display (.split layout)

def sourceMap (env : Environment) (options : SourceMapOptions) (movie : Path) : Command Unit := do
  let movie := movie.resolve
  if !(← files).isFile movie then fail s!"Invalid input: {pathText movie} is not a file."
  let w ← sourceMapWorkspace env movie options.workspace
  let script := options.script
  let file ← orFault (w.extractionPath (Path.ofString ("scripts/" ++ script ++ ".pcode")))
  if !(← reading fun fs => fs.ask fs.contains file) then
    fail ("Script " ++ Text.quoted script ++ " was not found within extracted GFx files.")
  let blocks ← reading fun fs => do
    Pcode.splitBlocks (← Pcode.readText (String.ofList (Text.decodeLenient (← fs.read file))))
  match options.block with
  | none => listBlocks blocks
  | some name =>
    let block ← pickBlock script name blocks
    let block ← if options.normalized then orFault (Pcode.normalizeBlock block) else pure block
    showSourceMap env.width w script name block

end MovieDiff.Command
