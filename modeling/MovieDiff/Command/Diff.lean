import MovieDiff.Command.BlockReport
import MovieDiff.Command.Comparison
import MovieDiff.Command.Filter
import MovieDiff.Command.Normalization
import MovieDiff.Command.Views
import MovieDiff.Files.FileTree
import MovieDiff.Scripts.Table

/-!
Comparing two movies: extract both, find the scripts that differ, normalise these, pair them by
their blocks, then show the blocks that differ and a summary.
-/
namespace MovieDiff.Command

open Display (BlockView Language)

inductive LayoutKind where
  | unified
  | split
  deriving DecidableEq, Repr

structure DiffOptions where
  extractor : Option Path := none
  /-- The directory of the workspaces; without one they are temporary. -/
  workspaceRoot : Option Path := none
  extractionCache : Bool := true
  normalizationCache : Bool := false
  summaryOnly : Bool := false
  noSummary : Bool := false
  language : Language := .actionScript
  layout : LayoutKind := .split
  head : Option Int := none
  full : Bool := false
  order : SortOrder := .changesDescending
  filter : Option String := none
  debug : Bool := false

/-- The number of lines shown unless another one is asked for. -/
def defaultHead : Int := 512

/-! ### Showing -/

/-- The note that ends a diff which became too long. -/
def showCap (layout : LayoutKind) (cap : Int) : Command Unit := do
  let text := s!"✀  Diff output capped after reaching or exceeding {cap} lines. " ++
    "Use [italic]--head N[/italic] to raise the cap or [italic]--full[/italic] to remove it."
  match layout with
  | .unified => say s!"[bold yellow]---- {text} ----[/bold yellow]"
  | .split =>
    display (.rule s!"[bold yellow]{text}[/bold yellow]")
    blankLine

/-- Shows blocks until the cap is reached; `count` lines were shown before. -/
def showBlocks (width : Nat) (options : DiffOptions) (cap : Option Int) (count : Nat)
    (isFirst : Bool) : List BlockView → Command Unit
  | [] => pure ()
  | view :: rest => do
    match cap with
    | some limit =>
      if limit ≤ count then
        showCap options.layout limit
        return
    | none => pure ()
    if !isFirst then blankLine
    let height ← match options.layout with
      | .unified => reportUnified width options.debug view
      | .split => reportSplit width options.debug view
    showBlocks width options cap (count + (if isFirst then 0 else 1) + height) false rest

/-- Shows the blocks that differ; what is missing for it is worth a warning only. -/
def showDiff (env : Environment) (options : DiffOptions) (left right : Movie) (set : DiffSet)
    (filter : Filter) : Command Unit := do
  match blockViews (← files) options.language options.order filter left right set with
  | .ok views =>
    let cap := if options.full then none else some (options.head.getD defaultHead)
    showBlocks env.width options cap 0 true views
  | .error f =>
    if f.isAbsence || f.kind == .failure then warn (faultText f) else throw (.fault f)

def padRow (columns : Nat) (row : List String) : List String :=
  row ++ List.replicate (columns - row.length) ""

def showSummary (order : SortOrder) (set : DiffSet) : Command Unit := do
  say (s!"Summary: [yellow]{set.scriptsWithDifferences.length} scripts modified[/yellow], " ++
    s!"[red]{set.onlyLeft.length} scripts deleted[/red], " ++
    s!"[green]{set.onlyRight.length} scripts created[/green]")
  say (s!"➥  Within modified scripts: [yellow]{set.modifiedBlocks} blocks modified[/yellow], " ++
    s!"[red]{set.blocksOnlyLeft} blocks deleted[/red], " ++
    s!"[green]{set.blocksOnlyRight} blocks created[/green] " ++
    s!"({set.modifiedLines} changed lines)\n")
  let rows ← orFault (Scripts.tableRows order (.ofDiffSet set))
  display (.table (rows.map (padRow 4)))

/-! ### The command -/

def step (title : String) : Command Unit := do
  blankLine
  say s!"[cyan]» {title}[/cyan]"
  blankLine

def checkMovie (file : Path) : Command Unit := do
  if !(← files).isFile file then fail s!"Invalid input: {pathText file} is not a file."

def listScripts (heading : String) (scripts : List Path) : Command Unit := do
  if !scripts.isEmpty then
    say heading
    (Path.sort scripts).forM fun p => say (Scripts.scriptTitle p none)

def findWorkspaces (env : Environment) (root : Option Path) (a b : Path) :
    Command (Workspace × Workspace) := do
  match root with
  | none => return (env.temporaryWorkspace a, env.temporaryWorkspace b)
  | some root =>
    let root := root.resolve
    if !(← files).isDirectory root then
      fail s!"Invalid input: {pathText root} does not exist or is not a directory."
    return (.ofPath (root.child (env.workspaceName a)), .ofPath (root.child (env.workspaceName b)))

/-- Scripts by the files that hold them, each once. -/
def scriptsOf (paths : List Path) : List Path :=
  (paths.map (·.withSuffix "")).eraseDups

/-- The scripts of both movies that differ, and those that only one of them has. -/
def differingScripts (left right : Movie) : Command (List Path × List Path × List Path) := do
  let tree (movie : Movie) : Command FileTree := do
    let dir ← orFault (movie.workspace.extractionPath (Path.ofString "scripts"))
    return (← files).tree dir (Glob.ending ".pcode" true)
  let (common, onlyLeft, onlyRight) := compareTrees (← tree left) (← tree right)
  return (scriptsOf common, scriptsOf onlyLeft, scriptsOf onlyRight)

def union (xs ys : List Path) : List Path :=
  (xs ++ ys).eraseDups

/-- What follows once it is known which scripts differ. -/
def diffScripts (env : Environment) (options : DiffOptions) (filter : Filter) (left right : Movie)
    (leftScripts rightScripts : List Path) : Command Unit := do
  step "3: Normalizing differing scripts into p-code blocks"
  let cached := options.normalizationCache
  let leftNormal ← normalizeScripts left.file left.workspace leftScripts cached
  blankLine
  let rightNormal ← normalizeScripts right.file right.workspace rightScripts cached
  let left := { left with scripts := leftNormal }
  let right := { right with scripts := rightNormal }
  step "4: Comparison of normalized code"
  let set ← reading fun fs =>
    compareScripts env.searchOrder fs left right leftScripts rightScripts
  if set.isEmpty then
    say ("[green]Normalized trees are identical. The difference might be decompilation noise " ++
      "only.[/green]")
  else
    if !options.summaryOnly then showDiff env options left right set filter
    if !options.noSummary then
      blankLine
      showSummary options.order set

def diff (env : Environment) (options : DiffOptions) (a b : Path) : Command Unit := do
  if options.full && options.head.isSome then throw (.fault .headAndFull)
  if options.summaryOnly && options.noSummary then throw (.fault .summaryOnlyAndNone)
  let a := a.resolve
  let b := b.resolve
  checkMovie a
  checkMovie b
  let (leftSpace, rightSpace) ← findWorkspaces env options.workspaceRoot a b
  let program ← env.findExtractor options.extractor
  let filter ← match Filter.read options.filter with
    | .ok filter => pure filter
    | .error f => fail (faultText f)
  say s!"[bold yellow]File A:[/bold yellow] {pathText a}"
  say s!"[bold yellow]File B:[/bold yellow] {pathText b}"
  say s!"[bold yellow]Using ffdec:[/bold yellow] {pathText program}"
  step "1: Extraction of GFX scripts as p-code"
  let left : Movie := { file := a, workspace := leftSpace }
  let right : Movie := { file := b, workspace := rightSpace }
  extractMovie env program left options.extractionCache
  extractMovie env program right options.extractionCache
  step "2: Searching for file differences"
  let (common, onlyLeft, onlyRight) ← differingScripts left right
  if common.isEmpty && onlyLeft.isEmpty && onlyRight.isEmpty then
    say "[green]Both files are identical.[/green]"
    return
  listScripts s!"Scripts only present in {pathText a}:" onlyLeft
  if !onlyLeft.isEmpty then emit (.out [])
  listScripts s!"Scripts only present in {pathText b}:" onlyRight
  if !onlyRight.isEmpty then emit (.out [])
  listScripts "Common scripts that differ:" common
  diffScripts env options filter left right (union common onlyLeft) (union common onlyRight)

end MovieDiff.Command
