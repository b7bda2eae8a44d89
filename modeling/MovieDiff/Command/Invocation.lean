import MovieDiff.Command.Diff
import MovieDiff.Command.Extraction
import MovieDiff.Command.SourceMap

/-!
Reading a command line: the name of a command, then its arguments and options in any order.
-/
namespace MovieDiff

inductive CommandName where
  | extract
  | normalize
  | diff
  | sourceMap
  deriving DecidableEq, Repr

namespace CommandName

/-- All commands, in the order in which they are listed. -/
def all : List CommandName := [extract, normalize, diff, sourceMap]

def text : CommandName → String
  | extract => "extract"
  | normalize => "normalize"
  | diff => "diff"
  | sourceMap => "sourcemap"

def ofText? (s : String) : Option CommandName :=
  all.find? fun name => name.text == s

end CommandName

inductive UsageError where
  | noCommand
  | unknownCommand (name : String)
  | unknownOption (name : String)
  | missingValue (name : String)
  | badValue (name value : String)
  | wrongArguments (command : String)
  deriving DecidableEq, Repr

def UsageError.message : UsageError → String
  | noCommand =>
    "Missing command: " ++ ", ".intercalate (CommandName.all.map CommandName.text) ++ "."
  | unknownCommand name => s!"No such command: {name}."
  | unknownOption name => s!"No such option: {name}."
  | missingValue name => s!"Option {name} requires a value."
  | badValue name value => s!"Invalid value for {name}: {value}."
  | wrongArguments command => s!"Wrong number of arguments for {command}."

inductive Invocation where
  | extract (input : Path) (output extractor : Option Path)
  | normalize (input output : Path) (withSourceMaps : Bool)
  | diff (options : Command.DiffOptions) (left right : Path)
  | sourceMap (options : Command.SourceMapOptions) (movie : Path)

namespace Invocation

/-- The options that a command takes: those with a value, and those without one. -/
structure OptionNames where
  valued : List String
  plain : List String

def optionNames : CommandName → OptionNames
  | .extract => ⟨["--ffdec"], []⟩
  | .normalize => ⟨[], ["--source-maps", "--no-source-maps"]⟩
  | .diff => ⟨["--ffdec", "--workspace-root", "--format", "--layout", "--head", "--sort",
       "--filter"],
      ["--cache-extraction", "--no-extraction-cache", "--cache-normalization",
       "--no-normalization-cache", "--summary-only", "--no-summary", "--full", "--debug"]⟩
  | .sourceMap => ⟨[], ["--normalized"]⟩

/-- Arguments in order, and options with their values, the last one first. -/
structure Words where
  arguments : List String := []
  options : List (String × String) := []

def isOption (word : String) : Bool :=
  "--".isPrefixOf word

def readWords (names : OptionNames) (read : Words) : List String → Except UsageError Words
  | [] => .ok read
  | word :: rest =>
    if names.valued.contains word then
      match rest with
      | value :: rest => readWords names { read with options := (word, value) :: read.options } rest
      | [] => .error (.missingValue word)
    else if names.plain.contains word then
      readWords names { read with options := (word, "") :: read.options } rest
    else if isOption word then .error (.unknownOption word)
    else readWords names { read with arguments := read.arguments ++ [word] } rest

namespace Words

def value? (words : Words) (name : String) : Option String :=
  words.options.lookup name

def path? (words : Words) (name : String) : Option Path :=
  (words.value? name).map Path.ofString

def has (words : Words) (name : String) : Bool :=
  (words.value? name).isSome

/-- Which of two opposite options was given last. -/
def switch (words : Words) (on off : String) (default : Bool) : Bool :=
  match words.options.find? fun option => option.1 == on || option.1 == off with
  | some (name, _) => name == on
  | none => default

def choice {α : Type} (words : Words) (name : String) (values : List (String × α)) (default : α) :
    Except UsageError α :=
  match words.value? name with
  | none => .ok default
  | some text =>
    match values.lookup text with
    | some value => .ok value
    | none => .error (.badValue name text)

def number? (words : Words) (name : String) : Except UsageError (Option Int) :=
  match words.value? name with
  | none => .ok none
  | some text =>
    match text.toNat? with
    | some (n + 1) => .ok (some (n + 1))
    | _ => .error (.badValue name text)

end Words

def diffOptions (words : Words) : Except UsageError Command.DiffOptions := do
  return {
    extractor := words.path? "--ffdec"
    workspaceRoot := words.path? "--workspace-root"
    extractionCache := words.switch "--cache-extraction" "--no-extraction-cache" true
    normalizationCache := words.switch "--cache-normalization" "--no-normalization-cache" false
    summaryOnly := words.has "--summary-only"
    noSummary := words.has "--no-summary"
    language := ← words.choice "--format" [("actionscript", .actionScript), ("pcode", .pcode)]
      .actionScript
    layout := ← words.choice "--layout" [("unified", .unified), ("split", .split)] .split
    head := ← words.number? "--head"
    full := words.has "--full"
    order := ← words.choice "--sort" SortOrder.named .changesDescending
    filter := words.value? "--filter"
    debug := words.has "--debug" }

def ofWords (command : CommandName) (words : Words) : Except UsageError Invocation :=
  match command, words.arguments.map Path.ofString with
  | .extract, [input] => .ok (.extract input none (words.path? "--ffdec"))
  | .extract, [input, output] => .ok (.extract input (some output) (words.path? "--ffdec"))
  | .normalize, [input, output] =>
    .ok (.normalize input output (words.switch "--source-maps" "--no-source-maps" true))
  | .diff, [left, right] => do return .diff (← diffOptions words) left right
  | .sourceMap, movie :: _ =>
    let normalized := words.has "--normalized"
    match words.arguments.drop 1 with
    | [script] => .ok (.sourceMap { script, normalized } movie)
    | [script, block] => .ok (.sourceMap { script, block := some block, normalized } movie)
    | [script, block, dir] =>
      let workspace := some (Path.ofString dir)
      .ok (.sourceMap { script, block := some block, workspace, normalized } movie)
    | _ => .error (.wrongArguments command.text)
  | _, _ => .error (.wrongArguments command.text)

def parse : List String → Except UsageError Invocation
  | [] => .error .noCommand
  | name :: rest =>
    match CommandName.ofText? name with
    | some command => do ofWords command (← readWords (optionNames command) {} rest)
    | none => .error (.unknownCommand name)

/-- Takes every path as one below a directory, unless it is absolute. -/
def under (dir : Path) : Invocation → Invocation
  | extract input output extractor =>
    extract (dir ++ input) (output.map (dir ++ ·)) (extractor.map (dir ++ ·))
  | normalize input output withSourceMaps => normalize (dir ++ input) (dir ++ output) withSourceMaps
  | diff options left right =>
    diff { options with
      extractor := options.extractor.map (dir ++ ·)
      workspaceRoot := options.workspaceRoot.map (dir ++ ·) } (dir ++ left) (dir ++ right)
  | sourceMap options movie =>
    sourceMap { options with workspace := options.workspace.map (dir ++ ·) } (dir ++ movie)

/-- The files that are read, by themselves. -/
def inputs : Invocation → List Path
  | extract input _ _ => [input]
  | normalize input _ _ => [input]
  | diff _ left right => [left, right]
  | sourceMap _ movie => [movie]

/-- The other paths that are looked at, with all below them. -/
def places : Invocation → List Path
  | extract _ output extractor => output.toList ++ extractor.toList
  | normalize _ output _ => [output]
  | diff options _ _ => options.workspaceRoot.toList ++ options.extractor.toList
  | sourceMap options _ => options.workspace.toList

def command (env : Environment) : Invocation → Command Unit
  | extract input output extractor => Command.extract env input output extractor
  | normalize input output withSourceMaps => Command.normalize input output withSourceMaps
  | diff options left right => Command.diff env options left right
  | sourceMap options movie => Command.sourceMap env options movie

end Invocation

end MovieDiff
