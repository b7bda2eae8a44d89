import MovieDiff.DebugInfo.File

/-!
From the p-code lines of a script to its ActionScript lines, through the byte offsets that both
share. Lines of a map count from zero.
-/
namespace MovieDiff.DebugInfo

/-- The ActionScript line of each p-code line that has an offset, where it is known. -/
abbrev LineMap := Keyed Int (Option Int)

def LineMap.line? (table : LineMap) (line : Int) : Option Int :=
  (Keyed.get? table line).join

def dropStart (start : String) (cs : List Char) : List Char :=
  if start.toList.isPrefixOf cs then cs.drop start.length else cs

/-- A script is named by its path, whatever slashes and marks the debug file gives it. -/
def scriptName (name : String) : String :=
  let cs := name.toList.map fun c => if c = '\\' then '/' else c
  String.ofList ((dropStart "#PCODE " (dropStart "main:" cs)).dropWhile (· == '/'))

/-- The scripts that are wanted, by module; without a list all are. -/
def wantedModules (source : DebugFile) (wanted : Option (List String)) : Keyed Nat String :=
  source.scripts.foldl (fun table script =>
    let name := scriptName script.name
    if wanted.all (·.contains name) then Keyed.put script.module name table else table) []

/-- The line last recorded for an offset of a module. -/
def lineAt? (source : DebugFile) (module offset : Nat) : Option Nat :=
  (source.offsets.reverse.find? fun o => o.module == module && o.offset == offset).map
    OffsetRecord.line

def lineMaps (pcode source : DebugFile) (wanted : Option (List String)) :
    Keyed String LineMap :=
  let modules := wantedModules source wanted
  pcode.offsets.foldl (fun maps o =>
    match Keyed.get? modules o.module with
    | none => maps
    | some name =>
      let mapped := (lineAt? source o.module o.offset).map fun line => (line : Int) - 1
      Keyed.put name (Keyed.put ((o.line : Int) - 1) mapped ((Keyed.get? maps name).getD [])) maps)
    []

/-- Gives every unmapped line the line of the last mapped one before it. -/
def fillFrom (last : Option Int) : LineMap → LineMap
  | [] => []
  | (line, mapped) :: rest =>
    let known := mapped.or last
    (line, known) :: fillFrom known rest

def LineMap.filled (table : LineMap) : LineMap :=
  fillFrom none table

end MovieDiff.DebugInfo
