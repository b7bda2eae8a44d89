import MovieDiff.Fault
import MovieDiff.Scripts.Selection
import MovieDiff.Text.Characters
import MovieDiff.Text.Lines

/-!
Reading the filter option: parts such as `script=inventory`, divided by commas. Of two parts
with one key the later counts.
-/
namespace MovieDiff

namespace Filter

open Text (splitAtChar strip)

/-- Reads one part into the filter so far. -/
def readPart (filter : Filter) (part : List Char) : Except Fault Filter := do
  if !part.contains '=' then throw .malformedFilter
  let part := strip part
  let key := String.ofList (strip (part.takeWhile (· ≠ '=')))
  let value := strip ((part.dropWhile (· ≠ '=')).drop 1)
  if key ≠ "script" ∧ key ≠ "block" then throw .unknownFilterKey
  if value.isEmpty then throw .emptyFilterValue
  let value := Text.lowercase (String.ofList value)
  if key = "script" then return { filter with script := some value }
  else return { filter with block := some value }

def read : Option String → Except Fault Filter
  | none => .ok {}
  | some text =>
    let cs := strip text.toList
    if cs.isEmpty then .error .emptyFilter
    else (splitAtChar ',' cs).foldlM readPart {}

end Filter

end MovieDiff
