import MovieDiff.Hunk.Basic
import MovieDiff.Text.Markup
import MovieDiff.Text.Wrap

/-!
The unified layout: two file headers, then for each pair of hunks a header with the ranges of
lines, and below it context, deletions and additions.
-/
namespace MovieDiff.Layout

open Text (StyledText)

inductive Side where
  | a
  | b
  deriving DecidableEq, Repr

def Side.ofString (s : String) : Except Fault Side :=
  if s = "a" then .ok .a
  else if s = "b" then .ok .b
  else .error (.invalidSide s)

/-- A missing file is the null device. -/
def fileHeader (path : Option String) (side : Side) : String :=
  let (mark, letter) := match side with
    | .a => ("---", "a")
    | .b => ("+++", "b")
  match path with
  | some path => s!"{mark} {letter}/{path}"
  | none => s!"{mark} /dev/null"

def hunkHeader (leftStart leftLength rightStart rightLength : Int) : String :=
  s!"@@ -{leftStart},{leftLength} +{rightStart},{rightLength} @@"

/-- The number of the first line; a side without lines starts at zero. -/
def startNumber (lines : Hunk) : Int :=
  match lines with
  | line :: _ => line.number
  | [] => 0

def inStyle (style text : String) : Except Fault StyledText :=
  StyledText.ofMarkup s!"[{style}]{text}[/{style}]"

def startsWithContext (hunk : Hunk) : Bool :=
  hunk.head?.any HunkLine.isContext

/-- One segment of both sides. Context stands once, as the left side has it. -/
def segmentLines (left right : Hunk) : Except Fault (List StyledText) := do
  if startsWithContext left || startsWithContext right then
    return left.map fun line => .ofPlain (" " ++ line.text)
  else
    let deletions ← left.mapM fun line => inStyle "red" (Text.Markup.escape ("-" ++ line.text))
    let additions ← right.mapM fun line => inStyle "green" (Text.Markup.escape ("+" ++ line.text))
    return deletions ++ additions

/-- A pair without lines shows nothing. -/
def pairLines (left right : AnnotatedHunk) : Except Fault (List StyledText) := do
  let leftLines := left.lines
  let rightLines := right.lines
  if leftLines.isEmpty && rightLines.isEmpty then return []
  let header ← inStyle "cyan" (hunkHeader (startNumber leftLines) leftLines.length
    (startNumber rightLines) rightLines.length)
  let body ← (left.zip right).mapM fun (x, y) => segmentLines x y
  return header :: body.flatten

/-- All lines; one side at least has a path. -/
def unifiedLines (leftPath rightPath : Option String)
    (pairs : List (AnnotatedHunk × AnnotatedHunk)) : Except Fault (List StyledText) := do
  if leftPath.isNone && rightPath.isNone then throw .noUnifiedSide
  let leftHeader ← inStyle "bold" (Text.Markup.escape (fileHeader leftPath .a))
  let rightHeader ← inStyle "bold" (Text.Markup.escape (fileHeader rightPath .b))
  let hunks ← pairs.mapM fun (x, y) => pairLines x y
  return leftHeader :: rightHeader :: hunks.flatten

def unifiedHeight (width : Nat) (lines : List StyledText) : Nat :=
  (lines.map fun line => Text.textHeight width .fold line.plain).foldr (· + ·) 0

/-- The height of a component can be asked for only once it was shown. -/
def requireShown (component : String) (shown : Bool) : Except Fault Unit :=
  if shown then .ok () else .error (.notRendered component)

end MovieDiff.Layout
