import MovieDiff.Fault
import MovieDiff.Text.Lines
import MovieDiff.TextDiff

/-!
Hunks: lines cut from a text, each with its index in that text and at most one mark. An
annotated hunk is a list of segments, each of which bears one mark throughout. A hunk is cut with
the lines just before and after it as context, and hunks of one text can be merged.
-/
namespace MovieDiff

inductive Mark where
  | plain
  | context
  | deletion
  | addition
  deriving DecidableEq, Repr

/-- The index counts from zero. -/
structure HunkLine where
  index : Int
  text : String
  mark : Mark := .plain
  deriving DecidableEq, Repr

abbrev Hunk := List HunkLine

abbrev AnnotatedHunk := List Hunk

/-- The mark that three flags stand for; no two of them may be set. -/
def Mark.ofFlags? (isContext isDeletion isAddition : Bool) : Except Fault Mark :=
  match isContext, isDeletion, isAddition with
  | false, false, false => .ok .plain
  | true, false, false => .ok .context
  | false, true, false => .ok .deletion
  | false, false, true => .ok .addition
  | _, _, _ => .error .severalMarks

def Mark.label : Mark → String
  | .plain => "..."
  | .context => "ctx"
  | .deletion => "del"
  | .addition => "add"

namespace HunkLine

def number (line : HunkLine) : Int :=
  line.index + 1

def isContext (line : HunkLine) : Bool :=
  line.mark == .context

/-- One line for inspection, its number padded on the left to a width. -/
def describe (line : HunkLine) (width : Nat) : String :=
  let number := toString line.number
  let padding := String.ofList (List.replicate (width - number.length) ' ')
  s!"({line.mark.label}) {padding}{number}:  {line.text}"

end HunkLine

namespace Hunk

def texts (hunk : Hunk) : List String :=
  hunk.map HunkLine.text

def marked (mark : Mark) (hunk : Hunk) : Hunk :=
  hunk.map fun line => { line with mark }

/-- The lines for inspection, numbers aligned on the right. -/
def describe (hunk : Hunk) : String :=
  let width := (hunk.map fun line => (toString line.number).length).foldl max 0
  Text.joinLines (hunk.map fun line => line.describe width)

end Hunk

def AnnotatedHunk.lines (segments : AnnotatedHunk) : Hunk :=
  segments.flatten

/-- Equal texts, whatever the indices and marks. -/
def Hunk.sameTexts (a b : Hunk) : Bool :=
  Hunk.texts a == Hunk.texts b

/-- Marks two hunks against each other: matching lines are context, the others are deletions on
the first side and additions on the second. Both sides have the same number of segments. -/
def annotate (a b : Hunk) : AnnotatedHunk × AnnotatedHunk :=
  let found := regions (Hunk.texts a) (Hunk.texts b)
  (found.map fun r => Hunk.marked (if r.same then .context else .deletion) (r.left a),
   found.map fun r => Hunk.marked (if r.same then .context else .addition) (r.right b))

namespace Hunk

/-! ### Cutting -/

def defaultContext : Int := 3

/-- The mark of the line at index `i` in a cut of a span, if the cut has it. -/
def cutMark? (span : Span) (context i : Int) : Option Mark :=
  if span.start ≤ i ∧ i < span.stop then some .plain
  else if span.start - context ≤ i ∧ i < span.stop + context then some .context
  else none

def cutLines (lines : List String) (span : Span) (context : Int) : Hunk :=
  lines.zipIdx.filterMap fun (text, i) =>
    (cutMark? span context i).map fun mark => ⟨i, text, mark⟩

/-- Cuts a span that lies inside the text. -/
def cut (lines : List String) (span : Span) (context : Int := defaultContext) :
    Except Fault Hunk :=
  if span.stop < span.start then .error (.malformedSpan span.start span.stop)
  else if span.start < 0 ∨ lines.length < span.stop then
    .error (.spanOutOfBounds span.start span.stop)
  else .ok (cutLines lines span context)

/-! ### Merging -/

/-- Puts a line into a hunk that is sorted by index. -/
def insertLine (line : HunkLine) : Hunk → Except Fault Hunk
  | [] => .ok [line]
  | known :: rest =>
    if line.index < known.index then .ok (line :: known :: rest)
    else if known.index < line.index then
      (insertLine line rest).map (known :: ·)
    else if known.text ≠ line.text then
      .error (.conflictingLine line.index known.text line.text)
    else if known.isContext && !line.isContext then .ok (line :: rest)
    else .ok (known :: rest)

/-- Merges hunks of one text. Lines with one index must have one text; the first that is not context
stands for all of them, or else the first. The result is sorted by index. -/
def merge (hunks : List Hunk) : Except Fault Hunk :=
  hunks.flatten.foldlM (fun merged line => insertLine line merged) []

end Hunk

end MovieDiff
