import MovieDiff.Hunk.Basic
import MovieDiff.Text.Markup
import MovieDiff.Text.Wrap

/-!
The split layout: two panes side by side. Panes of one kind are aligned line by line: where a
line is higher than its neighbour, fillers make up for it on the other side.
-/
namespace MovieDiff.Layout

open Text (StyledText)

/-- A line of a pane: the gutter's text, the text, and the style of the text. -/
structure PaneRow where
  gutter : String
  text : String
  style : String := ""
  deriving DecidableEq, Repr

/-- A row as it is shown, without the characters that never are. -/
def PaneRow.make (gutter text style : String) : PaneRow :=
  ⟨Text.dropControls gutter, Text.dropControls text, style⟩

/-- A message, plain lines, or the segments of an annotated hunk. -/
inductive Pane where
  | message (markup : String)
  | lines (rows : List PaneRow)
  | diff (segments : List (List PaneRow))
  deriving DecidableEq, Repr

def deletionStyle : String := "on #4e1d20"
def additionStyle : String := "on #1d4e28"
def fillerStyle : String := "on #232326"

def rowOfLine (line : HunkLine) : PaneRow :=
  PaneRow.make (toString line.number) line.text <|
    match line.mark with
    | .deletion => deletionStyle
    | .addition => additionStyle
    | _ => ""

def Pane.ofAnnotated (segments : AnnotatedHunk) : Pane :=
  .diff (segments.map fun segment => segment.map rowOfLine)

def filler : PaneRow := ⟨"", "", fillerStyle⟩

structure Padding where
  top : Nat
  right : Nat
  bottom : Nat
  left : Nat
  deriving DecidableEq, Repr

def Pane.padding : Pane → Padding
  | .message _ => ⟨1, 2, 1, 2⟩
  | _ => ⟨1, 1, 1, 1⟩

namespace Pane

def segments : Pane → List (List PaneRow)
  | message _ => []
  | lines rows => [rows]
  | diff segments => segments

def rows (pane : Pane) : List PaneRow :=
  pane.segments.flatten

/-- Panes of one kind that have lines can be aligned. -/
def alignable : Pane → Pane → Bool
  | lines _, lines _ => true
  | diff _, diff _ => true
  | _, _ => false

end Pane

def gutterMinWidth : Nat := 5
def gutterSpacing : Nat := 3

def gutterWidth (pane : Pane) : Nat :=
  (pane.rows.map fun row => row.gutter.length).foldl max gutterMinWidth

/-- The columns left for the text of a line, one at least. -/
def textWidth (pane : Pane) (paneWidth : Int) : Nat :=
  let padding := pane.padding
  (max 1 (paneWidth - padding.left - padding.right - gutterWidth pane - gutterSpacing)).toNat

def rowHeight (wrap : Bool) (width : Nat) (row : PaneRow) : Nat :=
  if wrap then Text.textHeight width .overflow row.text else 1

/-- Rows for two lines that stand opposite each other, the lower one filled up. -/
def alignLines (leftHeight rightHeight : PaneRow → Nat) (left right : Option PaneRow) :
    List PaneRow × List PaneRow :=
  let hl := (left.map leftHeight).getD 0
  let hr := (right.map rightHeight).getD 0
  (left.toList ++ List.replicate (hr - hl) filler, right.toList ++ List.replicate (hl - hr) filler)

/-- Rows for two segments, line by line. -/
def alignSegments (leftHeight rightHeight : PaneRow → Nat) :
    List PaneRow → List PaneRow → List PaneRow × List PaneRow
  | [], [] => ([], [])
  | x :: xs, [] =>
    let (l, r) := alignLines leftHeight rightHeight (some x) none
    let (ls, rs) := alignSegments leftHeight rightHeight xs []
    (l ++ ls, r ++ rs)
  | [], y :: ys =>
    let (l, r) := alignLines leftHeight rightHeight none (some y)
    let (ls, rs) := alignSegments leftHeight rightHeight [] ys
    (l ++ ls, r ++ rs)
  | x :: xs, y :: ys =>
    let (l, r) := alignLines leftHeight rightHeight (some x) (some y)
    let (ls, rs) := alignSegments leftHeight rightHeight xs ys
    (l ++ ls, r ++ rs)

/-- Rows for corresponding segments of two panes. -/
def alignRows (leftHeight rightHeight : PaneRow → Nat)
    (left right : List (List PaneRow)) : List PaneRow × List PaneRow :=
  let aligned := (left.zip right).map fun (x, y) => alignSegments leftHeight rightHeight x y
  ((aligned.map (·.1)).flatten, (aligned.map (·.2)).flatten)

/-- The columns of the two panes; an odd column goes to the left one. -/
def paneWidths (width spacing : Int) : Int × Int :=
  (Int.fdiv (width - spacing + 1) 2, Int.fdiv (width - spacing) 2)

def shownRows (wrap : Bool) (widths : Int × Int) (left right : Pane) :
    List PaneRow × List PaneRow :=
  if left.alignable right then
    alignRows (rowHeight wrap (textWidth left widths.1)) (rowHeight wrap (textWidth right widths.2))
      left.segments right.segments
  else (left.rows, right.rows)

def paneHeight (wrap : Bool) (paneWidth : Int) (pane : Pane) (rows : List PaneRow) :
    Except Fault Nat := do
  let padding := pane.padding
  let content ← match pane with
    | .message markup =>
      let width := (max 1 (paneWidth - padding.left - padding.right)).toNat
      pure (Text.textHeight width .fold (← StyledText.ofMarkup markup).plain)
    | _ => pure ((rows.map (rowHeight wrap (textWidth pane paneWidth))).foldr (· + ·) 0)
  return content + padding.top + padding.bottom

/-- What a pane shows once it is laid out. -/
inductive ShownPane where
  | message (markup : String)
  | rows (rows : List PaneRow)
  deriving DecidableEq, Repr

def ShownPane.of (pane : Pane) (rows : List PaneRow) : ShownPane :=
  match pane with
  | .message markup => .message markup
  | _ => .rows rows

structure ShownSplit where
  widths : Int × Int
  left : ShownPane
  right : ShownPane
  heights : Nat × Nat
  deriving DecidableEq, Repr

/-- The higher pane gives the height. -/
def ShownSplit.height (s : ShownSplit) : Nat :=
  max s.heights.1 s.heights.2

/-- Draws a message, if the pane is one. -/
def Pane.draw : Pane → Except Fault Unit
  | .message markup => do (← StyledText.ofMarkup markup).draw
  | _ => .ok ()

def split (width spacing : Int) (wrap : Bool) (left right : Pane) : Except Fault ShownSplit := do
  let widths := paneWidths width spacing
  let (leftRows, rightRows) := shownRows wrap widths left right
  let leftHeight ← paneHeight wrap widths.1 left leftRows
  let rightHeight ← paneHeight wrap widths.2 right rightRows
  left.draw
  right.draw
  return ⟨widths, .of left leftRows, .of right rightRows, (leftHeight, rightHeight)⟩

def defaultSpacing : Int := 1

/-! ### One pane -/

def defaultBackground : String := "#17171a"

/-- The cells of a pane and how they are coloured. -/
structure PaneCells where
  cells : List (List String)
  rowStyles : List String
  padding : Padding
  style : String
  deriving DecidableEq, Repr

/-- The style of a background, in the words of styles. -/
def backgroundText (background : Option String) : String :=
  (background.map fun color => "on " ++ color).getD ""

/-- A pane alone, with blank rows to fill a gap: below lines, around a message. The background
of lines has to be a colour. -/
def paneCells (pane : Pane) (background : Option String) (gap : Nat) : Except Fault PaneCells := do
  match pane with
  | .message markup =>
    return ⟨List.replicate (gap / 2) [""] ++ [markup] :: List.replicate (gap - gap / 2) [""], [],
      pane.padding, backgroundText background⟩
  | _ =>
    let color ← background.mapM Text.Color.ofString
    let styles := (color.map fun color => "on " ++ color.name).toList
    return ⟨pane.rows.map (fun row => [row.gutter, row.text]) ++ List.replicate gap ["", ""],
      styles, pane.padding, styles.headD ""⟩

/-- Prints a pane alone. The background of a message has to be a style. -/
def Pane.print (pane : Pane) (background : Option String) : Except Fault Unit := do
  match pane with
  | .message _ =>
    let text := backgroundText background
    match Text.Style.ofString text with
    | .ok _ => pane.draw
    | .error (.notANumber part) => throw (.notANumber part)
    | .error _ => throw (.missingStyle text)
  | _ => discard (paneCells pane background 0)

end MovieDiff.Layout
