import MovieDiff.Display.HunkPairs
import MovieDiff.Pcode.Reader
import MovieDiff.Scripts.Refinement

/-!
What to show of a block: the spans of its ActionScript that differ, or those of its normalised
p-code.
-/
namespace MovieDiff.Display

open Pcode (Line Block)
open DebugInfo (LineMap)

def findBlock (blocks : List Block) : Option String → Except Fault (Option Block)
  | none => .ok none
  | some name =>
    match blocks.find? (·.name == name) with
    | some block => .ok (some block)
    | none => .error (.blockNotFound name)

/-! ### P-code -/

/-- The texts of both sides, the right one aligned to the left, and the spans to show. -/
structure PcodeView where
  left : List String
  right : List String
  spans : List ShownSpans
  deriving DecidableEq, Repr

def linesText (lines : Option (List Line)) : Except Fault (List String) := do
  match lines with
  | some lines =>
    let _ ← Pcode.renderText lines
    return Pcode.renderLines lines
  | none => return []

def wholeSpan (lines : List Line) : Span :=
  ⟨0, lines.length⟩

/-- A paired block shows what differs after alignment, any other block all of it. -/
def pcodeView (names : Sides String) (left right : Option (List Line)) :
    Except Fault PcodeView := do
  let leftText ← linesText left
  let rightText := Scripts.alignText leftText (← linesText right)
  let spans : List ShownSpans :=
    if names.isPaired then
      (TextDiff.of leftText rightText).spans.map fun p => .both p.left p.right
    else
      left.toList.map (fun lines => .left (wholeSpan lines)) ++
        right.toList.map (fun lines => .right (wholeSpan lines))
  return ⟨leftText, rightText, spans⟩

/-! ### ActionScript -/

/-- A side of a block in its script: where the script is, the block's name there, the sources of
its lines, the map of the block, and the number of ActionScript lines of the script. -/
structure BlockSide where
  script : Option Path
  name : String
  sources : Option (List (List Int))
  map : LineMap
  lineCount : Nat
  deriving DecidableEq, Repr

/-- A found span has to lie inside the script. -/
def checkSpan (label : String) (side : BlockSide) (origin span : Span) : Except Fault Unit :=
  match side.script with
  | none => .error .missingScriptSide
  | some script =>
    if 0 ≤ span.start ∧ span.start ≤ span.stop ∧ span.stop ≤ side.lineCount then .ok ()
    else .error (.spanOutsideScript span.start span.stop side.lineCount origin.start origin.stop
      label script.text side.name)

def sideSources (side : BlockSide) : Except Fault (List (List Int)) :=
  match side.sources with
  | some sources => .ok sources
  | none => .error .missingBlockSide

/-- Both sides of one difference, if both can be told. -/
def resolvePair (left right : BlockSide) (raw : SpanPair) : Except Fault (Option SpanPair) :=
  match sourceSpan? left.map raw.left defaultWindow,
      sourceSpan? right.map raw.right defaultWindow with
  | some x, some y => do
    checkSpan "A" left raw.left x
    checkSpan "B" right raw.right y
    return some ⟨x, y⟩
  | _, _ => .ok none

def spanPairLe (x y : SpanPair) : Bool :=
  let kx := (x.left.start, x.right.start, x.left.stop, x.right.stop)
  let ky := (y.left.start, y.right.start, y.left.stop, y.right.stop)
  kx.1 < ky.1 || kx.1 == ky.1 && (kx.2.1 < ky.2.1 || kx.2.1 == ky.2.1 &&
    (kx.2.2.1 < ky.2.2.1 || kx.2.2.1 == ky.2.2.1 && kx.2.2.2 ≤ ky.2.2.2))

/-- The ActionScript spans of a paired block, sorted and merged. -/
def resolvePaired (left right : BlockSide) (spans : List SpanPair) :
    Except Fault (List SpanPair) := do
  let leftSources ← sideSources left
  let rightSources ← sideSources right
  let raw ← spans.mapM fun s => do
    return SpanPair.mk (← rawSpan leftSources s.left) (← rawSpan rightSources s.right)
  let found ← raw.mapM (resolvePair left right)
  return mergeTouching ((found.filterMap id).mergeSort spanPairLe)

/-- The ActionScript span of all of a block. -/
def resolveWhole (label : String) (side : BlockSide) : Except Fault (Option Span) := do
  let sources ← sideSources side
  let raw ← rawSpan sources ⟨0, sources.length⟩
  match sourceSpan? side.map raw defaultWindow with
  | some span =>
    checkSpan label side raw span
    return some span
  | none => return none

/-- The ActionScript spans of a block; what cannot be told is left out. -/
def resolveBlock (sides : Sides BlockSide) (spans : List SpanPair) :
    Except Fault (List ShownSpans) := do
  match sides with
  | .both left right =>
    return (← resolvePaired left right spans).map fun p => .both p.left p.right
  | .left side => return (← resolveWhole "A" side).toList.map Sides.left
  | .right side => return (← resolveWhole "B" side).toList.map Sides.right

end MovieDiff.Display
