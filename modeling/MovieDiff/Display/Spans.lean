import MovieDiff.DebugInfo.LineMap
import MovieDiff.Pcode.Canonical.Patterns
import MovieDiff.Sides
import MovieDiff.TextDiff

/-!
Spans to show: lines of the left text, of the right text, or of both. They are taken from
normalised p-code to raw p-code, and from there to ActionScript.
-/
namespace MovieDiff.Display

open DebugInfo (LineMap)

abbrev ShownSpans := Sides Span

def ShownSpans.make (left right : Option Span) : Except Fault ShownSpans :=
  match Sides.ofOptions? left right with
  | some spans => .ok spans
  | none => .error .emptySpanPair

def describeSpan : Option Span → String
  | some span => s!"({span.start}, {span.stop})"
  | none => "None"

def ShownSpans.describe (spans : ShownSpans) : String :=
  s!"RenderDiffSpanPair(a={describeSpan spans.left?}, b={describeSpan spans.right?})"

/-! ### Merging -/

def touches (x y : Span) : Bool :=
  y.start ≤ x.stop && x.start ≤ y.stop

/-- The least span that holds both. -/
def hull (x y : Span) : Span :=
  ⟨min x.start y.start, max x.stop y.stop⟩

/-- Goes on after the pair `last`, which takes in each next pair that touches it on both
sides. -/
def mergeFrom (last : SpanPair) : List SpanPair → List SpanPair
  | [] => [last]
  | next :: rest =>
    if touches last.left next.left && touches last.right next.right then
      mergeFrom ⟨hull last.left next.left, hull last.right next.right⟩ rest
    else last :: mergeFrom next rest

/-- Merges neighbours of a sorted list that touch on both sides. -/
def mergeTouching : List SpanPair → List SpanPair
  | [] => []
  | first :: rest => mergeFrom first rest

def twoSided : ShownSpans → Except Fault SpanPair
  | .both left right => .ok ⟨left, right⟩
  | _ => .error .oneSidedSpanPair

/-- Several pairs can be merged only if each has both sides. -/
def mergeSpans (spans : List ShownSpans) : Except Fault (List ShownSpans) :=
  if spans.length < 2 then .ok spans
  else do
    return (mergeTouching (← spans.mapM twoSided)).map fun p => .both p.left p.right

/-! ### From normalised to raw p-code -/

def leastSource (sources : List (List Int)) : Except Fault Int :=
  match (Pcode.mergeSources sources).head? with
  | some line => .ok line
  | none => .error .lineOutOfRange

def greatestSource (sources : List (List Int)) : Except Fault Int :=
  match (Pcode.mergeSources sources).getLast? with
  | some line => .ok line
  | none => .error .lineOutOfRange

/-- The raw lines of a span of normalised lines, given the sources of each of these. An empty
span stands before its line, or after the last one. -/
def rawSpan (sources : List (List Int)) (span : Span) : Except Fault Span := do
  if sources.isEmpty then throw .emptyBlock
  if span.stop < span.start ∨ span.start < 0 ∨ sources.length < span.stop then
    throw (.invalidSpan span.start span.stop)
  let first := span.start.toNat
  if span.start = span.stop then
    if first = sources.length then
      let line ← greatestSource (sources.drop (first - 1))
      return ⟨line + 1, line + 1⟩
    let line ← leastSource ((sources.drop first).take 1)
    return ⟨line, line⟩
  let covered := (sources.drop first).take (span.stop - span.start).toNat
  return ⟨← leastSource covered, (← greatestSource covered) + 1⟩

/-! ### From raw p-code to ActionScript -/

/-- How far from an unmapped line a mapped one is looked for. -/
def defaultWindow : Nat := 10

/-- The first mapped line from `start` downwards, not below zero. -/
def mappedBefore? (table : LineMap) (start : Int) (window : Nat) : Option Int :=
  (List.range window).findSome? fun (n : Nat) =>
    let line := start - n
    if line < 0 then none else table.line? line

/-- The first mapped line from `start` upwards. -/
def mappedAfter? (table : LineMap) (start : Int) (window : Nat) : Option Int :=
  (List.range window).findSome? fun (n : Nat) => table.line? (start + n)

def mappedWithin (table : LineMap) (span : Span) : List Int :=
  table.filterMap fun (line, mapped) =>
    if span.start ≤ line ∧ line < span.stop then mapped else none

def greatestKey (table : LineMap) : Int :=
  match table.map (·.1) with
  | [] => 0
  | first :: rest => rest.foldl max first

/-- The place of an empty span: before the line it stands at, or after the last line. -/
def anchorSpan? (table : LineMap) (place : Int) (window : Nat) : Option Span :=
  let last := greatestKey table
  if last < place then
    ((table.line? last).or (mappedBefore? table (last - 1) window)).map fun line =>
      ⟨line + 1, line + 1⟩
  else
    ((table.line? place).or (mappedAfter? table (place + 1) window)).map fun line => ⟨line, line⟩

/-- All mapped lines of a span, from the least to the greatest. -/
def coveringSpan? (table : LineMap) (span : Span) : Option Span :=
  match mappedWithin table span with
  | [] => none
  | first :: rest => some ⟨rest.foldl min first, rest.foldl max first + 1⟩

/-- The ActionScript lines of a span of p-code lines, if they can be told. An unmapped end is
looked for outwards, then inwards; ends in the wrong order give way to all lines between. -/
def sourceSpan? (table : LineMap) (span : Span) (window : Nat) : Option Span :=
  if table.all fun entry => entry.2.isNone then none
  else if span.start = span.stop then anchorSpan? table span.start window
  else
    let start := ((table.line? span.start).or (mappedBefore? table (span.start - 1) window)).or
      (mappedAfter? table (span.start + 1) window)
    let last := ((table.line? (span.stop - 1)).or (mappedAfter? table span.stop window)).or
      (mappedBefore? table (span.stop - 2) window)
    match start, last with
    | some start, some last =>
      if last < start then coveringSpan? table span else some ⟨start, last + 1⟩
    | _, _ => none

/-- The part of a script's map that belongs to a block, forward-filled. The block reaches from
the least source of its first line to the greatest of its last. -/
def blockMap (sources : List (List Int)) (script : LineMap) : Except Fault LineMap := do
  match sources.head?, sources.getLast? with
  | some first, some last =>
    let low ← match first.min? with
      | some line => pure line
      | none => throw .noSourceLines
    let high ← match last.max? with
      | some line => pure line
      | none => throw .noLastSourceLine
    return LineMap.filled (script.filter fun entry => low ≤ entry.1 && entry.1 ≤ high)
  | _, _ => throw .lineOutOfRange

end MovieDiff.Display
