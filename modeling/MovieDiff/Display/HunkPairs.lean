import MovieDiff.Display.Spans
import MovieDiff.Hunk.Basic
import MovieDiff.Hunk.Edges

/-!
Hunks to show: for each pair of spans one pair of hunks with context, neighbours merged where
they meet, and the context at the edges trimmed to what both sides share.
-/
namespace MovieDiff.Display

/-- A side without a hunk has nothing to show. -/
structure HunkPair where
  left : Option Hunk
  right : Option Hunk
  deriving DecidableEq, Repr

/-- A pair of hunks of which neither is empty. -/
structure FullPair where
  left : Hunk
  right : Hunk
  deriving DecidableEq, Repr

def FullPair.toPair (p : FullPair) : HunkPair :=
  ⟨some p.left, some p.right⟩

def HunkPair.full? : HunkPair → Option FullPair
  | ⟨some (x :: xs), some (y :: ys)⟩ => some ⟨x :: xs, y :: ys⟩
  | _ => none

def firstIndex (hunk : Hunk) : Int :=
  (hunk.head?.map HunkLine.index).getD 0

def lastIndex (hunk : Hunk) : Int :=
  (hunk.getLast?.map HunkLine.index).getD 0

/-- Whether two hunks overlap or are adjacent. -/
def meets (x y : Hunk) : Bool :=
  firstIndex y ≤ lastIndex x + 1 && firstIndex x ≤ lastIndex y + 1

/-- The lines between two hunks, as context. -/
def gapBetween (corpus : List String) (x y : Hunk) : Except Fault Hunk := do
  return Hunk.marked .context (← Hunk.cut corpus ⟨lastIndex x + 1, firstIndex y⟩ 0)

variable (leftCorpus rightCorpus : List String)

/-- One pair of two, when they meet on both sides, or on one side with a gap to fill on the
other. -/
def join? (last next : FullPair) : Except Fault (Option FullPair) := do
  let meetsLeft := meets last.left next.left
  let meetsRight := meets last.right next.right
  if meetsLeft && meetsRight then
    return some ⟨← Hunk.merge [last.left, next.left], ← Hunk.merge [last.right, next.right]⟩
  else if meetsLeft && lastIndex last.right < firstIndex next.right then
    let gap ← gapBetween rightCorpus last.right next.right
    return some ⟨← Hunk.merge [last.left, next.left], ← Hunk.merge [last.right, gap, next.right]⟩
  else if meetsRight && lastIndex last.left < firstIndex next.left then
    let gap ← gapBetween leftCorpus last.left next.left
    return some ⟨← Hunk.merge [last.left, gap, next.left], ← Hunk.merge [last.right, next.right]⟩
  else return none

/-- Goes on after the pair `last`; a pair with an empty or missing side stands alone. -/
def mergePairsFrom (last : Option FullPair) : List HunkPair → Except Fault (List HunkPair)
  | [] => .ok (last.toList.map FullPair.toPair)
  | pair :: rest =>
    match pair.full?, last with
    | none, _ => do
      return last.toList.map FullPair.toPair ++ pair :: (← mergePairsFrom none rest)
    | some next, none => mergePairsFrom (some next) rest
    | some next, some known => do
      match ← join? leftCorpus rightCorpus known next with
      | some joined => mergePairsFrom (some joined) rest
      | none => return known.toPair :: (← mergePairsFrom (some next) rest)

def mergePairs (pairs : List HunkPair) : Except Fault (List HunkPair) :=
  if pairs.length < 2 then .ok pairs else mergePairsFrom leftCorpus rightCorpus none pairs

def shownContext : Int := 5

def cutSide (corpus : List String) : Option Span → Except Fault (Option Hunk)
  | some span => do return some (← Hunk.cut corpus span shownContext)
  | none => .ok none

def trimPair : HunkPair → HunkPair
  | ⟨some x, some y⟩ =>
    let (x, y) := Hunk.alignEdges x y
    ⟨some x, some y⟩
  | pair => pair

/-- The pairs of hunks to show for some spans. -/
def assemble (spans : List ShownSpans) : Except Fault (List HunkPair) := do
  let pairs ← spans.mapM fun s => do
    return HunkPair.mk (← cutSide leftCorpus s.left?) (← cutSide rightCorpus s.right?)
  return (← mergePairs leftCorpus rightCorpus pairs).map trimPair

end MovieDiff.Display
