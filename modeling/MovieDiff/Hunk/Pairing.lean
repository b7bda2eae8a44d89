import MovieDiff.Hunk.Edges
import MovieDiff.Hunk.Score
import MovieDiff.Sides

/-!
Pairing the hunks of two texts in order. An empty hunk stands opposite a hunk that has no
partner. One way looks a few hunks ahead for the best partner; the other finds a pairing with
the greatest total similarity.
-/
namespace MovieDiff.Hunk

abbrev Pairs := List (Hunk × Hunk)

def unmatchedLeft (hunks : List Hunk) : Pairs :=
  hunks.map fun hunk => (hunk, [])

def unmatchedRight (hunks : List Hunk) : Pairs :=
  hunks.map fun hunk => ([], hunk)

def similarity (a b : Hunk) : Similarity :=
  Similarity.of (texts a) (texts b)

/-- The place and score of the first best candidate; the candidates start at place `k`. -/
def bestAhead (score : Hunk → Similarity) (k : Nat) (best : Nat × Similarity) :
    List Hunk → Nat × Similarity
  | [] => best
  | hunk :: rest =>
    bestAhead score (k + 1) (if best.2.lt (score hunk) then (k, score hunk) else best) rest

def defaultLookahead : Nat := 2

/-- Each first hunk takes the best partner among the next `lookahead` ones of the other side, or
gives way to one of those behind it that suits the other side's first hunk better. -/
def pairAhead (lookahead : Int) : List Hunk → List Hunk → Pairs
  | [], bs => unmatchedRight bs
  | as, [] => unmatchedLeft as
  | a :: as, b :: bs =>
    let here := similarity a b
    let (skipB, scoreB) := bestAhead (similarity a) 1 (0, here) (bs.take lookahead.toNat)
    let (skipA, scoreA) := bestAhead (similarity · b) 1 (0, here) (as.take lookahead.toNat)
    if scoreB.lt scoreA then
      unmatchedLeft ((a :: as).take skipA) ++
        ((a :: as).getD skipA a, b) :: pairAhead lookahead (as.drop skipA) bs
    else
      unmatchedRight ((b :: bs).take skipB) ++
        (a, (b :: bs).getD skipB b) :: pairAhead lookahead as (bs.drop skipB)
termination_by as bs => as.length + bs.length
decreasing_by
  all_goals
    simp only [List.length_cons, List.length_drop]
    omega

/-- The least similarity of a pair, in tenths. -/
def pairThreshold : Nat := 2

/-- How the best pairing of two beginnings ends: with a pair, or with a hunk of one side left
alone. -/
inductive Step where
  | pair
  | skipA
  | skipB
  deriving DecidableEq, Repr

/-- The score of the best pairing of two beginnings, and how it ends. -/
structure Cell (σ : Type) where
  score : σ
  step : Step

/-- The hunks that stand opposite each other. -/
def opposite (column : Sides Hunk) : Hunk × Hunk :=
  (column.left?.getD [], column.right?.getD [])

section Best

variable {σ : Type} (scores : ScoreArithmetic σ)

/-- The best of pairing the last two hunks, leaving the right one alone and leaving the left one
alone; of equals the first of these three. The scores are those of the beginnings without both
hunks, without the right one and without the left one. -/
def choose (a b : Hunk) (both left up : σ) : Cell σ :=
  let s := similarity a b
  let best : Cell σ :=
    if s.reaches pairThreshold && !scores.lt (scores.add both s) left then
      ⟨scores.add both s, .pair⟩
    else ⟨left, .skipB⟩
  if scores.lt best.score up then ⟨up, .skipA⟩ else best

/-- No left hunk with each beginning of the right ones. -/
def firstRow (bs : List Hunk) : List (Cell σ) :=
  ⟨scores.zero, .pair⟩ :: bs.map fun _ => ⟨scores.zero, .skipB⟩

/-- Goes on along a row: `left` is the cell before, the list holds the row above from there. -/
def rowFrom (a : Hunk) (left : Cell σ) : List Hunk → List (Cell σ) → List (Cell σ)
  | b :: bs, both :: up :: above =>
    left :: rowFrom a (choose scores a b both.score left.score up.score) bs (up :: above)
  | _, _ => [left]

/-- The row of one more left hunk. -/
def nextRow (bs : List Hunk) (above : List (Cell σ)) (a : Hunk) : List (Cell σ) :=
  match above with
  | [] => []
  | first :: _ => rowFrom scores a ⟨first.score, .skipA⟩ bs above

/-- A row and those of the further left hunks. -/
def rowsFrom (bs : List Hunk) (row : List (Cell σ)) : List Hunk → List (List (Cell σ))
  | [] => [row]
  | a :: as => row :: rowsFrom bs (nextRow scores bs row a) as

/-- The cells of all beginnings of both sides. -/
def table (as bs : List Hunk) : List (List (Cell σ)) :=
  rowsFrom scores bs (firstRow scores bs) as

/-- The way back from the cell of the first `i` and the first `j` hunks, the last column first;
nothing if it leaves the table or the hunks. -/
def walkBack (cells : List (List (Cell σ))) (as bs : List Hunk) (i j : Nat) :
    Option (List (Sides Hunk)) :=
  if i + j = 0 then some []
  else do
    let row ← cells[i]?
    let cell ← row[j]?
    match cell.step, i, j with
    | .pair, i + 1, j + 1 =>
      return .both (← as[i]?) (← bs[j]?) :: (← walkBack cells as bs i j)
    | .skipA, i + 1, j => return .left (← as[i]?) :: (← walkBack cells as bs i j)
    | .skipB, i, j + 1 => return .right (← bs[j]?) :: (← walkBack cells as bs i j)
    | _, _, _ => none
termination_by i + j

/-- The pairing with the greatest total similarity. -/
def pairBest (as bs : List Hunk) : Pairs :=
  let columns := walkBack (table scores as bs) as bs as.length bs.length
  ((columns.getD []).map opposite).reverse

/-- Pairs equal hunks, then the best pairs of what lies between them, and trims the context of
every pair to what both sides share. -/
def alignPairs (as bs : List Hunk) : Pairs :=
  let key (hunk : Hunk) := Text.joinLines (texts hunk)
  let pairs := (regions (as.map key) (bs.map key)).flatMap fun r =>
    if r.same then (r.left as).zip (r.right bs)
    else pairBest scores (r.left as) (r.right bs)
  pairs.map fun (a, b) => alignEdges a b

end Best

end MovieDiff.Hunk
