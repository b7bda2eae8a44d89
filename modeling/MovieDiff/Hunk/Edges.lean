import MovieDiff.Hunk.Basic

/-!
Trimming the context at the edges of two hunks to what both share.
-/
namespace MovieDiff.Hunk

/-- The last pair of lines, going inwards to outwards, up to which all texts agree. -/
def lastAgreeing : List HunkLine → List HunkLine → Option (HunkLine × HunkLine)
  | x :: xs, y :: ys =>
    if x.text = y.text then some ((lastAgreeing xs ys).getD (x, y)) else none
  | _, _ => none

/-- The context at the start, innermost line first. -/
def leadingContext (hunk : Hunk) : List HunkLine :=
  (hunk.takeWhile HunkLine.isContext).reverse

/-- The context at the end, innermost line first. -/
def trailingContext (hunk : Hunk) : List HunkLine :=
  (hunk.reverse.takeWhile HunkLine.isContext).reverse

def between (first last : Int) (hunk : Hunk) : Hunk :=
  hunk.filter fun line => first ≤ line.index && line.index ≤ last

/-- Keeps the shared context at each edge, or all of it where none is shared. A hunk that has
context only, or nothing, leaves both as they are. -/
def alignEdges (a b : Hunk) : Hunk × Hunk :=
  match a, b with
  | headA :: _, headB :: _ =>
    if a.all HunkLine.isContext || b.all HunkLine.isContext then (a, b)
    else
      let (firstA, firstB) :=
        (lastAgreeing (leadingContext a) (leadingContext b)).getD (headA, headB)
      let (lastA, lastB) :=
        (lastAgreeing (trailingContext a) (trailingContext b)).getD
          (a.getLastD headA, b.getLastD headB)
      (between firstA.index lastA.index a, between firstB.index lastB.index b)
  | _, _ => (a, b)

end MovieDiff.Hunk
