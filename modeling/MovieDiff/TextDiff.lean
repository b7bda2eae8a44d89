import MovieDiff.Matching

/-!
The difference of two texts: the stretches of lines that do not match, and how many lines they
touch. A stretch counts as many lines as it has on its longer side.
-/
namespace MovieDiff

/-- A range of line indices from zero; the stop is exclusive. -/
structure Span where
  start : Int
  stop : Int
  deriving DecidableEq, Repr

structure SpanPair where
  left : Span
  right : Span
  deriving DecidableEq, Repr

structure TextDiff where
  spans : List SpanPair
  changed : Nat
  deriving DecidableEq, Repr

namespace Region

def spans (r : Region) : SpanPair :=
  ⟨⟨r.leftStart, r.leftStop⟩, ⟨r.rightStart, r.rightStop⟩⟩

def touched (r : Region) : Nat :=
  max (r.leftStop - r.leftStart) (r.rightStop - r.rightStart)

end Region

def differences (a b : List String) : List Region :=
  (regions a b).filter fun r => !r.same

def TextDiff.of (a b : List String) : TextDiff :=
  ⟨(differences a b).map Region.spans,
    ((differences a b).map Region.touched).foldr (· + ·) 0⟩

end MovieDiff
