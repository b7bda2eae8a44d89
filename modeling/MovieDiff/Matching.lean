/-!
Matching two sequences. The longest run that both share is kept, the earliest in the first
sequence and then the earliest in the second among equals; what lies before it and what lies
after it is matched in the same way. The regions between and of the matches make up both
sequences.
-/
namespace MovieDiff

/-- A run that two sequences share: where it starts in each, and its length. -/
structure Match where
  left : Nat
  right : Nat
  size : Nat
  deriving DecidableEq, Repr

namespace Match

variable {α : Type} [DecidableEq α]

/-- From the lengths of the shared runs that end just before each element of the second
sequence, those of the runs that end at it and at `x`. -/
def extendRow (x : α) : List α → List Nat → List Nat
  | y :: ys, run :: runs => (if x = y then run + 1 else 0) :: extendRow x ys runs
  | _, _ => []

/-- Replaces the best match by each strictly longer run of a row that ends at element `i` of
the first sequence; the row starts at element `j` of the second. -/
def bestInRow (i j : Nat) (best : Match) : List Nat → Match
  | [] => best
  | run :: runs =>
    bestInRow i (j + 1) (if best.size < run then ⟨i + 1 - run, j + 1 - run, run⟩ else best) runs

/-- Goes on at element `i` of the first sequence, given the row of the element before it. -/
def longestFrom (ys : List α) (i : Nat) (row : List Nat) (best : Match) : List α → Match
  | [] => best
  | x :: xs =>
    let row := extendRow x ys (0 :: row)
    longestFrom ys (i + 1) row (bestInRow i 0 best row) xs

def longest (xs ys : List α) : Match :=
  longestFrom ys 0 (ys.map fun _ => 0) ⟨0, 0, 0⟩ xs

/-- A run grows by one at most. -/
theorem mem_extendRow_le {x : α} {ys : List α} {runs : List Nat} {bound : Nat}
    (h : ∀ run ∈ runs, run ≤ bound) : ∀ run ∈ extendRow x ys runs, run ≤ bound + 1 := by
  induction ys generalizing runs with
  | nil => simp [extendRow]
  | cons y ys ih =>
    cases runs with
    | nil => simp [extendRow]
    | cons run runs =>
      intro r hr
      simp only [extendRow, List.mem_cons] at hr
      rcases hr with rfl | hr
      · have := h run (by simp)
        split <;> omega
      · exact ih (fun s hs => h s (by simp [hs])) r hr

theorem bestInRow_within {i j : Nat} {best : Match} {runs : List Nat}
    (hbest : best.left + best.size ≤ i + 1) (h : ∀ run ∈ runs, run ≤ i + 1) :
    (bestInRow i j best runs).left + (bestInRow i j best runs).size ≤ i + 1 := by
  induction runs generalizing j best with
  | nil => exact hbest
  | cons run runs ih =>
    have hrun := h run (by simp)
    refine ih ?_ (fun r hr => h r (by simp [hr]))
    split
    · simp only; omega
    · exact hbest

/-- A match ends within what was visited. -/
theorem longestFrom_within (ys : List α) (i : Nat) (row : List Nat) (best : Match) (xs : List α)
    (hbest : best.left + best.size ≤ i) (hrow : ∀ run ∈ row, run ≤ i) :
    (longestFrom ys i row best xs).left + (longestFrom ys i row best xs).size ≤ i + xs.length := by
  induction xs generalizing i row best with
  | nil => simpa [longestFrom] using hbest
  | cons x xs ih =>
    have hnext : ∀ run ∈ extendRow x ys (0 :: row), run ≤ i + 1 :=
      mem_extendRow_le fun run hrun => by
        rcases List.mem_cons.1 hrun with rfl | hrun
        · omega
        · exact hrow run hrun
    have hbest' : best.left + best.size ≤ i + 1 := by omega
    have := ih (i + 1) _ _ (bestInRow_within (j := 0) hbest' hnext) hnext
    simp only [longestFrom, List.length_cons]
    omega

/-- The longest match lies inside the first sequence. -/
theorem longest_within (xs ys : List α) :
    (longest xs ys).left + (longest xs ys).size ≤ xs.length := by
  have := longestFrom_within ys 0 (ys.map fun _ => 0) ⟨0, 0, 0⟩ xs (by simp) (by simp)
  simpa [longest] using this

/-- All matches, from left to right; `i` and `j` are where the two sequences start. -/
def allFrom (i j : Nat) (xs ys : List α) : List Match :=
  let found := longest xs ys
  if found.size = 0 then []
  else
    allFrom i j (xs.take found.left) (ys.take found.right) ++
      ⟨i + found.left, j + found.right, found.size⟩ ::
        allFrom (i + found.left + found.size) (j + found.right + found.size)
          (xs.drop (found.left + found.size)) (ys.drop (found.right + found.size))
termination_by xs.length
decreasing_by
  all_goals
    have := longest_within xs ys
    simp only [List.length_take, List.length_drop]
    simp only [found] at *
    omega

def all (xs ys : List α) : List Match :=
  allFrom 0 0 xs ys

end Match

/-- A stretch of two sequences: the same on both sides, or different. Starts count from zero
and stops are exclusive. -/
structure Region where
  same : Bool
  leftStart : Nat
  leftStop : Nat
  rightStart : Nat
  rightStop : Nat
  deriving DecidableEq, Repr

namespace Region

/-- The region between two matches, unless it is empty on both sides. -/
def between (i i' j j' : Nat) : List Region :=
  if i < i' ∨ j < j' then [⟨false, i, i', j, j'⟩] else []

/-- The regions from `i` and `j` up to the ends of the two sequences. -/
def ofMatches (leftEnd rightEnd : Nat) (i j : Nat) : List Match → List Region
  | [] => between i leftEnd j rightEnd
  | m :: rest =>
    between i m.left j m.right ++
      ⟨true, m.left, m.left + m.size, m.right, m.right + m.size⟩ ::
        ofMatches leftEnd rightEnd (m.left + m.size) (m.right + m.size) rest

def left {α : Type} (r : Region) (xs : List α) : List α :=
  (xs.take r.leftStop).drop r.leftStart

def right {α : Type} (r : Region) (ys : List α) : List α :=
  (ys.take r.rightStop).drop r.rightStart

end Region

def regions {α : Type} [DecidableEq α] (xs ys : List α) : List Region :=
  Region.ofMatches xs.length ys.length 0 0 (Match.all xs ys)

/-- How alike two sequences are: twice the matched elements over all elements. -/
structure Similarity where
  matched : Nat
  total : Nat
  deriving DecidableEq, Repr

namespace Similarity

def of {α : Type} [DecidableEq α] (xs ys : List α) : Similarity :=
  ⟨((Match.all xs ys).map Match.size).foldr (· + ·) 0, xs.length + ys.length⟩

/-- Numerator and denominator of the ratio; two empty sequences are fully alike. -/
def fraction (s : Similarity) : Nat × Nat :=
  if s.total = 0 then (1, 1) else (2 * s.matched, s.total)

def lt (s t : Similarity) : Bool :=
  s.fraction.1 * t.fraction.2 < t.fraction.1 * s.fraction.2

def toFloat (s : Similarity) : Float :=
  Float.ofNat s.fraction.1 / Float.ofNat s.fraction.2

def reaches (s : Similarity) (tenths : Nat) : Bool :=
  tenths * s.fraction.2 ≤ 10 * s.fraction.1

end Similarity

end MovieDiff
