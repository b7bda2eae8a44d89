import MovieDiff.Matching
import MovieDiff.Text.Numeral

/-!
Adding up similarities. Doubles hold 53 binary digits, so that each similarity is rounded before it
is added, and each sum is rounded again.
-/
namespace MovieDiff.Hunk

/-- The arithmetic in which similarities are added up. Its comparison is a strict weak order. -/
structure ScoreArithmetic (σ : Type) where
  zero : σ
  add : σ → Similarity → σ
  lt : σ → σ → Bool
  lt_asymm : ∀ {x y : σ}, lt x y = true → lt y x = false
  lt_or_lt : ∀ {x z : σ} (y : σ), lt x z = true → lt x y = true ∨ lt y z = true

/-- The binary digits of a double. -/
def doubleDigits : Nat := 53

/-- The binary places that the doubles from an eighth on have after the point; the similarity of a
pair is a fifth or more. -/
def doublePlaces : Nat := 55

/-- The nearest whole number to a fraction that has, up to zeros at the end, as many digits as a
double. -/
def roundToDouble (num den : Nat) : Nat :=
  let spare := Nat.pow 2 ((num / den).log2 + 1 - doubleDigits)
  Text.roundDiv num (den * spare) * spare

/-- A similarity and a score in units of the last binary place. -/
def addRounded (score : Nat) (s : Similarity) : Nat :=
  roundToDouble (score + roundToDouble (s.fraction.1 * Nat.pow 2 doublePlaces) s.fraction.2) 1

theorem decide_lt_asymm {x y : Nat} (h : decide (x < y) = true) : decide (y < x) = false := by
  rw [decide_eq_true_eq] at h
  rw [decide_eq_false_iff_not]
  omega

theorem decide_lt_or_lt {x z : Nat} (y : Nat) (h : decide (x < z) = true) :
    decide (x < y) = true ∨ decide (y < z) = true := by
  rw [decide_eq_true_eq] at h
  rw [decide_eq_true_eq, decide_eq_true_eq]
  omega

/-- Sums of doubles. -/
def roundedScores : ScoreArithmetic Nat where
  zero := 0
  add := addRounded
  lt := fun x y => decide (x < y)
  lt_asymm := decide_lt_asymm
  lt_or_lt := decide_lt_or_lt

end MovieDiff.Hunk
