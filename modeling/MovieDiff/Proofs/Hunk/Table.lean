import MovieDiff.Hunk.Pairing
import MovieDiff.Proofs.Matching.Longest

/-!
The table of the best pairings, and the way back through it. A cell depends on the hunks before it
only; it is given here by these hunks, the last ones first. The way back takes a hunk of one side or
of both at each step, never leaves the table, and passes all hunks of both sides.
-/
namespace MovieDiff.Hunk

open List

variable {σ : Type} (scores : ScoreArithmetic σ)

namespace ScoreArithmetic

variable {scores}

theorem lt_irrefl (x : σ) : scores.lt x x = false := by
  cases h : scores.lt x x with
  | false => rfl
  | true => rw [← h, scores.lt_asymm h]

theorem not_lt_trans {x y z : σ} (hxy : scores.lt x y = false) (hyz : scores.lt y z = false) :
    scores.lt x z = false := by
  cases h : scores.lt x z with
  | false => rfl
  | true =>
    rcases scores.lt_or_lt y h with h | h
    · rw [hxy] at h
      cases h
    · rw [hyz] at h
      cases h

end ScoreArithmetic

/-! ### One cell -/

/-- What a cell says of two last hunks, given the scores without both, without the right one and
without the left one: none of the three ways to end has a greater score, and the score is that of
the step. The left hunk is left alone only if that is better than leaving the right one alone. -/
structure IsBestStep (a b : Hunk) (both left up : σ) (cell : Cell σ) : Prop where
  pair_le : (similarity a b).reaches pairThreshold = true →
    scores.lt cell.score (scores.add both (similarity a b)) = false
  left_le : scores.lt cell.score left = false
  up_le : scores.lt cell.score up = false
  of_pair : cell.step = .pair → (similarity a b).reaches pairThreshold = true ∧
    cell.score = scores.add both (similarity a b)
  of_skipB : cell.step = .skipB → cell.score = left
  of_skipA : cell.step = .skipA → cell.score = up ∧ scores.lt left up = true

section OneCell

variable {scores} {a b : Hunk} {both left up : σ}

theorem IsBestStep.pair (hreach : (similarity a b).reaches pairThreshold = true)
    (hleft : scores.lt (scores.add both (similarity a b)) left = false)
    (hup : scores.lt (scores.add both (similarity a b)) up = false) :
    IsBestStep scores a b both left up ⟨scores.add both (similarity a b), .pair⟩ where
  pair_le := fun _ => ScoreArithmetic.lt_irrefl _
  left_le := hleft
  up_le := hup
  of_pair := fun _ => ⟨hreach, rfl⟩
  of_skipB := nofun
  of_skipA := nofun

theorem IsBestStep.skipB
    (hpair : (similarity a b).reaches pairThreshold = true →
      scores.lt (scores.add both (similarity a b)) left = true)
    (hup : scores.lt left up = false) :
    IsBestStep scores a b both left up ⟨left, .skipB⟩ where
  pair_le := fun hreach => scores.lt_asymm (hpair hreach)
  left_le := ScoreArithmetic.lt_irrefl _
  up_le := hup
  of_pair := nofun
  of_skipB := fun _ => rfl
  of_skipA := nofun

theorem IsBestStep.skipA
    (hpair : (similarity a b).reaches pairThreshold = true →
      scores.lt up (scores.add both (similarity a b)) = false)
    (hless : scores.lt left up = true) : IsBestStep scores a b both left up ⟨up, .skipA⟩ where
  pair_le := hpair
  left_le := scores.lt_asymm hless
  up_le := ScoreArithmetic.lt_irrefl _
  of_pair := nofun
  of_skipB := nofun
  of_skipA := fun _ => ⟨rfl, hless⟩

end OneCell

/-- The best of the three steps is chosen. -/
theorem isBestStep_choose (a b : Hunk) (both left up : σ) :
    IsBestStep scores a b both left up (choose scores a b both left up) := by
  unfold choose
  cases hpair : (similarity a b).reaches pairThreshold &&
      !scores.lt (scores.add both (similarity a b)) left with
  | true =>
    obtain ⟨hreach, hleft⟩ : (similarity a b).reaches pairThreshold = true ∧
        scores.lt (scores.add both (similarity a b)) left = false := by simpa using hpair
    simp only [hpair, if_true]
    split
    next hup =>
      -- leaving the right hunk alone is no better than the pair, which is worse than this
      have hless : scores.lt left up = true :=
        (scores.lt_or_lt left hup).resolve_left (by rw [hleft]; exact Bool.false_ne_true)
      exact .skipA (fun _ => scores.lt_asymm hup) hless
    next hup => exact .pair hreach hleft (Bool.eq_false_iff.2 hup)
  | false =>
    have hworse : (similarity a b).reaches pairThreshold = true →
        scores.lt (scores.add both (similarity a b)) left = true := by simpa using hpair
    simp only [hpair, Bool.false_eq_true, if_false]
    split
    next hup =>
      refine .skipA (fun hreach => ?_) hup
      exact ScoreArithmetic.not_lt_trans (scores.lt_asymm hup) (scores.lt_asymm (hworse hreach))
    next hup => exact .skipB hworse (Bool.eq_false_iff.2 hup)

/-! ### The table -/

/-- The cell of two beginnings, given with the last hunks first. -/
def cellOf : List Hunk → List Hunk → Cell σ
  | [], [] => ⟨scores.zero, .pair⟩
  | [], _ :: bs => ⟨(cellOf [] bs).score, .skipB⟩
  | _ :: as, [] => ⟨(cellOf as []).score, .skipA⟩
  | a :: as, b :: bs =>
    choose scores a b (cellOf as bs).score (cellOf (a :: as) bs).score (cellOf as (b :: bs)).score
termination_by as bs => as.length + bs.length

theorem score_cellOf_nil (bs : List Hunk) : (cellOf scores [] bs).score = scores.zero := by
  induction bs with
  | nil => rw [cellOf]
  | cons b bs ih => rw [cellOf, ih]

theorem isBestStep_cellOf (a : Hunk) (as : List Hunk) (b : Hunk) (bs : List Hunk) :
    IsBestStep scores a b (cellOf scores as bs).score (cellOf scores (a :: as) bs).score
      (cellOf scores as (b :: bs)).score (cellOf scores (a :: as) (b :: bs)) := by
  rw [cellOf]
  exact isBestStep_choose scores a b _ _ _

/-- One more right hunk does not lower the score. -/
theorem score_cons_right (as : List Hunk) (b : Hunk) (bs : List Hunk) :
    scores.lt (cellOf scores as (b :: bs)).score (cellOf scores as bs).score = false := by
  cases as with
  | nil =>
    rw [cellOf]
    exact ScoreArithmetic.lt_irrefl _
  | cons a as => exact (isBestStep_cellOf scores a as b bs).left_le

theorem score_cons_left (a : Hunk) (as bs : List Hunk) :
    scores.lt (cellOf scores (a :: as) bs).score (cellOf scores as bs).score = false := by
  cases bs with
  | nil =>
    rw [cellOf]
    exact ScoreArithmetic.lt_irrefl _
  | cons b bs => exact (isBestStep_cellOf scores a as b bs).up_le

/-- The cells of a beginning of the right side and of all longer ones. -/
def cellsFrom (as bs : List Hunk) : List Hunk → List (Cell σ)
  | [] => [cellOf scores as bs]
  | b :: rest => cellOf scores as bs :: cellsFrom as (b :: bs) rest

theorem cellsFrom_eq_cons (as bs rest : List Hunk) :
    cellsFrom scores as bs rest = cellOf scores as bs :: (cellsFrom scores as bs rest).tail := by
  cases rest <;> rfl

theorem getElem?_cellsFrom (as bs rest : List Hunk) {j : Nat} (hj : j ≤ rest.length) :
    (cellsFrom scores as bs rest)[j]? = some (cellOf scores as ((rest.take j).reverse ++ bs)) := by
  induction rest generalizing bs j with
  | nil =>
    have hzero : j = 0 := Nat.le_zero.1 hj
    subst hzero
    rfl
  | cons b rest ih =>
    cases j with
    | zero => rfl
    | succ j =>
      rw [cellsFrom, getElem?_cons_succ, ih (b :: bs) (Nat.le_of_succ_le_succ hj)]
      simp

theorem cellsFrom_nil (bs rest : List Hunk) :
    (cellsFrom scores [] bs rest).tail = rest.map fun _ => ⟨scores.zero, .skipB⟩ := by
  induction rest generalizing bs with
  | nil => rfl
  | cons b rest ih =>
    rw [cellsFrom, tail_cons, cellsFrom_eq_cons, ih, cellOf, score_cellOf_nil]
    rfl

theorem firstRow_eq (bs : List Hunk) : firstRow scores bs = cellsFrom scores [] [] bs := by
  rw [cellsFrom_eq_cons, cellsFrom_nil, cellOf, firstRow]

theorem rowFrom_cellsFrom (a : Hunk) (as bs rest : List Hunk) :
    rowFrom scores a (cellOf scores (a :: as) bs) rest (cellsFrom scores as bs rest) =
      cellsFrom scores (a :: as) bs rest := by
  induction rest generalizing bs with
  | nil => rfl
  | cons b rest ih =>
    have hstep : choose scores a b (cellOf scores as bs).score (cellOf scores (a :: as) bs).score
        (cellOf scores as (b :: bs)).score = cellOf scores (a :: as) (b :: bs) := by
      rw [cellOf]
    rw [cellsFrom, cellsFrom_eq_cons, rowFrom, hstep, ← cellsFrom_eq_cons, ih, cellsFrom]

theorem nextRow_cellsFrom (a : Hunk) (as bs : List Hunk) :
    nextRow scores bs (cellsFrom scores as [] bs) a = cellsFrom scores (a :: as) [] bs := by
  have hfirst : (⟨(cellOf scores as []).score, .skipA⟩ : Cell σ) = cellOf scores (a :: as) [] := by
    rw [cellOf]
  rw [cellsFrom_eq_cons, nextRow, hfirst, ← cellsFrom_eq_cons, rowFrom_cellsFrom]

theorem getElem?_rowsFrom (as bs rest : List Hunk) {i : Nat} (hi : i ≤ rest.length) :
    (rowsFrom scores bs (cellsFrom scores as [] bs) rest)[i]? =
      some (cellsFrom scores ((rest.take i).reverse ++ as) [] bs) := by
  induction rest generalizing as i with
  | nil =>
    have hzero : i = 0 := Nat.le_zero.1 hi
    subst hzero
    rfl
  | cons a rest ih =>
    cases i with
    | zero => rfl
    | succ i =>
      rw [rowsFrom, getElem?_cons_succ, nextRow_cellsFrom,
        ih (a :: as) (Nat.le_of_succ_le_succ hi)]
      simp

/-- The table has a row for each beginning of the left side, with the cells of all beginnings of the
right side. -/
theorem getElem?_table (as bs : List Hunk) {i : Nat} (hi : i ≤ as.length) :
    (table scores as bs)[i]? = some (cellsFrom scores (as.take i).reverse [] bs) := by
  rw [table, firstRow_eq, getElem?_rowsFrom scores [] bs as hi, append_nil]

/-! ### The way back -/

/-- The way back from the cell of two beginnings, both given with the last hunks first. -/
def route : List Hunk → List Hunk → List (Sides Hunk)
  | [], [] => []
  | [], b :: bs => .right b :: route [] bs
  | a :: as, [] => .left a :: route as []
  | a :: as, b :: bs =>
    match (cellOf scores (a :: as) (b :: bs)).step with
    | .pair => .both a b :: route as bs
    | .skipB => .right b :: route (a :: as) bs
    | .skipA => .left a :: route as (b :: bs)
termination_by as bs => as.length + bs.length

/-- Walking back finds the route. -/
theorem walkBack_table (as bs : List Hunk) {i j : Nat} (hi : i ≤ as.length) (hj : j ≤ bs.length) :
    walkBack (table scores as bs) as bs i j =
      some (route scores (as.take i).reverse (bs.take j).reverse) := by
  -- each step takes at least one hunk
  generalize hn : i + j = n
  induction n using Nat.strongRecOn generalizing i j with
  | ind n ih =>
    rw [walkBack]
    split
    next hzero =>
      have hi : i = 0 := by omega
      have hj : j = 0 := by omega
      subst hi hj
      simp [route]
    next hpos =>
      rw [getElem?_table scores as bs hi]
      simp only [bind, Option.bind_some, getElem?_cellsFrom scores _ [] bs hj,
        append_nil]
      cases i with
      | zero =>
        cases j with
        | zero => exact absurd rfl hpos
        | succ j =>
          have hrest := ih (0 + j) (by omega) hi (Nat.le_of_succ_le hj) rfl
          rw [Match.reverse_take_succ hj]
          simp [cellOf, route, getElem?_eq_getElem hj, hrest]
      | succ i =>
        cases j with
        | zero =>
          have hrest := ih (i + 0) (by omega) (Nat.le_of_succ_le hi) hj rfl
          rw [Match.reverse_take_succ hi]
          simp [cellOf, route, getElem?_eq_getElem hi, hrest]
        | succ j =>
          have hboth := ih (i + j) (by omega) (Nat.le_of_succ_le hi) (Nat.le_of_succ_le hj) rfl
          have hleft := ih (i + 1 + j) (by omega) hi (Nat.le_of_succ_le hj) rfl
          have hup := ih (i + (j + 1)) (by omega) (Nat.le_of_succ_le hi) hj rfl
          rw [Match.reverse_take_succ hi] at hleft ⊢
          rw [Match.reverse_take_succ hj] at hup ⊢
          have ha := getElem?_eq_getElem hi
          have hb := getElem?_eq_getElem hj
          rw [route]
          cases (cellOf scores (as[i] :: (as.take i).reverse)
            (bs[j] :: (bs.take j).reverse)).step with
          | pair => simp [ha, hb, hboth]
          | skipB => simp [hb, hleft]
          | skipA => simp [ha, hup]

structure IsAlignment (as bs : List Hunk) (columns : List (Sides Hunk)) : Prop where
  lefts : columns.filterMap Sides.left? = as
  rights : columns.filterMap Sides.right? = bs

theorem isAlignment_route (as bs : List Hunk) : IsAlignment as bs (route scores as bs) := by
  fun_induction route scores as bs with
  | case1 => exact ⟨rfl, rfl⟩
  | case2 b bs ih => exact ⟨ih.lefts, congrArg (b :: ·) ih.rights⟩
  | case3 a as ih => exact ⟨congrArg (a :: ·) ih.lefts, ih.rights⟩
  | case4 a as b bs hstep ih =>
    exact ⟨congrArg (a :: ·) ih.lefts, congrArg (b :: ·) ih.rights⟩
  | case5 a as b bs hstep ih => exact ⟨ih.lefts, congrArg (b :: ·) ih.rights⟩
  | case6 a as b bs hstep ih => exact ⟨congrArg (a :: ·) ih.lefts, ih.rights⟩

theorem IsAlignment.reverse {as bs : List Hunk} {columns : List (Sides Hunk)}
    (h : IsAlignment as bs columns) : IsAlignment as.reverse bs.reverse columns.reverse :=
  ⟨by rw [filterMap_reverse, h.lefts], by rw [filterMap_reverse, h.rights]⟩

def bestColumns (as bs : List Hunk) : List (Sides Hunk) :=
  (route scores as.reverse bs.reverse).reverse

/-- The best columns show all hunks. -/
theorem isAlignment_bestColumns (as bs : List Hunk) :
    IsAlignment as bs (bestColumns scores as bs) := by
  have h := (isAlignment_route scores as.reverse bs.reverse).reverse
  rwa [reverse_reverse, reverse_reverse] at h

/-- The way back from the last cell stays in the table and finds these columns. -/
theorem walkBack_eq_some (as bs : List Hunk) :
    walkBack (table scores as bs) as bs as.length bs.length =
      some (bestColumns scores as bs).reverse := by
  rw [walkBack_table scores as bs (Nat.le_refl _) (Nat.le_refl _), take_length,
    take_length, bestColumns, reverse_reverse]

theorem pairBest_eq (as bs : List Hunk) :
    pairBest scores as bs = (bestColumns scores as bs).map opposite := by
  rw [pairBest, walkBack_eq_some, Option.getD_some, ← map_reverse, reverse_reverse]

end MovieDiff.Hunk
