import Mathlib.Algebra.Order.Field.Rat
import Mathlib.Data.List.Induction
import Mathlib.Order.Bounds.Basic
import Mathlib.Tactic.Linarith
import Mathlib.Tactic.NormNum
import MovieDiff.Proofs.Hunk.Table

/-!
The best pairing is best. With similarities that are added up exactly, the score of a cell is the
greatest weight that a matching of the two beginnings can have: a matching takes pairs of hunks that
are alike enough, in the order of both sides. The way back collects a matching of that weight.
-/
namespace MovieDiff

open List

namespace Similarity

/-- Twice the matched elements over all elements; one if there are none. -/
def ratio (s : Similarity) : ℚ :=
  s.fraction.1 / s.fraction.2

theorem fraction_snd_pos (s : Similarity) : 0 < s.fraction.2 := by
  unfold fraction
  split
  · exact Nat.one_pos
  next h => exact Nat.pos_of_ne_zero h

/-- Similarities are compared with the threshold as fractions. -/
theorem reaches_pairThreshold_iff (s : Similarity) :
    s.reaches Hunk.pairThreshold = true ↔ 1 / 5 ≤ s.ratio := by
  have hpos : (0 : ℚ) < s.fraction.2 := by exact_mod_cast s.fraction_snd_pos
  rw [reaches, decide_eq_true_eq, ratio, div_le_div_iff₀ (by norm_num) hpos]
  constructor
  · intro h
    have : s.fraction.2 ≤ s.fraction.1 * 5 := by unfold Hunk.pairThreshold at h; omega
    rw [one_mul]
    exact_mod_cast this
  · intro h
    rw [one_mul] at h
    have : s.fraction.2 ≤ s.fraction.1 * 5 := by exact_mod_cast h
    unfold Hunk.pairThreshold
    omega

end Similarity

namespace Hunk

theorem decide_ratio_asymm {x y : ℚ} (h : decide (x < y) = true) : decide (y < x) = false := by
  simp only [decide_eq_true_eq, decide_eq_false_iff_not] at h ⊢
  exact h.asymm

theorem decide_ratio_or {x z : ℚ} (y : ℚ) (h : decide (x < z) = true) :
    decide (x < y) = true ∨ decide (y < z) = true := by
  simp only [decide_eq_true_eq] at h ⊢
  exact (lt_or_ge x y).imp_right fun hle => lt_of_le_of_lt hle h

def exactScores : ScoreArithmetic ℚ where
  zero := 0
  add := fun score s => score + s.ratio
  lt := fun x y => decide (x < y)
  lt_asymm := decide_ratio_asymm
  lt_or_lt := decide_ratio_or

theorem lt_exactScores_eq_false {x y : ℚ} : exactScores.lt x y = false ↔ y ≤ x :=
  decide_eq_false_iff_not.trans not_lt

/-! ### Columns -/

def columnRatio : Sides Hunk → ℚ
  | .both a b => (similarity a b).ratio
  | _ => 0

def totalRatio (columns : List (Sides Hunk)) : ℚ :=
  (columns.map columnRatio).sum

theorem totalRatio_cons (column : Sides Hunk) (columns : List (Sides Hunk)) :
    totalRatio (column :: columns) = columnRatio column + totalRatio columns :=
  sum_cons

theorem totalRatio_concat (columns : List (Sides Hunk)) (column : Sides Hunk) :
    totalRatio (columns ++ [column]) = totalRatio columns + columnRatio column := by
  simp [totalRatio]

/-- The way back collects the score of the cell it starts from. -/
theorem totalRatio_route (as bs : List Hunk) :
    totalRatio (route exactScores as bs) = (cellOf exactScores as bs).score := by
  fun_induction route exactScores as bs with
  | case1 =>
    rw [cellOf]
    rfl
  | case2 b bs ih =>
    rw [totalRatio_cons, ih, cellOf]
    exact zero_add _
  | case3 a as ih =>
    rw [totalRatio_cons, ih, cellOf]
    exact zero_add _
  | case4 a as b bs hstep ih =>
    rw [totalRatio_cons, ih, ((isBestStep_cellOf exactScores a as b bs).of_pair hstep).2]
    exact add_comm _ _
  | case5 a as b bs hstep ih =>
    rw [totalRatio_cons, ih, (isBestStep_cellOf exactScores a as b bs).of_skipB hstep]
    exact zero_add _
  | case6 a as b bs hstep ih =>
    rw [totalRatio_cons, ih, ((isBestStep_cellOf exactScores a as b bs).of_skipA hstep).1]
    exact zero_add _

/-- Only hunks that are alike enough are paired. -/
theorem reaches_of_mem_route {σ : Type} (scores : ScoreArithmetic σ) {as bs : List Hunk}
    {a b : Hunk} (h : .both a b ∈ route scores as bs) : (similarity a b).reaches pairThreshold = true := by
  fun_induction route scores as bs with
  | case1 => cases h
  | case2 _ _ ih => exact ih (by simpa using h)
  | case3 _ _ ih => exact ih (by simpa using h)
  | case4 a' as b' bs hstep ih =>
    rcases mem_cons.1 h with heq | h
    · cases heq
      exact ((isBestStep_cellOf scores a as b bs).of_pair hstep).1
    · exact ih h
  | case5 _ _ _ _ _ ih => exact ih (by simpa using h)
  | case6 _ _ _ _ _ ih => exact ih (by simpa using h)

/-! ### Matchings -/

/-- Places of two lists that are matched with each other: later ones are later on both sides, and
the hunks at each pair of places are alike enough. -/
structure IsMatching (as bs : List Hunk) (places : List (Fin as.length × Fin bs.length)) :
    Prop where
  ordered : places.Pairwise fun p q => p.1 < q.1 ∧ p.2 < q.2
  alike : ∀ p ∈ places, 1 / 5 ≤ (similarity as[p.1] bs[p.2]).ratio

def weight (as bs : List Hunk) (places : List (Fin as.length × Fin bs.length)) : ℚ :=
  (places.map fun p => (similarity as[p.1] bs[p.2]).ratio).sum

theorem weight_concat (as bs : List Hunk) (places : List (Fin as.length × Fin bs.length))
    (p : Fin as.length × Fin bs.length) :
    weight as bs (places ++ [p]) = weight as bs places + (similarity as[p.1] bs[p.2]).ratio := by
  simp [weight]

theorem isMatching_concat_iff {as bs : List Hunk} {places : List (Fin as.length × Fin bs.length)}
    {p : Fin as.length × Fin bs.length} :
    IsMatching as bs (places ++ [p]) ↔ IsMatching as bs places ∧
      (∀ q ∈ places, q.1 < p.1 ∧ q.2 < p.2) ∧ 1 / 5 ≤ (similarity as[p.1] bs[p.2]).ratio := by
  constructor
  · intro h
    obtain ⟨hplaces, -, hlast⟩ := pairwise_append.1 h.ordered
    exact ⟨⟨hplaces, fun q hq => h.alike q (by simp [hq])⟩, fun q hq => hlast q hq p (by simp),
      h.alike p (by simp)⟩
  · rintro ⟨h, hlast, hp⟩
    refine ⟨pairwise_append.2 ⟨h.ordered, pairwise_singleton _ _, ?_⟩, ?_⟩
    · simpa using hlast
    · intro q hq
      rcases mem_append.1 hq with hq | hq
      · exact h.alike q hq
      · rw [mem_singleton.1 hq]
        exact hp

def scoreAt (as bs : List Hunk) (i j : Nat) : ℚ :=
  (cellOf exactScores (as.take i).reverse (bs.take j).reverse).score

variable {as bs : List Hunk}

theorem scoreAt_succ_right (as bs : List Hunk) (i j : Nat) :
    scoreAt as bs i j ≤ scoreAt as bs i (j + 1) := by
  unfold scoreAt
  rcases Nat.lt_or_ge j bs.length with hj | hj
  · rw [Match.reverse_take_succ hj]
    exact lt_exactScores_eq_false.1 (score_cons_right exactScores _ _ _)
  · have htake : bs.take (j + 1) = bs.take j := by
      rw [take_of_length_le hj, take_of_length_le (Nat.le_succ_of_le hj)]
    rw [htake]

theorem scoreAt_succ_left (as bs : List Hunk) (i j : Nat) :
    scoreAt as bs i j ≤ scoreAt as bs (i + 1) j := by
  unfold scoreAt
  rcases Nat.lt_or_ge i as.length with hi | hi
  · rw [Match.reverse_take_succ hi]
    exact lt_exactScores_eq_false.1 (score_cons_left exactScores _ _ _)
  · have htake : as.take (i + 1) = as.take i := by
      rw [take_of_length_le hi, take_of_length_le (Nat.le_succ_of_le hi)]
    rw [htake]

/-- More hunks never score less. -/
theorem scoreAt_mono (as bs : List Hunk) {i i' j j' : Nat} (hi : i ≤ i') (hj : j ≤ j') :
    scoreAt as bs i j ≤ scoreAt as bs i' j' :=
  (monotone_nat_of_le_succ (scoreAt_succ_right as bs i) hj).trans
    (monotone_nat_of_le_succ (fun k => scoreAt_succ_left as bs k j') hi)

theorem scoreAt_zero (as bs : List Hunk) : scoreAt as bs 0 0 = 0 :=
  score_cellOf_nil exactScores []

/-- A pair of hunks that are alike enough can be added to any cell. -/
theorem scoreAt_add_le (i : Fin as.length) (j : Fin bs.length)
    (h : 1 / 5 ≤ (similarity as[i] bs[j]).ratio) :
    scoreAt as bs i j + (similarity as[i] bs[j]).ratio ≤ scoreAt as bs (i + 1) (j + 1) := by
  unfold scoreAt
  rw [Match.reverse_take_succ i.isLt, Match.reverse_take_succ j.isLt]
  have hreach := (Similarity.reaches_pairThreshold_iff _).2 h
  exact lt_exactScores_eq_false.1 ((isBestStep_cellOf exactScores _ _ _ _).pair_le hreach)

/-- No matching of two beginnings weighs more than the score of their cell. -/
theorem weight_le_scoreAt {places : List (Fin as.length × Fin bs.length)} {i j : Nat}
    (h : IsMatching as bs places) (hplaces : ∀ p ∈ places, p.1 < i ∧ p.2 < j) :
    weight as bs places ≤ scoreAt as bs i j := by
  induction places using List.reverseRecOn generalizing i j with
  | nil =>
    calc weight as bs [] = scoreAt as bs 0 0 := (scoreAt_zero as bs).symm
      _ ≤ scoreAt as bs i j := scoreAt_mono as bs (Nat.zero_le i) (Nat.zero_le j)
  | append_singleton places p ih =>
    obtain ⟨hfront, hlast, hp⟩ := isMatching_concat_iff.1 h
    obtain ⟨hi, hj⟩ := hplaces p (by simp)
    calc weight as bs (places ++ [p])
        = weight as bs places + (similarity as[p.1] bs[p.2]).ratio := weight_concat as bs places p
      _ ≤ scoreAt as bs p.1 p.2 + (similarity as[p.1] bs[p.2]).ratio :=
        add_le_add_left (ih hfront hlast) _
      _ ≤ scoreAt as bs (p.1 + 1) (p.2 + 1) := scoreAt_add_le p.1 p.2 hp
      _ ≤ scoreAt as bs i j := scoreAt_mono as bs hi hj

/-! ### The matching that is found -/

/-- The element after a prefix. -/
theorem exists_getElem_eq_of_concat_prefix {α : Type} {xs ys : List α} {x : α}
    (h : xs ++ [x] <+: ys) : ∃ hlt : xs.length < ys.length, ys[xs.length] = x := by
  obtain ⟨rest, rfl⟩ := h
  exact ⟨by simp, by simp⟩

/-- The pairs of columns that show beginnings of both sides are a matching. -/
theorem exists_isMatching_of_prefix (as bs : List Hunk) {columns : List (Sides Hunk)}
    (hleft : columns.filterMap Sides.left? <+: as) (hright : columns.filterMap Sides.right? <+: bs)
    (halike : ∀ a b, .both a b ∈ columns → 1 / 5 ≤ (similarity a b).ratio) :
    ∃ places, IsMatching as bs places ∧ weight as bs places = totalRatio columns ∧
      ∀ p ∈ places, p.1 < (columns.filterMap Sides.left?).length ∧
        p.2 < (columns.filterMap Sides.right?).length := by
  induction columns using List.reverseRecOn with
  | nil => exact ⟨[], ⟨List.Pairwise.nil, by simp⟩, rfl, by simp⟩
  | append_singleton columns column ih =>
    rw [filterMap_append] at hleft hright ⊢
    rw [filterMap_append]
    obtain ⟨places, hmatching, hweight, hbounds⟩ := ih
      ((prefix_append _ _).trans hleft) ((prefix_append _ _).trans hright)
      fun a b hmem => halike a b (mem_append_left _ hmem)
    have hgrown : ∀ p ∈ places,
        p.1 < (columns.filterMap Sides.left? ++ [column].filterMap Sides.left?).length ∧
          p.2 < (columns.filterMap Sides.right? ++ [column].filterMap Sides.right?).length := by
      intro p hp
      rw [length_append, length_append]
      exact ⟨Nat.lt_add_right _ (hbounds p hp).1, Nat.lt_add_right _ (hbounds p hp).2⟩
    rw [totalRatio_concat]
    cases column with
    | left a => exact ⟨places, hmatching, hweight.trans (add_zero _).symm, hgrown⟩
    | right b => exact ⟨places, hmatching, hweight.trans (add_zero _).symm, hgrown⟩
    | both a b =>
      obtain ⟨hi, ha⟩ := exists_getElem_eq_of_concat_prefix hleft
      obtain ⟨hj, hb⟩ := exists_getElem_eq_of_concat_prefix hright
      refine ⟨places ++ [(⟨_, hi⟩, ⟨_, hj⟩)],
        isMatching_concat_iff.2 ⟨hmatching, hbounds, ?_⟩, ?_, fun p hp => ?_⟩
      · simp only [Fin.getElem_fin, ha, hb]
        exact halike a b (by simp)
      · simp only [weight_concat, hweight, Fin.getElem_fin, ha, hb, columnRatio]
      · rcases mem_append.1 hp with hp | hp
        · exact hgrown p hp
        · rw [mem_singleton.1 hp]
          simp [Sides.left?, Sides.right?]

/-- The sum of the reversed columns. -/
theorem totalRatio_reverse (columns : List (Sides Hunk)) :
    totalRatio columns.reverse = totalRatio columns := by
  rw [totalRatio, map_reverse, sum_reverse]
  rfl

/-- The way back through the table stays inside it, and the columns it finds hold all hunks of both
sides in order. Their pairs are alike enough, and no matching weighs more than they do. -/
theorem pairBest_isGreatest (as bs : List Hunk) :
    ∃ columns : List (Sides Hunk),
      walkBack (table exactScores as bs) as bs as.length bs.length = some columns.reverse ∧
      pairBest exactScores as bs = columns.map opposite ∧
      IsAlignment as bs columns ∧
      (∀ a b, .both a b ∈ columns → 1 / 5 ≤ (similarity a b).ratio) ∧
      IsGreatest {w | ∃ places, IsMatching as bs places ∧ weight as bs places = w}
        (totalRatio columns) := by
  have halign := isAlignment_bestColumns exactScores as bs
  have halike : ∀ a b, .both a b ∈ bestColumns exactScores as bs →
      1 / 5 ≤ (similarity a b).ratio := fun a b h =>
    (Similarity.reaches_pairThreshold_iff _).1
      (reaches_of_mem_route exactScores (List.mem_reverse.1 h))
  have htotal : totalRatio (bestColumns exactScores as bs) =
      scoreAt as bs as.length bs.length := by
    rw [bestColumns, totalRatio_reverse, totalRatio_route, scoreAt, List.take_length,
      List.take_length]
  refine ⟨bestColumns exactScores as bs, walkBack_eq_some exactScores as bs,
    pairBest_eq exactScores as bs, halign, halike, ?_, ?_⟩
  · obtain ⟨places, hmatching, hweight, -⟩ := exists_isMatching_of_prefix as bs
      (by simp [halign.lefts]) (by simp [halign.rights]) halike
    exact ⟨places, hmatching, hweight⟩
  · intro w hw
    obtain ⟨places, hmatching, rfl⟩ := hw
    rw [htotal]
    exact weight_le_scoreAt hmatching fun p _ => ⟨p.1.isLt, p.2.isLt⟩

end Hunk

end MovieDiff
