import MovieDiff.Matching

/-!
The longest match. It is a run that both sequences share, no shared run is longer, and of those
of its length it starts first in the first sequence and then first in the second.
-/
namespace MovieDiff.Match

open List

variable {α : Type} [DecidableEq α] {e f : Nat}

/-- Two sequences agree element by element over the places of a match. -/
structure IsMatch (xs ys : List α) (m : Match) : Prop where
  left_le : m.left + m.size ≤ xs.length
  right_le : m.right + m.size ≤ ys.length
  agree : ∀ t < m.size, xs[m.left + t]? = ys[m.right + t]?

/-- The order in which pairs of places are visited. -/
def Visited (p q : Nat × Nat) : Prop :=
  p.1 < q.1 ∨ p.1 = q.1 ∧ p.2 ≤ q.2

/-- Longer, or of one length and not later. -/
def Precedes (m m' : Match) : Prop :=
  m'.size < m.size ∨ m'.size = m.size ∧ Visited (m.left, m.right) (m'.left, m'.right)

def stops (m : Match) : Nat × Nat :=
  (m.left + m.size, m.right + m.size)

/-! ### Runs -/

def sharedFront : List α → List α → Nat
  | x :: xs, y :: ys => if x = y then sharedFront xs ys + 1 else 0
  | _, _ => 0

theorem sharedFront_comm (xs ys : List α) : sharedFront xs ys = sharedFront ys xs := by
  induction xs generalizing ys with
  | nil => cases ys <;> rfl
  | cons x xs ih =>
    cases ys with
    | nil => rfl
    | cons y ys => simp only [sharedFront, ih ys, eq_comm (a := x)]

theorem sharedFront_le (xs ys : List α) : sharedFront xs ys ≤ xs.length := by
  fun_induction sharedFront xs ys with
  | case1 xs y ys ih => simp [ih]
  | case2 x xs y ys hne => simp
  | case3 xs ys hnot => simp

theorem take_sharedFront (xs ys : List α) :
    xs.take (sharedFront xs ys) = ys.take (sharedFront xs ys) := by
  fun_induction sharedFront xs ys with
  | case1 xs y ys ih => simp [ih]
  | case2 x xs y ys hne => simp
  | case3 xs ys hnot => simp

/-- The elements after the shared front differ. -/
theorem getElem?_sharedFront_ne {xs ys : List α} (hxs : sharedFront xs ys < xs.length)
    (hys : sharedFront xs ys < ys.length) : xs[sharedFront xs ys]? ≠ ys[sharedFront xs ys]? := by
  fun_induction sharedFront xs ys with
  | case1 xs y ys ih => exact ih (Nat.lt_of_succ_lt_succ hxs) (Nat.lt_of_succ_lt_succ hys)
  | case2 x xs y ys hne => simpa using hne
  | case3 xs ys hnot =>
    obtain ⟨x, xs, rfl⟩ := exists_cons_of_length_pos hxs
    obtain ⟨y, ys, rfl⟩ := exists_cons_of_length_pos hys
    exact absurd rfl (hnot x xs y ys rfl)

theorem sharedFront_self (xs : List α) : sharedFront xs xs = xs.length := by
  induction xs with
  | nil => rfl
  | cons x xs ih => simp [sharedFront, ih]

/-- The length of the longest shared run that ends before two places. -/
def runTo (xs ys : List α) (e f : Nat) : Nat :=
  sharedFront (xs.take e).reverse (ys.take f).reverse

theorem runTo_zero_right (xs ys : List α) (e : Nat) : runTo xs ys e 0 = 0 := by
  unfold runTo
  cases (xs.take e).reverse <;> rfl

theorem runTo_zero_left (xs ys : List α) (f : Nat) : runTo xs ys 0 f = 0 := by
  unfold runTo
  rfl

omit [DecidableEq α] in
theorem reverse_take_succ {xs : List α} (he : e < xs.length) :
    (xs.take (e + 1)).reverse = xs[e] :: (xs.take e).reverse := by
  rw [take_succ_eq_append_getElem he, reverse_append, reverse_singleton,
    singleton_append]

/-- A run grows where elements agree. -/
theorem runTo_succ {xs ys : List α} (he : e < xs.length) (hf : f < ys.length) :
    runTo xs ys (e + 1) (f + 1) = if xs[e] = ys[f] then runTo xs ys e f + 1 else 0 := by
  unfold runTo
  rw [reverse_take_succ he, reverse_take_succ hf, sharedFront]

/-- A run of length `k` ends before two places exactly when the last `k` elements agree. -/
theorem le_runTo_iff {xs ys : List α} {k : Nat} (he : e ≤ xs.length) (hf : f ≤ ys.length) :
    k ≤ runTo xs ys e f ↔ k ≤ e ∧ k ≤ f ∧ ∀ t < k, xs[e - k + t]? = ys[f - k + t]? := by
  induction e generalizing k f with
  | zero =>
    rw [runTo_zero_left]
    refine ⟨fun h => ?_, fun h => h.1⟩
    obtain rfl := Nat.le_zero.1 h
    simp
  | succ e ih =>
    cases f with
    | zero =>
      rw [runTo_zero_right]
      refine ⟨fun h => ?_, fun h => h.2.1⟩
      obtain rfl := Nat.le_zero.1 h
      simp
    | succ f =>
      cases k with
      | zero => simp
      | succ k =>
        have hlast : ∀ t < k + 1, t < k ∨ t = k := fun t ht => by omega
        have hleft : xs[e]? = some xs[e] := getElem?_eq_getElem he
        have hright : ys[f]? = some ys[f] := getElem?_eq_getElem hf
        rw [runTo_succ he hf, Nat.add_sub_add_right, Nat.add_sub_add_right]
        split
        next heq =>
          rw [Nat.add_le_add_iff_right, ih (Nat.le_of_lt he) (Nat.le_of_lt hf)]
          constructor
          · rintro ⟨hke, hkf, hagree⟩
            refine ⟨by omega, by omega, fun t ht => ?_⟩
            rcases hlast t ht with hlt | rfl
            · exact hagree t hlt
            · rw [Nat.sub_add_cancel hke, Nat.sub_add_cancel hkf, hleft, hright, heq]
          · rintro ⟨hke, hkf, hagree⟩
            exact ⟨by omega, by omega, fun t ht => hagree t (by omega)⟩
        next hne =>
          constructor
          · intro h
            omega
          · rintro ⟨hke, hkf, hagree⟩
            have hend := hagree k (Nat.lt_succ_self k)
            rw [Nat.sub_add_cancel (by omega), Nat.sub_add_cancel (by omega), hleft, hright] at hend
            exact absurd (Option.some.inj hend) hne

/-- No match is longer than the run to its end. -/
theorem IsMatch.size_le_runTo {xs ys : List α} {m : Match} (h : IsMatch xs ys m) :
    m.size ≤ runTo xs ys m.stops.1 m.stops.2 := by
  refine (le_runTo_iff h.left_le h.right_le).2 ⟨?_, ?_, ?_⟩
  · exact Nat.le_add_left _ _
  · exact Nat.le_add_left _ _
  · intro t ht
    simp only [Nat.add_sub_cancel]
    exact h.agree t ht

theorem isMatch_runTo {xs ys : List α} (he : e ≤ xs.length) (hf : f ≤ ys.length) :
    IsMatch xs ys ⟨e - runTo xs ys e f, f - runTo xs ys e f, runTo xs ys e f⟩ ∧
      runTo xs ys e f ≤ e ∧ runTo xs ys e f ≤ f := by
  obtain ⟨hle, hlf, hagree⟩ := (le_runTo_iff he hf).1 (Nat.le_refl (runTo xs ys e f))
  exact ⟨⟨by simp only; omega, by simp only; omega, hagree⟩, hle, hlf⟩

/-! ### Rows -/

/-- The row of runs that end at the last element `before` (which comes last first) and at each
element of the second sequence, of which `seen` came before. -/
def rowOf (before seen : List α) : List α → List Nat
  | [] => []
  | y :: ys => sharedFront before (y :: seen) :: rowOf before (y :: seen) ys

theorem extendRow_rowOf (x : α) (before seen ys : List α) :
    extendRow x ys (sharedFront before seen :: rowOf before seen ys) =
      rowOf (x :: before) seen ys := by
  induction ys generalizing seen with
  | nil => rfl
  | cons y ys ih =>
    rw [rowOf, extendRow, ih, rowOf]
    rfl

theorem rowOf_nil (seen ys : List α) : rowOf [] seen ys = ys.map fun _ => 0 := by
  induction ys generalizing seen with
  | nil => rfl
  | cons y ys ih => rw [rowOf, ih, map_cons]; rfl

/-- The best match among the runs that end at the places visited so far. -/
structure IsBest (xs ys : List α) (place : Nat × Nat) (best : Match) : Prop where
  isMatch : IsMatch xs ys best
  visited : Visited best.stops place
  best : ∀ e f, e ≤ xs.length → f ≤ ys.length → Visited (e, f) place →
    runTo xs ys e f ≤ best.size ∧ (runTo xs ys e f = best.size → Visited best.stops (e, f))

theorem Visited.trans {p q r : Nat × Nat} (h : Visited p q) (h' : Visited q r) : Visited p r := by
  unfold Visited at *
  omega

/-- Visiting one more place of a row. -/
theorem IsBest.step {xs ys : List α} {i j : Nat} {best : Match} (hi : i ≤ xs.length)
    (hj : j + 1 ≤ ys.length) (h : IsBest xs ys (i, j) best) :
    IsBest xs ys (i, j + 1)
      (if best.size < runTo xs ys i (j + 1) then
        ⟨i - runTo xs ys i (j + 1), j + 1 - runTo xs ys i (j + 1), runTo xs ys i (j + 1)⟩
      else best) := by
  obtain ⟨hmatch, hle, hle'⟩ := isMatch_runTo hi hj
  have hnew : ∀ e f, Visited (e, f) (i, j + 1) → Visited (e, f) (i, j) ∨ e = i ∧ f = j + 1 := by
    intro e f hvisited
    unfold Visited at hvisited ⊢
    simp only at hvisited ⊢
    omega
  have hnext : Visited (i, j) (i, j + 1) := .inr ⟨rfl, Nat.le_succ j⟩
  split
  next hlonger =>
    have hstops : stops ⟨i - runTo xs ys i (j + 1), j + 1 - runTo xs ys i (j + 1),
        runTo xs ys i (j + 1)⟩ = (i, j + 1) := by
      rw [stops, Nat.sub_add_cancel hle, Nat.sub_add_cancel hle']
    refine ⟨hmatch, by rw [hstops]; exact .inr ⟨rfl, Nat.le_refl _⟩, fun e f he hf hvisited => ?_⟩
    rw [hstops]
    rcases hnew e f hvisited with hbefore | ⟨rfl, rfl⟩
    · have hold := (h.best e f he hf hbefore).1
      exact ⟨by simp only; omega, fun heq => by simp only at heq; omega⟩
    · exact ⟨Nat.le_refl _, fun _ => .inr ⟨rfl, Nat.le_refl _⟩⟩
  next hshorter =>
    refine ⟨h.isMatch, h.visited.trans hnext, fun e f he hf hvisited => ?_⟩
    rcases hnew e f hvisited with hbefore | ⟨rfl, rfl⟩
    · exact h.best e f he hf hbefore
    · exact ⟨by omega, fun _ => h.visited.trans hnext⟩

/-- Visiting the rest of a row; `seen` and `before` come last first. -/
theorem IsBest.bestInRow {before seen rest later : List α} {x : α} {best : Match}
    (h : IsBest ((x :: before).reverse ++ rest) (seen.reverse ++ later)
      (before.length + 1, seen.length) best) :
    IsBest ((x :: before).reverse ++ rest) (seen.reverse ++ later)
      (before.length + 1, seen.length + later.length)
      (bestInRow before.length seen.length best (rowOf (x :: before) seen later)) := by
  induction later generalizing seen best with
  | nil => exact h
  | cons y later ih =>
    have hleft : ((x :: before).reverse ++ rest).take (before.length + 1) =
        (x :: before).reverse := by
      rw [← length_cons (a := x), ← length_reverse, take_left]
    have hright : (seen.reverse ++ y :: later).take (seen.length + 1) = (y :: seen).reverse := by
      rw [reverse_cons, ← singleton_append, ← append_assoc,
        take_left' (by simp)]
    have hrun : runTo ((x :: before).reverse ++ rest) (seen.reverse ++ y :: later)
        (before.length + 1) (seen.length + 1) = sharedFront (x :: before) (y :: seen) := by
      rw [runTo, hleft, hright, reverse_reverse, reverse_reverse]
    have hstep := h.step (by simp) (by simp)
    rw [hrun] at hstep
    have hsequence : seen.reverse ++ y :: later = (y :: seen).reverse ++ later := by simp
    rw [rowOf, MovieDiff.Match.bestInRow]
    rw [hsequence] at hstep ⊢
    have hlength : seen.length + (y :: later).length = (y :: seen).length + later.length := by
      simp only [length_cons]
      omega
    rw [hlength]
    exact ih hstep

/-- Visiting all rows that are left. -/
theorem IsBest.longestFrom {before rest ys : List α} {best : Match}
    (h : IsBest (before.reverse ++ rest) ys (before.length, ys.length) best) :
    IsBest (before.reverse ++ rest) ys (before.length + rest.length, ys.length)
      (longestFrom ys before.length (rowOf before [] ys) best rest) := by
  induction rest generalizing before best with
  | nil => exact h
  | cons x rest ih =>
    have hempty : sharedFront before ([] : List α) = 0 := by cases before <;> rfl
    have hrow := extendRow_rowOf x before [] ys
    rw [hempty] at hrow
    rw [MovieDiff.Match.longestFrom, hrow]
    have hsequence : before.reverse ++ x :: rest = (x :: before).reverse ++ rest := by simp
    rw [hsequence] at h ⊢
    -- no run ends before the first element of a row
    have hstart : IsBest ((x :: before).reverse ++ rest) ys (before.length + 1, 0) best := by
      have hnext : Visited (before.length, ys.length) (before.length + 1, 0) :=
        .inl (Nat.lt_succ_self _)
      refine ⟨h.isMatch, h.visited.trans hnext, fun e f he hf hvisited => ?_⟩
      rcases hvisited with hlt | ⟨rfl, hzero⟩
      · refine h.best e f he hf ?_
        rcases Nat.lt_or_eq_of_le (Nat.le_of_lt_succ hlt) with hlt | rfl
        · exact .inl hlt
        · exact .inr ⟨rfl, hf⟩
      · have hf0 : f = 0 := Nat.le_zero.1 hzero
        rw [hf0, runTo_zero_right]
        exact ⟨Nat.zero_le _, fun _ => h.visited.trans hnext⟩
    have hdone := @IsBest.bestInRow α _ before [] rest ys x best hstart
    rw [length_nil, Nat.zero_add] at hdone
    have hlength : before.length + (x :: rest).length = (x :: before).length + rest.length := by
      simp only [length_cons]
      omega
    rw [hlength]
    exact ih hdone

/-- The longest match is a match, and no other one precedes it. -/
theorem longest_spec (xs ys : List α) :
    IsMatch xs ys (longest xs ys) ∧
      ∀ m, IsMatch xs ys m → 0 < m.size → Precedes (longest xs ys) m := by
  have hstart : IsBest (([] : List α).reverse ++ xs) ys (0, ys.length) ⟨0, 0, 0⟩ := by
    refine ⟨⟨Nat.zero_le _, Nat.zero_le _, fun t ht => absurd ht (Nat.not_lt_zero t)⟩,
      .inr ⟨rfl, Nat.zero_le _⟩, fun e f _ _ hvisited => ?_⟩
    have hzero : e = 0 := by
      rcases hvisited with hlt | ⟨rfl, -⟩
      · exact absurd hlt (Nat.not_lt_zero e)
      · rfl
    rw [hzero, runTo_zero_left]
    exact ⟨Nat.le_refl _, fun _ => .inr ⟨rfl, Nat.zero_le _⟩⟩
  have hall : IsBest xs ys (xs.length, ys.length) (longest xs ys) := by
    have hrun := hstart.longestFrom
    rw [rowOf_nil] at hrun
    simpa [longest] using hrun
  refine ⟨hall.isMatch, fun m hm hpos => ?_⟩
  have hstops : Visited m.stops (xs.length, ys.length) := by
    have hleft := hm.left_le
    have hright := hm.right_le
    unfold Visited stops
    simp only
    omega
  obtain ⟨hle, hfirst⟩ := hall.best m.stops.1 m.stops.2 hm.left_le hm.right_le hstops
  have hsize := hm.size_le_runTo
  rcases Nat.lt_or_ge m.size (longest xs ys).size with hlt | hge
  · exact .inl hlt
  · have heq : m.size = (longest xs ys).size := by omega
    have hvisited := hfirst (by omega)
    refine .inr ⟨heq, ?_⟩
    unfold Visited stops at *
    simp only at *
    omega

end MovieDiff.Match
