import MovieDiff.Proofs.Matching.Blocks
import MovieDiff.TextDiff

/-!
The regions of two sequences make up both of them, and a region that is the same on both sides
holds the same elements. The differences are separated by shared runs, and each of them divides
the matches.
-/
namespace MovieDiff

open List
open Match (IsMatch Ordered Divides)
open Region (between ofMatches)

variable {i j k i' j' : Nat} {r : Region} {found : List Match}

variable {α : Type}

def slice (xs : List α) (i j : Nat) : List α :=
  (xs.take j).drop i

theorem slice_append_slice {xs : List α} (hij : i ≤ j) (hjk : j ≤ k) :
    slice xs i j ++ slice xs j k = slice xs i k := by
  have htake : xs.take j = (xs.take k).take j := by rw [take_take, Nat.min_eq_left hjk]
  have hdrop : (xs.take k).drop j = ((xs.take k).drop i).drop (j - i) := by
    rw [drop_drop, Nat.add_sub_cancel' hij]
  unfold slice
  rw [htake, drop_take, hdrop, take_append_drop]

theorem slice_self (xs : List α) (i : Nat) : slice xs i i = [] := by
  simp [slice]

theorem length_slice {xs : List α} (hj : j ≤ xs.length) : (slice xs i j).length = j - i := by
  simp [slice, Nat.min_eq_left hj]

theorem slice_length (xs : List α) (i : Nat) : slice xs i xs.length = xs.drop i := by
  simp [slice]

theorem getElem?_slice {xs : List α} {t : Nat} (h : i + t < j) :
    (slice xs i j)[t]? = xs[i + t]? := by
  rw [slice, getElem?_drop, getElem?_take_of_lt h]

theorem slice_append_drop {xs : List α} (h : i ≤ j) : slice xs i j ++ xs.drop j = xs.drop i := by
  have hdrop : xs.drop j = (xs.drop i).drop (j - i) := by
    rw [drop_drop, Nat.add_sub_cancel' h]
  rw [slice, drop_take, hdrop, take_append_drop]

/-- What a suffix starts with is a slice, and the rest is a suffix. -/
theorem append_eq_drop {xs ys zs : List α} {p : Nat} (h : xs ++ ys = zs.drop p)
    (hp : p ≤ zs.length) : p + xs.length ≤ zs.length ∧ xs = slice zs p (p + xs.length) ∧
      ys = zs.drop (p + xs.length) := by
  have hlength := congrArg List.length h
  rw [length_append, length_drop] at hlength
  refine ⟨by omega, ?_, ?_⟩
  · rw [slice, drop_take, Nat.add_sub_cancel_left, ← h, take_left]
  · rw [← drop_drop, ← h, drop_left]

/-- A match is a pair of equal slices. -/
theorem isMatch_iff_slice {xs ys : List α} (hi : i + k ≤ xs.length) (hj : j + k ≤ ys.length) :
    IsMatch xs ys ⟨i, j, k⟩ ↔ slice xs i (i + k) = slice ys j (j + k) := by
  constructor
  · intro h
    apply ext_getElem?
    intro t
    rcases Nat.lt_or_ge t k with hlt | hge
    · rw [getElem?_slice (by omega), getElem?_slice (by omega)]
      exact h.agree t hlt
    · rw [getElem?_eq_none (by rw [length_slice hi]; omega),
        getElem?_eq_none (by rw [length_slice hj]; omega)]
  · intro h
    refine ⟨hi, hj, fun t ht => ?_⟩
    have hplace := congrArg (fun zs => zs[t]?) h
    simp only at ht hplace ⊢
    rwa [getElem?_slice (by omega), getElem?_slice (by omega)] at hplace

theorem Match.IsMatch.slice_eq {xs ys : List α} (h : IsMatch xs ys ⟨i, j, k⟩) :
    slice xs i (i + k) = slice ys j (j + k) :=
  (isMatch_iff_slice h.left_le h.right_le).1 h

/-- A part of a shared run is shared. -/
theorem Match.IsMatch.sub {xs ys : List α} {a n : Nat} (h : IsMatch xs ys ⟨i, j, k⟩)
    (hn : a + n ≤ k) : IsMatch xs ys ⟨i + a, j + a, n⟩ := by
  obtain ⟨hleft, hright, hagree⟩ := h
  simp only at hleft hright hagree
  refine ⟨by simp only; omega, by simp only; omega, fun t ht => ?_⟩
  simp only at ht ⊢
  rw [Nat.add_assoc, Nat.add_assoc]
  exact hagree (a + t) (by omega)

/-! ### Regions cover both sequences -/

section Regions

variable {leftEnd rightEnd : Nat}

theorem mem_between (h : r ∈ between i i' j j') :
    r = ⟨false, i, i', j, j'⟩ ∧ (i < i' ∨ j < j') := by
  unfold between at h
  split at h
  next hne => exact ⟨mem_singleton.1 h, hne⟩
  · cases h

variable {β : Type} (zs : List α) (zs' : List β)

theorem flatMap_between (hi : i ≤ i') (hj : j ≤ j') :
    (between i i' j j').flatMap (fun r => r.left zs) = slice zs i i' ∧
      (between i i' j j').flatMap (fun r => r.right zs') = slice zs' j j' := by
  unfold between
  split
  · simp [Region.left, Region.right, slice]
  next hnone =>
    rw [(by omega : i = i'), (by omega : j = j'), slice_self, slice_self]
    exact ⟨rfl, rfl⟩

/-- The regions make up both texts. -/
theorem flatMap_ofMatches (h : Ordered i j leftEnd rightEnd found) :
    (ofMatches leftEnd rightEnd i j found).flatMap (fun r => r.left zs) = slice zs i leftEnd ∧
      (ofMatches leftEnd rightEnd i j found).flatMap (fun r => r.right zs') =
        slice zs' j rightEnd := by
  induction found generalizing i j with
  | nil => exact flatMap_between zs zs' h.1 h.2
  | cons m rest ih =>
    obtain ⟨hleft, hright, -, hrest⟩ := h
    obtain ⟨hleftEnd, hrightEnd⟩ := hrest.bounds.1
    obtain ⟨hbefore, hbefore'⟩ := flatMap_between zs zs' hleft hright
    obtain ⟨hafter, hafter'⟩ := ih hrest
    simp only [ofMatches, flatMap_append, flatMap_cons, hbefore, hbefore', hafter, hafter']
    constructor
    · change slice zs i m.left ++ (slice zs m.left (m.left + m.size) ++ _) = _
      rw [slice_append_slice (Nat.le_add_right _ _) hleftEnd, slice_append_slice hleft (by omega)]
    · change slice zs' j m.right ++ (slice zs' m.right (m.right + m.size) ++ _) = _
      rw [slice_append_slice (Nat.le_add_right _ _) hrightEnd, slice_append_slice hright (by omega)]

theorem mem_ofMatches (h : r ∈ ofMatches leftEnd rightEnd i j found) :
    r.same = false ∨ ∃ m ∈ found, r = ⟨true, m.left, m.left + m.size, m.right, m.right + m.size⟩ := by
  induction found generalizing i j with
  | nil => exact .inl (by rw [(mem_between h).1])
  | cons m rest ih =>
    rcases mem_append.1 h with h | h
    · exact .inl (by rw [(mem_between h).1])
    · rcases mem_cons.1 h with rfl | h
      · exact .inr ⟨m, mem_cons_self, rfl⟩
      · rcases ih h with hsame | ⟨m', hm', hr⟩
        · exact .inl hsame
        · exact .inr ⟨m', mem_cons_of_mem _ hm', hr⟩

end Regions

section Sequences

variable [DecidableEq α] {xs ys : List α}

theorem ordered_all (xs ys : List α) : Ordered 0 0 xs.length ys.length (Match.all xs ys) := by
  have h := Match.ordered_allFrom 0 0 xs ys
  rwa [Nat.zero_add, Nat.zero_add] at h

theorem isMatch_of_mem_all {m : Match} (h : m ∈ Match.all xs ys) : IsMatch xs ys m :=
  Match.isMatch_allFrom 0 0 xs ys m h

variable {β γ : Type}

/-- The sides of the regions make up any two sequences that are as long as those compared. -/
theorem flatMap_regions {zs : List β} {zs' : List γ} (h : zs.length = xs.length)
    (h' : zs'.length = ys.length) :
    (regions xs ys).flatMap (fun r => r.left zs) = zs ∧
      (regions xs ys).flatMap (fun r => r.right zs') = zs' := by
  have hparts := flatMap_ofMatches zs zs' (ordered_all xs ys)
  rwa [← h, ← h', slice_length, slice_length, drop_zero, drop_zero, h, h'] at hparts

/-- A region that is the same on both sides is not empty and holds the same elements. -/
theorem left_eq_right_of_same (h : r ∈ regions xs ys) (hsame : r.same = true) :
    r.left xs = r.right ys ∧ r.left xs ≠ [] := by
  rcases mem_ofMatches h with hfalse | ⟨m, hm, rfl⟩
  · rw [hfalse] at hsame
    cases hsame
  · have hmatch := isMatch_of_mem_all hm
    have hsize := ((ordered_all xs ys).bounds.2 m hm).2.2.1
    refine ⟨(isMatch_iff_slice hmatch.left_le hmatch.right_le).1 hmatch, fun hnil => ?_⟩
    have hlength := length_slice (i := m.left) hmatch.left_le
    change slice xs m.left (m.left + m.size) = [] at hnil
    rw [hnil, length_nil] at hlength
    omega

/-! ### Differences -/

/-- Regions that follow one another from `i` and `j` to the ends, with shared runs between. -/
def Aligned (xs ys : List α) (i j : Nat) : List Region → Prop
  | [] => ∃ k, xs.length = i + k ∧ ys.length = j + k ∧ IsMatch xs ys ⟨i, j, k⟩
  | r :: rest => (∃ k, r.leftStart = i + k ∧ r.rightStart = j + k ∧ IsMatch xs ys ⟨i, j, k⟩) ∧
      r.leftStart ≤ r.leftStop ∧ r.rightStart ≤ r.rightStop ∧
      Aligned xs ys r.leftStop r.rightStop rest

omit [DecidableEq α] in
theorem isMatch_append {l : Nat} (h : IsMatch xs ys ⟨i, j, k⟩)
    (h' : IsMatch xs ys ⟨i + k, j + k, l⟩) : IsMatch xs ys ⟨i, j, k + l⟩ := by
  obtain ⟨-, -, hfirst⟩ := h
  obtain ⟨hxs, hys, hsecond⟩ := h'
  simp only at hfirst hxs hys hsecond
  refine ⟨by simp only; omega, by simp only; omega, fun t ht => ?_⟩
  simp only at ht ⊢
  rcases Nat.lt_or_ge t k with hlt | hge
  · exact hfirst t hlt
  · have hplace := hsecond (t - k) (by omega)
    rwa [Nat.add_assoc, Nat.add_sub_cancel' hge, Nat.add_assoc, Nat.add_sub_cancel' hge] at hplace

omit [DecidableEq α] in
/-- Differences are what is left of the regions without the matches; a shared run before them
goes on where no difference lies between. -/
theorem aligned_ofMatches (hrun : IsMatch xs ys ⟨i, j, k⟩)
    (hordered : Ordered (i + k) (j + k) xs.length ys.length found)
    (hfound : ∀ m ∈ found, IsMatch xs ys m) :
    Aligned xs ys i j ((ofMatches xs.length ys.length (i + k) (j + k) found).filter
      fun r => !r.same) := by
  induction found generalizing i j k with
  | nil =>
    obtain ⟨hi, hj⟩ := hordered
    rw [ofMatches, between]
    split
    · refine ⟨⟨k, rfl, rfl, hrun⟩, hi, hj, 0, rfl, rfl, ?_⟩
      exact ⟨Nat.le_refl _, Nat.le_refl _, fun t ht => absurd ht (Nat.not_lt_zero t)⟩
    next hnone => exact ⟨k, by omega, by omega, hrun⟩
  | cons m rest ih =>
    obtain ⟨hleft, hright, hsize, hrest⟩ := hordered
    have hm := hfound m mem_cons_self
    have hfound' : ∀ m ∈ rest, IsMatch xs ys m := fun m' hm' =>
      hfound m' (mem_cons_of_mem _ hm')
    rw [ofMatches, between]
    split
    next hsome => exact ⟨⟨k, rfl, rfl, hrun⟩, hleft, hright, ih hm hrest hfound'⟩
    next hnone =>
      have hleft' : m.left = i + k := by omega
      have hright' : m.right = j + k := by omega
      have hjoined : IsMatch xs ys ⟨i, j, k + m.size⟩ := by
        apply isMatch_append hrun
        rw [← hleft', ← hright']
        exact hm
      rw [hleft', hright', Nat.add_assoc, Nat.add_assoc] at hrest
      have haligned := ih hjoined hrest hfound'
      simpa [hleft', hright', Nat.add_assoc] using haligned

end Sequences

section Differences

variable {leftEnd rightEnd : Nat}

structure Region.IsDifference (r : Region) : Prop where
  left_le : r.leftStart ≤ r.leftStop
  right_le : r.rightStart ≤ r.rightStop
  nonempty : r.leftStart < r.leftStop ∨ r.rightStart < r.rightStop

/-- A match ends before a difference or starts after it. -/
def Region.Separates (r : Region) (m : Match) : Prop :=
  m.left + m.size ≤ r.leftStart ∧ m.right + m.size ≤ r.rightStart ∨
    r.leftStop ≤ m.left ∧ r.rightStop ≤ m.right

/-- Something stands between two differences on both sides. -/
def Region.Precedes (r r' : Region) : Prop :=
  r.leftStop < r'.leftStart ∧ r.rightStop < r'.rightStart

theorem filter_between (i i' j j' : Nat) :
    (between i i' j j').filter (fun r => !r.same) = between i i' j j' := by
  unfold between
  split <;> rfl

theorem filter_ofMatches_cons (i j : Nat) (m : Match) (rest : List Match) :
    (ofMatches leftEnd rightEnd i j (m :: rest)).filter (fun r => !r.same) =
      between i m.left j m.right ++
        (ofMatches leftEnd rightEnd (m.left + m.size) (m.right + m.size) rest).filter
          fun r => !r.same := by
  rw [ofMatches, filter_append, filter_between]
  rfl

theorem isDifference_of_mem_between (hi : i ≤ i') (hj : j ≤ j') (h : r ∈ between i i' j j') :
    r.IsDifference := by
  obtain ⟨rfl, hne⟩ := mem_between h
  exact ⟨hi, hj, hne⟩

theorem differences_bounds (hordered : Ordered i j leftEnd rightEnd found)
    (h : r ∈ (ofMatches leftEnd rightEnd i j found).filter fun r => !r.same) :
    r.IsDifference ∧ i ≤ r.leftStart ∧ j ≤ r.rightStart ∧ r.leftStop ≤ leftEnd ∧
      r.rightStop ≤ rightEnd := by
  induction found generalizing i j with
  | nil =>
    rw [ofMatches, filter_between] at h
    have hdifference := isDifference_of_mem_between hordered.1 hordered.2 h
    obtain ⟨rfl, -⟩ := mem_between h
    exact ⟨hdifference, Nat.le_refl _, Nat.le_refl _, Nat.le_refl _, Nat.le_refl _⟩
  | cons m rest ih =>
    obtain ⟨hleft, hright, hsize, hrest⟩ := hordered
    obtain ⟨hends, -⟩ := hrest.bounds
    rw [filter_ofMatches_cons] at h
    rcases mem_append.1 h with h | h
    · have hdifference := isDifference_of_mem_between hleft hright h
      obtain ⟨rfl, -⟩ := mem_between h
      exact ⟨hdifference, Nat.le_refl _, Nat.le_refl _, by simp only; omega, by simp only; omega⟩
    · obtain ⟨hdifference, hbounds⟩ := ih hrest h
      exact ⟨hdifference, by omega, by omega, by omega, by omega⟩

/-- No match lies across a difference. -/
theorem differences_separate (hordered : Ordered i j leftEnd rightEnd found)
    (h : r ∈ (ofMatches leftEnd rightEnd i j found).filter fun r => !r.same) :
    ∀ m ∈ found, r.Separates m := by
  induction found generalizing i j with
  | nil =>
    intro m hm
    cases hm
  | cons m rest ih =>
    obtain ⟨hleft, hright, hsize, hrest⟩ := hordered
    intro m' hm'
    rw [filter_ofMatches_cons] at h
    rcases mem_append.1 h with h | h
    · -- the difference right before a match comes before all of them
      obtain ⟨rfl, -⟩ := mem_between h
      right
      rcases mem_cons.1 hm' with rfl | hm'
      · exact ⟨Nat.le_refl _, Nat.le_refl _⟩
      · have hbounds := hrest.bounds.2 m' hm'
        simp only
        omega
    · rcases mem_cons.1 hm' with rfl | hm'
      · have hbounds := differences_bounds hrest h
        exact .inl ⟨hbounds.2.1, hbounds.2.2.1⟩
      · exact ih hrest h m' hm'

/-- Something stands between two differences. -/
theorem differences_pairwise (hordered : Ordered i j leftEnd rightEnd found) :
    ((ofMatches leftEnd rightEnd i j found).filter fun r => !r.same).Pairwise
      Region.Precedes := by
  induction found generalizing i j with
  | nil =>
    rw [ofMatches, filter_between, between]
    split
    · exact pairwise_singleton _ _
    · exact List.Pairwise.nil
  | cons m rest ih =>
    obtain ⟨hleft, hright, hsize, hrest⟩ := hordered
    rw [filter_ofMatches_cons, pairwise_append]
    refine ⟨?_, ih hrest, fun r hr r' hr' => ?_⟩
    · rw [between]
      split
      · exact pairwise_singleton _ _
      · exact List.Pairwise.nil
    · obtain ⟨rfl, -⟩ := mem_between hr
      have hbounds := differences_bounds hrest hr'
      unfold Region.Precedes
      simp only
      omega

end Differences

/-- A sequence does not differ from itself: the whole of it is the longest shared run. -/
theorem differences_self (xs : List String) : differences xs xs = [] := by
  rw [eq_nil_iff_forall_not_mem]
  intro r hr
  have hordered := ordered_all xs xs
  obtain ⟨⟨hleft, hright, hnonempty⟩, -, -, hleftStop, hrightStop⟩ :=
    differences_bounds hordered hr
  have hwhole : IsMatch xs xs ⟨0, 0, xs.length⟩ := ⟨by simp, by simp, fun _ _ => rfl⟩
  have hends : Divides (Match.all xs xs) xs.length xs.length := fun m hm =>
    .inl (hordered.bounds.2 m hm).2.2.2
  obtain ⟨m, hm, hwithin, hprecedes⟩ := Match.exists_precedes_all
    (fun m _ => .inr ⟨Nat.zero_le m.left, Nat.zero_le m.right⟩) hends hwhole (by simp only; omega)
    ⟨Nat.le_refl _, Nat.le_refl _, by simp, by simp⟩
  have hseparates := differences_separate hordered hr m hm
  obtain ⟨-, -, hleftEnd, hrightEnd⟩ := hwithin
  simp only [Match.Precedes, Match.Visited, Region.Separates] at hprecedes hseparates
  omega

end MovieDiff
