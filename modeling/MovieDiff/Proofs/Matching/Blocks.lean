import MovieDiff.Proofs.Matching.Longest

/-!
All matches of two sequences. They follow one another in both sequences, and between any two
places that divide them the best shared run is one of them.
-/
namespace MovieDiff.Match

open List

variable {α : Type} [DecidableEq α]

/-! ### Matches of parts -/

variable {m : Match}

omit [DecidableEq α] in
theorem isMatch_take_iff {xs ys : List α} {l r : Nat} (hl : l ≤ xs.length) (hr : r ≤ ys.length) :
    IsMatch (xs.take l) (ys.take r) m ↔
      IsMatch xs ys m ∧ m.left + m.size ≤ l ∧ m.right + m.size ≤ r := by
  have hleft : ∀ t < m.size, m.left + m.size ≤ l → (xs.take l)[m.left + t]? = xs[m.left + t]? :=
    fun t ht hle => getElem?_take_of_lt (by omega)
  have hright : ∀ t < m.size, m.right + m.size ≤ r →
      (ys.take r)[m.right + t]? = ys[m.right + t]? :=
    fun t ht hle => getElem?_take_of_lt (by omega)
  constructor
  · rintro ⟨hxs, hys, hagree⟩
    rw [length_take, Nat.min_eq_left hl] at hxs
    rw [length_take, Nat.min_eq_left hr] at hys
    refine ⟨⟨by omega, by omega, fun t ht => ?_⟩, hxs, hys⟩
    rw [← hleft t ht hxs, ← hright t ht hys]
    exact hagree t ht
  · rintro ⟨⟨-, -, hagree⟩, hxs, hys⟩
    refine ⟨?_, ?_, fun t ht => ?_⟩
    · rwa [length_take, Nat.min_eq_left hl]
    · rwa [length_take, Nat.min_eq_left hr]
    · rw [hleft t ht hxs, hright t ht hys]
      exact hagree t ht

omit [DecidableEq α] in
/-- A match of what is left of two sequences, in places that are counted from `i` and `j`. -/
theorem isMatch_drop_iff {xs ys : List α} {i j a b k : Nat} (ha : a + k ≤ xs.length)
    (hb : b + k ≤ ys.length) (hleft : i + a + k ≤ m.left) (hright : j + b + k ≤ m.right) :
    IsMatch (xs.drop (a + k)) (ys.drop (b + k))
        ⟨m.left - (i + a + k), m.right - (j + b + k), m.size⟩ ↔
      IsMatch xs ys ⟨m.left - i, m.right - j, m.size⟩ := by
  have hshift : m.left - i = a + k + (m.left - (i + a + k)) := by omega
  have hshift' : m.right - j = b + k + (m.right - (j + b + k)) := by omega
  rw [hshift, hshift']
  constructor
  · rintro ⟨hxs, hys, hagree⟩
    simp only [length_drop, getElem?_drop, ← Nat.add_assoc] at hxs hys hagree
    exact ⟨by simp only; omega, by simp only; omega, hagree⟩
  · rintro ⟨hxs, hys, hagree⟩
    simp only at hxs hys hagree
    refine ⟨by simp only [length_drop]; omega, by simp only [length_drop]; omega,
      fun t ht => ?_⟩
    simp only [getElem?_drop, ← Nat.add_assoc]
    exact hagree t ht

/-! ### Order -/

/-- Matches that follow one another from the places `i` and `j` up to `i'` and `j'`. -/
def Ordered (i j i' j' : Nat) : List Match → Prop
  | [] => i ≤ i' ∧ j ≤ j'
  | m :: rest => i ≤ m.left ∧ j ≤ m.right ∧ 0 < m.size ∧
      Ordered (m.left + m.size) (m.right + m.size) i' j' rest

variable {i j i' j' : Nat}

theorem Ordered.append {before after : List Match} (hbefore : Ordered i j m.left m.right before)
    (hsize : 0 < m.size) (hafter : Ordered (m.left + m.size) (m.right + m.size) i' j' after) :
    Ordered i j i' j' (before ++ m :: after) := by
  induction before generalizing i j with
  | nil => exact ⟨hbefore.1, hbefore.2, hsize, hafter⟩
  | cons first before ih =>
    obtain ⟨hleft, hright, hpos, hrest⟩ := hbefore
    exact ⟨hleft, hright, hpos, ih hrest⟩

theorem longest_right_le (xs ys : List α) :
    (longest xs ys).right + (longest xs ys).size ≤ ys.length :=
  (longest_spec xs ys).1.right_le

/-- The matches follow one another. -/
theorem ordered_allFrom (i j : Nat) (xs ys : List α) :
    Ordered i j (i + xs.length) (j + ys.length) (allFrom i j xs ys) := by
  induction i, j, xs, ys using allFrom.induct with
  | case1 i j xs ys found hzero =>
    rw [allFrom, if_pos hzero]
    exact ⟨Nat.le_add_right _ _, Nat.le_add_right _ _⟩
  | case2 i j xs ys found hpos ihBefore ihAfter =>
    have hleft := longest_within xs ys
    have hright := longest_right_le xs ys
    rw [allFrom, if_neg hpos]
    simp only [found, length_take, length_drop] at hpos ihBefore ihAfter ⊢
    apply Ordered.append
    · rwa [Nat.min_eq_left (by omega), Nat.min_eq_left (by omega)] at ihBefore
    · exact Nat.pos_of_ne_zero hpos
    · have hlengths : i + (longest xs ys).left + (longest xs ys).size +
          (xs.length - ((longest xs ys).left + (longest xs ys).size)) = i + xs.length := by omega
      have hlengths' : j + (longest xs ys).right + (longest xs ys).size +
          (ys.length - ((longest xs ys).right + (longest xs ys).size)) = j + ys.length := by omega
      rwa [hlengths, hlengths'] at ihAfter

theorem Ordered.bounds {found : List Match} (h : Ordered i j i' j' found) :
    (i ≤ i' ∧ j ≤ j') ∧ ∀ m ∈ found, i ≤ m.left ∧ j ≤ m.right ∧ 0 < m.size ∧
      m.left + m.size ≤ i' ∧ m.right + m.size ≤ j' := by
  induction found generalizing i j with
  | nil => exact ⟨h, fun m hm => by cases hm⟩
  | cons first rest ih =>
    obtain ⟨hleft, hright, hpos, hrest⟩ := h
    obtain ⟨hends, hall⟩ := ih hrest
    refine ⟨by omega, fun m hm => ?_⟩
    rcases mem_cons.1 hm with rfl | hm
    · exact ⟨hleft, hright, hpos, hends.1, hends.2⟩
    · have hm' := hall m hm
      omega

/-! ### Agreement -/

theorem isMatch_allFrom (i j : Nat) (xs ys : List α) :
    ∀ m ∈ allFrom i j xs ys, IsMatch xs ys ⟨m.left - i, m.right - j, m.size⟩ := by
  induction i, j, xs, ys using allFrom.induct with
  | case1 i j xs ys found hzero =>
    intro m hm
    rw [allFrom, if_pos hzero] at hm
    cases hm
  | case2 i j xs ys found hpos ihBefore ihAfter =>
    intro m hm
    have hleft := longest_within xs ys
    have hright := longest_right_le xs ys
    rw [allFrom, if_neg hpos] at hm
    simp only [found] at hm ihBefore ihAfter
    rcases mem_append.1 hm with hm | hm
    · exact ((isMatch_take_iff (by omega) (by omega)).1 (ihBefore m hm)).1
    · rcases mem_cons.1 hm with rfl | hm
      · simp only [Nat.add_sub_cancel_left]
        exact (longest_spec xs ys).1
      · have hbounds := (ordered_allFrom _ _ _ _).bounds.2 m hm
        exact (isMatch_drop_iff (by omega) (by omega) hbounds.1 hbounds.2.1).1 (ihAfter m hm)

/-! ### The best match between two places -/

/-- Every match lies on one side of the place. -/
def Divides (found : List Match) (i j : Nat) : Prop :=
  ∀ m ∈ found, m.left + m.size ≤ i ∧ m.right + m.size ≤ j ∨ i ≤ m.left ∧ j ≤ m.right

structure Within (i j i' j' : Nat) (m : Match) : Prop where
  left_ge : i ≤ m.left
  right_ge : j ≤ m.right
  left_le : m.left + m.size ≤ i'
  right_le : m.right + m.size ≤ j'

variable {p q p' q' : Nat}

/-- Between two places that divide the matches, one of them precedes every shared run. -/
theorem exists_precedes_allFrom (i j : Nat) (xs ys : List α)
    (hlow : Divides (allFrom i j xs ys) p q) (hhigh : Divides (allFrom i j xs ys) p' q')
    (hleft : i ≤ m.left) (hright : j ≤ m.right)
    (hm : IsMatch xs ys ⟨m.left - i, m.right - j, m.size⟩) (hsize : 0 < m.size)
    (hin : Within p q p' q' m) :
    ∃ b ∈ allFrom i j xs ys, Within p q p' q' b ∧ Precedes b m := by
  induction i, j, xs, ys using allFrom.induct with
  | case1 i j xs ys found hzero =>
    have hprecedes := (longest_spec xs ys).2 _ hm hsize
    unfold Precedes at hprecedes
    simp only [found] at hzero hprecedes
    omega
  | case2 i j xs ys found hpos ihBefore ihAfter =>
    obtain ⟨hlongest, hfirst⟩ := longest_spec xs ys
    have hxs := hlongest.left_le
    have hys := hlongest.right_le
    rw [allFrom, if_neg hpos] at hlow hhigh ⊢
    simp only [found] at hpos ihBefore ihAfter hlow hhigh ⊢
    obtain ⟨hge, hge', hle, hle'⟩ := hin
    rcases hlow _ (mem_append_right _ mem_cons_self) with ⟨hp, hq⟩ | ⟨hp, hq⟩
    · -- the longest match lies before the first place
      simp only at hp hq
      obtain ⟨b, hb, hwithin, hprecedes⟩ := ihAfter
        (fun b hb => hlow b (mem_append_right _ (mem_cons_of_mem _ hb)))
        (fun b hb => hhigh b (mem_append_right _ (mem_cons_of_mem _ hb)))
        (by omega) (by omega) ((isMatch_drop_iff hxs hys (by omega) (by omega)).2 hm)
      exact ⟨b, mem_append_right _ (mem_cons_of_mem _ hb), hwithin, hprecedes⟩
    · rcases hhigh _ (mem_append_right _ mem_cons_self) with ⟨hp', hq'⟩ | ⟨hp', hq'⟩
      · -- it lies between the two places, and precedes all that both sequences share
        refine ⟨_, mem_append_right _ mem_cons_self, ⟨hp, hq, hp', hq'⟩, ?_⟩
        have hprecedes := hfirst _ hm hsize
        unfold Precedes Visited at hprecedes ⊢
        simp only at hprecedes ⊢
        omega
      · -- it lies after the second place
        simp only at hp' hq'
        have hlocal : IsMatch (xs.take (longest xs ys).left) (ys.take (longest xs ys).right)
            ⟨m.left - i, m.right - j, m.size⟩ :=
          (isMatch_take_iff (by omega) (by omega)).2 ⟨hm, by simp only; omega, by simp only; omega⟩
        obtain ⟨b, hb, hwithin, hprecedes⟩ := ihBefore
          (fun b hb => hlow b (mem_append_left _ hb))
          (fun b hb => hhigh b (mem_append_left _ hb)) hleft hright hlocal
        exact ⟨b, mem_append_left _ hb, hwithin, hprecedes⟩

/-- No match is better than all that were found. -/
theorem exists_precedes_all {xs ys : List α} (hlow : Divides (all xs ys) p q)
    (hhigh : Divides (all xs ys) p' q') (hm : IsMatch xs ys m) (hsize : 0 < m.size)
    (hin : Within p q p' q' m) :
    ∃ b ∈ all xs ys, Within p q p' q' b ∧ Precedes b m :=
  exists_precedes_allFrom 0 0 xs ys hlow hhigh (Nat.zero_le _) (Nat.zero_le _) hm hsize hin

/-- The longest run that a sequence shares with itself is the whole of it. -/
theorem longest_self (xs : List α) : longest xs xs = ⟨0, 0, xs.length⟩ := by
  obtain ⟨⟨hleft, hright, -⟩, hprecedes⟩ := longest_spec xs xs
  have hwhole : IsMatch xs xs ⟨0, 0, xs.length⟩ := ⟨by simp, by simp, fun _ _ => rfl⟩
  have hsize : xs.length ≤ (longest xs xs).size := by
    rcases Nat.eq_zero_or_pos xs.length with hzero | hpos
    · omega
    · have hfirst := hprecedes _ hwhole hpos
      simp only [Precedes] at hfirst
      omega
  cases hlongest : longest xs xs with
  | mk left right size =>
    simp only [hlongest] at hleft hright hsize
    simp only [mk.injEq]
    omega

theorem all_self (xs : List α) : all xs xs = if xs = [] then [] else [⟨0, 0, xs.length⟩] := by
  have hnil : ∀ i j, allFrom i j ([] : List α) [] = [] := by
    intro i j
    rw [allFrom, longest_self]
    rfl
  rw [all, allFrom, longest_self]
  simp [hnil]

end MovieDiff.Match
