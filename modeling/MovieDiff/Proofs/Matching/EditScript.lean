import Mathlib.Data.List.Basic
import MovieDiff.Proofs.Matching.Regions

/-!
The difference of two texts as an edit script. Its spans lie in the texts, in order and apart; the
lines outside of them are the same on both sides, so that putting the right spans in the place of
the left ones turns the left text into the right one. Nothing is counted as changed just when the
texts are equal.
-/
namespace MovieDiff

open List

def Span.FitsIn (span : Span) (count : Nat) : Prop :=
  0 ≤ span.start ∧ span.start ≤ span.stop ∧ span.stop ≤ count

def Span.length (span : Span) : Nat :=
  (span.stop - span.start).toNat

namespace SpanPair

def touched (s : SpanPair) : Nat :=
  max s.left.length s.right.length

/-- Both sides of `t` start after those of `s`, the same positive number of lines further. -/
def Follows (s t : SpanPair) : Prop :=
  ∃ count : Nat, 0 < count ∧ t.left.start = s.left.stop + count ∧
    t.right.start = s.right.stop + count

end SpanPair

section Scripts

variable {α : Type}

/-- What some spans leave of a sequence from place `i` on: the stretch before each of them, and
the stretch after the last. -/
def gaps (xs : List α) (i : Nat) : List Span → List (List α)
  | [] => [xs.drop i]
  | s :: rest => slice xs i s.start.toNat :: gaps xs s.stop.toNat rest

/-- The first sequence from place `i` on, with each left span replaced by the right one. -/
def editFrom (xs ys : List α) (i : Nat) : List SpanPair → List α
  | [] => xs.drop i
  | s :: rest =>
    slice xs i s.left.start.toNat ++ (slice ys s.right.start.toNat s.right.stop.toNat ++
      editFrom xs ys s.left.stop.toNat rest)

/-- Spans that say exactly how to get from the first sequence to the second. -/
structure IsEditScript (xs ys : List α) (spans : List SpanPair) : Prop where
  fits : ∀ s ∈ spans, s.left.FitsIn xs.length ∧ s.right.FitsIn ys.length
  nonempty : ∀ s ∈ spans, s.left.start < s.left.stop ∨ s.right.start < s.right.stop
  ordered : spans.Pairwise fun s t => s.left.stop < t.left.start ∧ s.right.stop < t.right.start
  spaced : spans.IsChain SpanPair.Follows
  gaps_eq : gaps xs 0 (spans.map SpanPair.left) = gaps ys 0 (spans.map SpanPair.right)
  edited : editFrom xs ys 0 spans = ys

/-! ### Aligned regions -/

variable {xs ys : List α} {i j : Nat}

theorem drop_eq_drop_of_isMatch {k : Nat} (hxs : xs.length = i + k) (hys : ys.length = j + k)
    (h : Match.IsMatch xs ys ⟨i, j, k⟩) : xs.drop i = ys.drop j := by
  have hslices := h.slice_eq
  rwa [← hxs, ← hys, slice_length, slice_length] at hslices

variable {rs : List Region}

theorem gaps_eq_of_aligned (h : Aligned xs ys i j rs) :
    gaps xs i (rs.map fun r => r.spans.left) = gaps ys j (rs.map fun r => r.spans.right) := by
  induction rs generalizing i j with
  | nil =>
    obtain ⟨k, hxs, hys, hrun⟩ := h
    change [xs.drop i] = [ys.drop j]
    rw [drop_eq_drop_of_isMatch hxs hys hrun]
  | cons r rest ih =>
    obtain ⟨⟨k, hleft, hright, hrun⟩, -, -, hrest⟩ := h
    change slice xs i r.leftStart :: gaps xs r.leftStop _ =
      slice ys j r.rightStart :: gaps ys r.rightStop _
    rw [hleft, hright, hrun.slice_eq, ih hrest]

/-- Replacing the differences gives the other text. -/
theorem editFrom_of_aligned (h : Aligned xs ys i j rs) :
    editFrom xs ys i (rs.map Region.spans) = ys.drop j := by
  induction rs generalizing i j with
  | nil =>
    obtain ⟨k, hxs, hys, hrun⟩ := h
    exact drop_eq_drop_of_isMatch hxs hys hrun
  | cons r rest ih =>
    obtain ⟨⟨k, hleft, hright, hrun⟩, -, hle, hrest⟩ := h
    have hslices : slice xs i r.leftStart = slice ys j r.rightStart := by
      rw [hleft, hright, hrun.slice_eq]
    have hj : j ≤ r.rightStart := by omega
    calc editFrom xs ys i ((r :: rest).map Region.spans)
      _ = slice xs i r.leftStart ++ (slice ys r.rightStart r.rightStop ++
          editFrom xs ys r.leftStop (rest.map Region.spans)) := rfl
      _ = slice ys j r.rightStart ++ (slice ys r.rightStart r.rightStop ++
          ys.drop r.rightStop) := by rw [hslices, ih hrest]
      _ = ys.drop j := by rw [slice_append_drop hle, slice_append_drop hj]

/-- Regions that are aligned and apart have shared runs of positive length between them. -/
theorem isChain_follows (h : Aligned xs ys i j rs) (hapart : rs.Pairwise Region.Precedes) :
    (rs.map Region.spans).IsChain SpanPair.Follows := by
  induction rs generalizing i j with
  | nil => exact .nil
  | cons r rest ih =>
    obtain ⟨-, -, -, hrest⟩ := h
    cases rest with
    | nil => exact .singleton _
    | cons next rest =>
      obtain ⟨hleft, hright⟩ := rel_of_pairwise_cons hapart mem_cons_self
      obtain ⟨k, hstart, hstart', -⟩ := hrest.1
      refine .cons_cons ⟨k, by omega, ?_, ?_⟩ (ih hrest hapart.of_cons)
      · simp only [Region.spans]
        omega
      · simp only [Region.spans]
        omega

end Scripts

/-! ### Differences of texts -/

variable {r : Region}

theorem isDifference_of_mem {a b : List String} (h : r ∈ differences a b) : r.IsDifference :=
  (differences_bounds (ordered_all a b) h).1

/-- The differences of two texts are aligned. -/
theorem aligned_differences (a b : List String) : Aligned a b 0 0 (differences a b) := by
  apply aligned_ofMatches (k := 0)
  · exact ⟨Nat.zero_le _, Nat.zero_le _, fun t ht => absurd ht (Nat.not_lt_zero t)⟩
  · exact ordered_all a b
  · exact fun m hm => isMatch_of_mem_all hm

theorem Region.IsDifference.touched_pos (h : r.IsDifference) : 0 < r.touched := by
  have hnonempty := h.nonempty
  simp only [Region.touched]
  omega

theorem Region.touched_spans (r : Region) : r.spans.touched = r.touched := by
  simp only [SpanPair.touched, Span.length, Region.spans, Region.touched]
  omega

namespace TextDiff

variable {a b : List String}

theorem fitsIn_of_mem_spans {spans : SpanPair} (h : spans ∈ (TextDiff.of a b).spans) :
    spans.left.FitsIn a.length ∧ spans.right.FitsIn b.length := by
  obtain ⟨r, hr, rfl⟩ := mem_map.1 h
  obtain ⟨hdifference, -, -, hleft, hright⟩ := differences_bounds (ordered_all a b) hr
  have hleft' := hdifference.left_le
  have hright' := hdifference.right_le
  simp only [Span.FitsIn, Region.spans]
  omega

theorem of_self (lines : List String) : TextDiff.of lines lines = ⟨[], 0⟩ := by
  rw [TextDiff.of, differences_self]
  rfl

theorem changed_eq_sum (a b : List String) : (TextDiff.of a b).changed =
    ((TextDiff.of a b).spans.map SpanPair.touched).foldr (· + ·) 0 := by
  simp only [TextDiff.of, map_map, Function.comp_def, Region.touched_spans]

end TextDiff

/-- Texts without a changed line are the same. -/
theorem eq_of_changed_eq_zero {a b : List String} (h : (TextDiff.of a b).changed = 0) : a = b := by
  have hzero : ∀ rs : List Region, (rs.map Region.touched).foldr (· + ·) 0 = 0 →
      ∀ r ∈ rs, r.touched = 0 := by
    intro rs hrs
    induction rs with
    | nil => simp
    | cons r rs ih =>
      simp only [map_cons, foldr_cons, Nat.add_eq_zero_iff] at hrs
      simpa [hrs.1] using ih hrs.2
  have hnone : differences a b = [] := by
    rw [eq_nil_iff_forall_not_mem]
    intro r hr
    have hpos := (isDifference_of_mem hr).touched_pos
    have := hzero _ h r hr
    omega
  -- without a difference the shared run at the start reaches to both ends
  have haligned := aligned_differences a b
  rw [hnone] at haligned
  obtain ⟨k, ha, hb, hrun⟩ := haligned
  exact drop_eq_drop_of_isMatch ha hb hrun

/-- The difference of two texts is an edit script from the one to the other. It counts each span
by its longer side, and nothing just when the texts are the same. -/
theorem isEditScript_textDiff (a b : List String) :
    IsEditScript a b (TextDiff.of a b).spans ∧
      (TextDiff.of a b).changed =
        ((TextDiff.of a b).spans.map SpanPair.touched).foldr (· + ·) 0 ∧
      ((TextDiff.of a b).changed = 0 ↔ a = b) := by
  have haligned := aligned_differences a b
  have hapart : (differences a b).Pairwise Region.Precedes :=
    differences_pairwise (ordered_all a b)
  refine ⟨⟨fun s hs => TextDiff.fitsIn_of_mem_spans hs, ?_, ?_, isChain_follows haligned hapart,
    ?_, ?_⟩, TextDiff.changed_eq_sum a b, eq_of_changed_eq_zero, ?_⟩
  · intro s hs
    obtain ⟨r, hr, rfl⟩ := List.mem_map.1 hs
    have hnonempty := (isDifference_of_mem hr).nonempty
    simp only [Region.spans]
    omega
  · refine List.pairwise_map.2 (hapart.imp fun hprecedes => ?_)
    obtain ⟨hleft, hright⟩ := hprecedes
    simp only [Region.spans]
    omega
  · simpa [TextDiff.of, Function.comp_def] using gaps_eq_of_aligned haligned
  · simpa [TextDiff.of] using editFrom_of_aligned haligned
  · rintro rfl
    rw [TextDiff.of_self]

/-- A line replaced, one taken away and two put in. -/
example : (TextDiff.of ["a", "b", "c", "d", "e"] ["a", "x", "c", "e", "f", "g"]).spans =
    [⟨⟨1, 2⟩, ⟨1, 2⟩⟩, ⟨⟨3, 4⟩, ⟨3, 3⟩⟩, ⟨⟨5, 5⟩, ⟨4, 6⟩⟩] := by
  decide +kernel

end MovieDiff
