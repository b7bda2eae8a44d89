import MovieDiff.Proofs.Hunk.Range

/-!
Slices of a text: at least one line, and with them the marks of their hunk. Cutting gives the hunk
of a slice. Two slices have a joint one, from the earlier start to the later end; its hunk is what
merging gives when they meet, or when the lines between them are filled in as context.
-/
namespace MovieDiff.Hunk

/-- Some lines of a text that follow one another, each with a mark. -/
structure Slice (lines : List String) where
  lo : Nat
  hi : Nat
  mark : Nat → Mark
  lo_lt : lo < hi
  hi_le : hi ≤ lines.length
  mark_outside : ∀ i, i < lo ∨ hi ≤ i → mark i = .context

namespace Slice

variable {lines : List String}

def hunk (s : Slice lines) : Hunk :=
  ofMarks lines s.mark s.lo s.hi

def Has (s : Slice lines) (i : Nat) : Prop :=
  s.lo ≤ i ∧ i < s.hi

theorem lo_lt_max (s t : Slice lines) : min s.lo t.lo < max s.hi t.hi := by
  have := s.lo_lt
  omega

theorem max_hi_le (s t : Slice lines) : max s.hi t.hi ≤ lines.length :=
  Nat.max_le.2 ⟨s.hi_le, t.hi_le⟩

theorem overlay_outside (s t : Slice lines) (i : Nat)
    (h : i < min s.lo t.lo ∨ max s.hi t.hi ≤ i) : overlay s.mark t.mark i = .context := by
  rw [overlay, s.mark_outside i (by omega), t.mark_outside i (by omega)]
  rfl

/-- All lines from the start of the earlier slice to the end of the later one. -/
def join (s t : Slice lines) : Slice lines where
  lo := min s.lo t.lo
  hi := max s.hi t.hi
  mark := overlay s.mark t.mark
  lo_lt := s.lo_lt_max t
  hi_le := s.max_hi_le t
  mark_outside := s.overlay_outside t

variable (s t : Slice lines)

@[simp] theorem lo_join : (s.join t).lo = min s.lo t.lo := rfl

@[simp] theorem hi_join : (s.join t).hi = max s.hi t.hi := rfl

theorem mark_join_ne_context_iff {i : Nat} :
    (s.join t).mark i ≠ .context ↔ s.mark i ≠ .context ∨ t.mark i ≠ .context :=
  overlay_ne_context_iff

theorem has_of_mark_ne_context {i : Nat} (h : s.mark i ≠ .context) : s.Has i := by
  by_contra hnot
  unfold Has at hnot
  exact h (s.mark_outside i (by omega))

/-! ### Merging -/

theorem merge_concat (hunks : List Hunk) (hunk : Hunk) :
    merge (hunks ++ [hunk]) = (merge hunks).bind fun merged =>
      hunk.foldlM (fun merged line => insertLine line merged) merged := by
  rw [merge, List.flatten_append, List.flatten_singleton, List.foldlM_append]
  rfl

variable {s t}

/-- Two slices that meet are merged into the joint one. -/
theorem merge_hunks (hlo : s.lo ≤ t.lo) (hmeet : t.lo ≤ s.hi) :
    merge [s.hunk, t.hunk] = .ok (s.join t).hunk := by
  have ht := t.lo_lt
  unfold hunk
  rw [merge_ofMarks hlo hmeet (by omega) s.hi_le t.hi_le s.mark_outside t.mark_outside, lo_join,
    hi_join, Nat.min_eq_left hlo]
  rfl

/-- So are two slices that are apart, with the lines between them as context. -/
theorem merge_hunks_gap (hapart : s.hi ≤ t.lo) :
    merge [s.hunk, ofMarks lines (fun _ => .context) s.hi t.lo, t.hunk] =
      .ok (s.join t).hunk := by
  have hs := s.lo_lt
  have ht := t.lo_lt
  have hle := t.hi_le
  have hnone : overlay s.mark (fun _ => .context) = s.mark := by
    funext i
    exact ite_eq_right_iff.2 fun h => h.symm
  have hgap : merge [s.hunk, ofMarks lines (fun _ => .context) s.hi t.lo] =
      .ok (ofMarks lines s.mark s.lo t.lo) := by
    unfold hunk
    rw [merge_ofMarks (Nat.le_of_lt hs) (Nat.le_refl _) hapart s.hi_le (by omega) s.mark_outside
      (fun _ _ => rfl), hnone, Nat.max_eq_right hapart]
  have hrest := @foldlM_insertLine lines s.lo t.lo s.mark t.mark t.lo t.hi (by omega)
    (Nat.le_refl _) (by omega) (by omega) hle fun i hi => s.mark_outside i (.inr (by omega))
  rw [within_eq_self t.mark_outside] at hrest
  have hlo : min s.lo t.lo = s.lo := by omega
  have hhi : max s.hi t.hi = max t.lo t.hi := by omega
  rw [show [s.hunk, ofMarks lines (fun _ => .context) s.hi t.lo, t.hunk] =
    [s.hunk, ofMarks lines (fun _ => .context) s.hi t.lo] ++ [t.hunk] from rfl, merge_concat, hgap,
    hunk, hunk, lo_join, hi_join, hlo, hhi]
  exact hrest

/-! ### Cutting -/

theorem changeMark_outside {start stop context : Nat} (hstop : stop ≤ lines.length) (i : Nat)
    (h : i < start - context ∨ min lines.length (stop + context) ≤ i) :
    changeMark (fun i => start ≤ i && i < stop) i = .context := by
  rw [changeMark, if_neg]
  simp only [Bool.and_eq_true, decide_eq_true_eq]
  omega

def around {start stop context : Nat} (hstop : stop ≤ lines.length)
    (hlt : start - context < min lines.length (stop + context)) : Slice lines where
  lo := start - context
  hi := min lines.length (stop + context)
  mark := changeMark fun i => start ≤ i && i < stop
  lo_lt := hlt
  hi_le := Nat.min_le_left _ _
  mark_outside := changeMark_outside hstop

/-- Cutting a span gives the hunk of the slice around it. -/
theorem cut_eq_hunk_around {start stop context : Nat} (hle : start ≤ stop)
    (hstop : stop ≤ lines.length)
    (hlt : start - context < min lines.length (stop + context)) :
    cut lines ⟨start, stop⟩ context = .ok (around hstop hlt).hunk :=
  cut_eq_ofRange hle hstop

end Slice

end MovieDiff.Hunk
