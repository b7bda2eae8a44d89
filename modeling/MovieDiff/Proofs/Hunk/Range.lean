import Mathlib.Data.List.Basic
import MovieDiff.Hunk.Basic
import MovieDiff.Proofs.Matching.Regions

/-!
Hunks that hold a range of lines. Cutting a span gives such a hunk, and merging two that meet
gives one for both ranges, in which the first mark that is not context counts.
-/
namespace MovieDiff.Hunk

open List

variable {i start stop : Nat} {m : Mark}

/-- The lines from one place up to another, each with the mark of its place. -/
def ofMarks (lines : List String) (mark : Nat → Mark) (lo hi : Nat) : Hunk :=
  ((slice lines lo hi).zipIdx lo).map fun (text, i) => ⟨i, text, mark i⟩

/-- The lines from one place up to another; those that are not changed are context. -/
def ofRange (lines : List String) (changed : Nat → Bool) (lo hi : Nat) : Hunk :=
  ((slice lines lo hi).zipIdx lo).map fun (text, i) =>
    ⟨i, text, if changed i then .plain else .context⟩

section Marks

variable {lines : List String} {mark : Nat → Mark} {lo mid hi : Nat}

theorem texts_ofMarks (lines : List String) (mark : Nat → Mark) (lo hi : Nat) :
    texts (ofMarks lines mark lo hi) = slice lines lo hi := by
  unfold texts ofMarks
  rw [map_map]
  exact zipIdx_map_fst lo (slice lines lo hi)

theorem length_ofMarks (hhi : hi ≤ lines.length) : (ofMarks lines mark lo hi).length = hi - lo := by
  rw [ofMarks, length_map, length_zipIdx, length_slice hhi]

theorem ofMarks_self (lines : List String) (mark : Nat → Mark) (lo : Nat) :
    ofMarks lines mark lo lo = [] := by
  rw [ofMarks, slice_self]
  rfl

theorem ofMarks_append (hlo : lo ≤ mid) (hmid : mid ≤ hi) (hhi : hi ≤ lines.length) :
    ofMarks lines mark lo mid ++ ofMarks lines mark mid hi = ofMarks lines mark lo hi := by
  have hlength : (slice lines lo mid).length = mid - lo := length_slice (by omega)
  unfold ofMarks
  rw [← slice_append_slice hlo hmid, zipIdx_append, map_append, hlength,
    Nat.add_sub_cancel' hlo]

theorem ofMarks_singleton (h : lo < lines.length) :
    ofMarks lines mark lo (lo + 1) = [⟨lo, lines[lo], mark lo⟩] := by
  have hslice : slice lines lo (lo + 1) = [lines[lo]] := by
    rw [slice, take_succ_eq_append_getElem h, drop_left' (by simp; omega)]
  rw [ofMarks, hslice]
  rfl

theorem ofMarks_cons (h : lo < hi) (hhi : hi ≤ lines.length) :
    ofMarks lines mark lo hi = ⟨lo, lines[lo], mark lo⟩ :: ofMarks lines mark (lo + 1) hi := by
  rw [← ofMarks_append (Nat.le_succ lo) h hhi, ofMarks_singleton (by omega), singleton_append]

theorem ofMarks_concat (h : lo ≤ hi) (hhi : hi < lines.length) :
    ofMarks lines mark lo (hi + 1) = ofMarks lines mark lo hi ++ [⟨hi, lines[hi], mark hi⟩] := by
  rw [← ofMarks_append h (Nat.le_succ hi) hhi, ofMarks_singleton hhi]

theorem ofMarks_congr {mark' : Nat → Mark} (h : ∀ i, lo ≤ i → i < hi → mark i = mark' i) :
    ofMarks lines mark lo hi = ofMarks lines mark' lo hi := by
  unfold ofMarks
  apply map_congr_left
  rintro ⟨text, i⟩ hmem
  have hbounds := mem_zipIdx hmem
  have hlength : (slice lines lo hi).length ≤ hi - lo := by simp [slice]; omega
  dsimp only
  rw [h i (by omega) (by omega)]

theorem mem_ofMarks {line : HunkLine} (h : line ∈ ofMarks lines mark lo hi) :
    ∃ i : Nat, lo ≤ i ∧ i < hi ∧ line.index = i ∧ line.mark = mark i := by
  obtain ⟨⟨text, i⟩, hmem, rfl⟩ := mem_map.1 h
  have hbounds := mem_zipIdx hmem
  have hlength : (slice lines lo hi).length ≤ hi - lo := by simp [slice]; omega
  exact ⟨i, by omega, by omega, rfl, rfl⟩

end Marks

/-! ### Changed lines -/

variable {lines : List String} {changed : Nat → Bool} {lo mid hi : Nat}

def changeMark (changed : Nat → Bool) (i : Nat) : Mark :=
  if changed i then .plain else .context

theorem ofRange_eq_ofMarks (lines : List String) (changed : Nat → Bool) (lo hi : Nat) :
    ofRange lines changed lo hi = ofMarks lines (changeMark changed) lo hi := rfl

theorem texts_ofRange (lines : List String) (changed : Nat → Bool) (lo hi : Nat) :
    texts (ofRange lines changed lo hi) = slice lines lo hi := by
  rw [ofRange_eq_ofMarks, texts_ofMarks]

theorem length_ofRange (hhi : hi ≤ lines.length) :
    (ofRange lines changed lo hi).length = hi - lo := by
  rw [ofRange_eq_ofMarks, length_ofMarks hhi]

theorem ofRange_self (lines : List String) (changed : Nat → Bool) (lo : Nat) :
    ofRange lines changed lo lo = [] := by
  rw [ofRange_eq_ofMarks, ofMarks_self]

theorem ofRange_append (hlo : lo ≤ mid) (hmid : mid ≤ hi) (hhi : hi ≤ lines.length) :
    ofRange lines changed lo mid ++ ofRange lines changed mid hi = ofRange lines changed lo hi := by
  simp only [ofRange_eq_ofMarks]
  exact ofMarks_append hlo hmid hhi

theorem ofRange_cons (h : lo < hi) (hhi : hi ≤ lines.length) :
    ofRange lines changed lo hi =
      ⟨lo, lines[lo], if changed lo then .plain else .context⟩ ::
        ofRange lines changed (lo + 1) hi := by
  simp only [ofRange_eq_ofMarks]
  exact ofMarks_cons h hhi

theorem ofRange_concat (h : lo ≤ hi) (hhi : hi < lines.length) :
    ofRange lines changed lo (hi + 1) =
      ofRange lines changed lo hi ++
        [⟨hi, lines[hi], if changed hi then .plain else .context⟩] := by
  simp only [ofRange_eq_ofMarks]
  exact ofMarks_concat h hhi

theorem mem_ofRange {line : HunkLine} (h : line ∈ ofRange lines changed lo hi) :
    ∃ i : Nat, lo ≤ i ∧ i < hi ∧ line.index = i ∧
      line.mark = if changed i then .plain else .context :=
  mem_ofMarks h

/-! ### Cutting -/

/-- Cutting a span takes its lines and the context around it, as far as there is any. -/
theorem cutLines_eq_ofRange {start stop context : Nat} (hstart : start ≤ stop)
    (hstop : stop ≤ lines.length) :
    cutLines lines ⟨start, stop⟩ context =
      ofRange lines (fun i => start ≤ i && i < stop) (start - context)
        (min lines.length (stop + context)) := by
  generalize hlo : start - context = lo
  generalize hhi : min lines.length (stop + context) = hi
  have hle : hi ≤ lines.length := by omega
  have hlines : lines.zipIdx = (slice lines 0 lo).zipIdx 0 ++ ((slice lines lo hi).zipIdx lo ++
      (slice lines hi lines.length).zipIdx hi) := by
    have hwhole : slice lines 0 lines.length = lines := slice_length lines 0
    have hfront : (slice lines 0 lo).length = lo := length_slice (by omega)
    have hmiddle : lo + (slice lines lo hi).length = hi := by
      rw [length_slice hle]
      omega
    rw [← hwhole, ← slice_append_slice (Nat.zero_le lo) (by omega : lo ≤ lines.length),
      ← slice_append_slice (by omega : lo ≤ hi) hle, zipIdx_append, zipIdx_append,
      Nat.zero_add, hfront, hmiddle, slice_append_slice (by omega) hle,
      slice_append_slice (Nat.zero_le lo) (by omega), hwhole]
  have houtside : ∀ a b : Nat, b ≤ lines.length → (∀ i, a ≤ i → i < b → i < lo ∨ hi ≤ i) →
      ((slice lines a b).zipIdx a).filterMap (fun (text, i) =>
        (cutMark? ⟨start, stop⟩ context i).map fun mark => (⟨i, text, mark⟩ : HunkLine)) = [] := by
    intro a b hb hout
    rw [filterMap_eq_nil_iff]
    rintro ⟨text, i⟩ hmem
    have hbounds := mem_zipIdx hmem
    rw [length_slice hb] at hbounds
    have hi := hout i (by omega) (by omega)
    dsimp only
    rw [cutMark?, if_neg (by simp only; omega), if_neg (by simp only; omega)]
    rfl
  unfold cutLines ofRange
  rw [hlines, filterMap_append, filterMap_append, houtside 0 lo (by omega) (by omega),
    houtside hi lines.length (Nat.le_refl _) (by omega), nil_append, append_nil, ← filterMap_eq_map]
  apply filterMap_congr
  rintro ⟨text, i⟩ hmem
  have hbounds := mem_zipIdx hmem
  rw [length_slice hle] at hbounds
  dsimp only [Function.comp_apply]
  rw [cutMark?]
  by_cases hspan : start ≤ i ∧ i < stop
  · rw [if_pos (by simp only; omega), if_pos (by simpa using hspan)]
    rfl
  · rw [if_neg (by simp only; omega), if_pos (by simp only; omega), if_neg (by simpa using hspan)]
    rfl

/-- A cut is a range with context. -/
theorem cut_eq_ofRange {start stop context : Nat} (hstart : start ≤ stop)
    (hstop : stop ≤ lines.length) :
    cut lines ⟨start, stop⟩ context = .ok (ofRange lines (fun i => start ≤ i && i < stop)
      (start - context) (min lines.length (stop + context))) := by
  rw [cut, if_neg (by simp only; omega), if_neg (by simp only; omega),
    cutLines_eq_ofRange hstart hstop]

/-! ### Merging -/

section Merging

variable {mark : Nat → Mark}

/-- The marks of two hunks of one text, one over the other: the first one counts unless it is
context. -/
def overlay (mark added : Nat → Mark) (i : Nat) : Mark :=
  if mark i = .context then added i else mark i

theorem overlay_ne_context_iff {mark added : Nat → Mark} :
    overlay mark added i ≠ .context ↔ mark i ≠ .context ∨ added i ≠ .context := by
  unfold overlay
  split <;> simp_all

def markAt (mark : Nat → Mark) (i : Nat) (m : Mark) : Nat → Mark :=
  overlay mark fun j => if j = i then m else .context

theorem markAt_self (mark : Nat → Mark) (i : Nat) (m : Mark) :
    markAt mark i m i = if mark i = .context then m else mark i := by
  simp [markAt, overlay]

theorem markAt_of_ne {j : Nat} (m : Mark) (h : j ≠ i) : markAt mark i m j = mark j := by
  simp only [markAt, overlay, if_neg h]
  split <;> simp_all

/-- A line that the hunk has already changes its mark if that is context. -/
theorem insertLine_inside (hlo : lo ≤ i) (hi' : i < hi) (hhi : hi ≤ lines.length) :
    insertLine ⟨i, lines[i], m⟩ (ofMarks lines mark lo hi) =
      .ok (ofMarks lines (markAt mark i m) lo hi) := by
  obtain ⟨n, hn⟩ : ∃ n, i = lo + n := ⟨i - lo, by omega⟩
  induction n generalizing lo with
  | zero =>
    have hi0 : i = lo := hn
    subst hi0
    have hrest : ofMarks lines (markAt mark i m) (i + 1) hi = ofMarks lines mark (i + 1) hi :=
      ofMarks_congr fun j hj _ => markAt_of_ne m (by omega)
    rw [ofMarks_cons hi' hhi, ofMarks_cons hi' hhi, hrest, insertLine, markAt_self]
    by_cases hmark : mark i = .context
    · by_cases hm : m = .context
      · simp [HunkLine.isContext, hmark, hm]
      · simp [HunkLine.isContext, hmark, hm]
    · simp [HunkLine.isContext, hmark]
  | succ n ih =>
    have hlt : lo < hi := by omega
    rw [ofMarks_cons hlt hhi, ofMarks_cons hlt hhi, markAt_of_ne m (by omega), insertLine,
      if_neg (by simp only; omega), if_pos (by simp only; omega), ih (by omega) (by omega)]
    rfl

/-- The line after the hunk is put at its end. -/
theorem insertLine_end (hlo : lo ≤ hi) (hhi : hi < lines.length) (hcontext : mark hi = .context) :
    insertLine ⟨hi, lines[hi], m⟩ (ofMarks lines mark lo hi) =
      .ok (ofMarks lines (markAt mark hi m) lo (hi + 1)) := by
  have hfront : ofMarks lines (markAt mark hi m) lo hi = ofMarks lines mark lo hi :=
    ofMarks_congr fun j _ hj => markAt_of_ne m (by omega)
  rw [ofMarks_concat hlo hhi, markAt_self, if_pos hcontext, hfront]
  have hbefore : ∀ line ∈ ofMarks lines mark lo hi, line.index < hi := by
    intro line hline
    obtain ⟨i, -, hi', hindex, -⟩ := mem_ofMarks hline
    omega
  generalize ofMarks lines mark lo hi = known at hbefore
  induction known with
  | nil => rfl
  | cons first known ih =>
    have hfirst := hbefore first mem_cons_self
    rw [insertLine, if_neg (by simp only; omega), if_pos hfirst,
      ih fun line hline => hbefore line (mem_cons_of_mem _ hline)]
    rfl

def within (start stop : Nat) (added : Nat → Mark) (i : Nat) : Mark :=
  if start ≤ i ∧ i < stop then added i else .context

theorem within_eq_self {added : Nat → Mark} (h : ∀ i, i < start ∨ stop ≤ i → added i = .context) :
    within start stop added = added := by
  funext i
  unfold within
  split
  · rfl
  next houtside => rw [h i (by omega)]

theorem overlay_within_empty (mark added : Nat → Mark) (start : Nat) :
    overlay mark (within start start added) = mark := by
  funext i
  have hnone : ¬ (start ≤ i ∧ i < start) := by omega
  simp only [overlay, within, if_neg hnone]
  exact ite_eq_right_iff.2 fun h => h.symm

/-- The marks of a range come one after another. -/
theorem overlay_markAt_within (mark added : Nat → Mark) (h : start < stop) :
    overlay (markAt mark start (added start)) (within (start + 1) stop added) =
      overlay mark (within start stop added) := by
  funext i
  by_cases heq : i = start
  · subst heq
    have hnot : ¬ (i + 1 ≤ i ∧ i < stop) := by omega
    have hyes : i ≤ i ∧ i < stop := ⟨Nat.le_refl i, h⟩
    simp only [overlay, within, markAt_self, if_neg hnot, if_pos hyes]
    exact ite_eq_right_iff.2 fun h => h.symm
  · have hiff : start + 1 ≤ i ↔ start ≤ i := by omega
    simp only [overlay, within, markAt_of_ne _ heq, hiff]

/-- A line that meets the hunk, inside it or right behind it. -/
theorem insertLine_ofMarks (hlo : lo ≤ i) (hi' : i ≤ hi) (hhi : hi ≤ lines.length)
    (hlength : i < lines.length) (hmark : ∀ j, hi ≤ j → mark j = .context) :
    insertLine ⟨i, lines[i], m⟩ (ofMarks lines mark lo hi) =
      .ok (ofMarks lines (markAt mark i m) lo (max hi (i + 1))) := by
  rcases Nat.lt_or_ge i hi with hinside | houtside
  · rw [insertLine_inside hlo hinside hhi, Nat.max_eq_left hinside]
  · have heq : hi = i := by omega
    subst heq
    rw [insertLine_end hlo hlength (hmark hi (Nat.le_refl _)), Nat.max_eq_right (Nat.le_succ hi)]

/-- Two hunks that meet, put line by line into one. -/
theorem foldlM_insertLine {added : Nat → Mark} {start stop : Nat} (hlo : lo ≤ start)
    (hstart : start ≤ hi) (hle : start ≤ stop) (hhi : hi ≤ lines.length)
    (hstop : stop ≤ lines.length) (hmark : ∀ i, hi ≤ i → mark i = .context) :
    (ofMarks lines added start stop).foldlM (fun merged line => insertLine line merged)
        (ofMarks lines mark lo hi) =
      .ok (ofMarks lines (overlay mark (within start stop added)) lo (max hi stop)) := by
  obtain ⟨n, hn⟩ : ∃ n, stop = start + n := ⟨stop - start, by omega⟩
  induction n generalizing start hi mark with
  | zero =>
    have hempty : stop = start := hn
    subst hempty
    rw [ofMarks_self, overlay_within_empty, Nat.max_eq_left hstart]
    rfl
  | succ n ih =>
    have hlt : start < stop := by omega
    have hlater : ∀ i, max hi (start + 1) ≤ i → markAt mark start (added start) i = .context := by
      intro i hi'
      rw [markAt_of_ne _ (by omega), hmark i (by omega)]
    have hmax : max (max hi (start + 1)) stop = max hi stop := by omega
    rw [ofMarks_cons hlt hstop, foldlM_cons,
      insertLine_ofMarks hlo hstart hhi (by omega) hmark]
    have hrest := ih (by omega) (by omega) hlt (by omega) hlater (by omega)
    rw [hmax, overlay_markAt_within mark added hlt] at hrest
    exact hrest

/-- Lines that are put into an empty hunk are left as they are. -/
theorem foldlM_insertLine_nil (hle : lo ≤ hi) (hhi : hi ≤ lines.length)
    (hmark : ∀ i, i < lo ∨ hi ≤ i → mark i = .context) :
    (ofMarks lines mark lo hi).foldlM (fun merged line => insertLine line merged) [] =
      .ok (ofMarks lines mark lo hi) := by
  have hnone : overlay (fun _ => .context) mark = mark := by
    funext i
    simp [overlay]
  have hfold := @foldlM_insertLine lines lo lo (fun _ => .context) mark lo hi (Nat.le_refl lo)
    (Nat.le_refl lo) hle (by omega) hhi (fun _ _ => rfl)
  rwa [ofMarks_self, Nat.max_eq_right hle, within_eq_self hmark, hnone] at hfold

/-- Merging two hunks that meet gives the hunk of both ranges. -/
theorem merge_ofMarks {added : Nat → Mark} (hlo : lo ≤ start) (hstart : start ≤ hi)
    (hle : start ≤ stop) (hhi : hi ≤ lines.length) (hstop : stop ≤ lines.length)
    (hmark : ∀ i, i < lo ∨ hi ≤ i → mark i = .context)
    (hadded : ∀ i, i < start ∨ stop ≤ i → added i = .context) :
    merge [ofMarks lines mark lo hi, ofMarks lines added start stop] =
      .ok (ofMarks lines (overlay mark added) lo (max hi stop)) := by
  have hfold := @foldlM_insertLine lines lo hi mark added start stop hlo hstart hle hhi hstop
    fun i hi' => hmark i (.inr hi')
  rw [within_eq_self hadded] at hfold
  rw [merge, flatten_cons, flatten_cons, flatten_nil, append_nil,
    foldlM_append, foldlM_insertLine_nil (by omega) hhi hmark]
  exact hfold

end Merging

end MovieDiff.Hunk
