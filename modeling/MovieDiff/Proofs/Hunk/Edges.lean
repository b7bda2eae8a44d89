import MovieDiff.Proofs.Hunk.Range
import MovieDiff.Proofs.Hunk.Trimming

/-!
Trimming the edges of two hunks narrows their ranges. At each edge either both keep all of their
context, or both keep equally many lines of it, which agree.
-/
namespace MovieDiff.Hunk

open List

variable {lines left right : List String} {changed : Nat → Bool}
  {mid lo lo' first first' x y stop stop' hi hi' n : Nat}

theorem isContext_mark (i : Int) (text : String) (isChanged : Bool) :
    HunkLine.isContext ⟨i, text, if isChanged then .plain else .context⟩ = !isChanged := by
  cases isChanged <;> rfl

theorem all_isContext_ofRange (h : ∀ i, lo ≤ i → i < hi → changed i = false) :
    ∀ line ∈ ofRange lines changed lo hi, line.isContext = true := by
  intro line hline
  obtain ⟨i, hlo, hhi, -, hmark⟩ := mem_ofRange hline
  rw [h i hlo hhi] at hmark
  rw [HunkLine.isContext, hmark]
  rfl

/-- A range is context if nothing in it changed. -/
theorem all_isContext_iff (hhi : hi ≤ lines.length) :
    (ofRange lines changed lo hi).all HunkLine.isContext = true ↔
      ∀ i, lo ≤ i → i < hi → changed i = false := by
  rw [all_eq_true]
  refine ⟨fun h i hlo hi' => ?_, all_isContext_ofRange⟩
  have hmem : (⟨i, lines[i], if changed i then .plain else .context⟩ : HunkLine) ∈
      ofRange lines changed lo hi := by
    rw [← ofRange_append hlo (Nat.le_of_lt hi') hhi, ofRange_cons hi' hhi]
    exact mem_append_right _ mem_cons_self
  have hcontext := h _ hmem
  rw [isContext_mark] at hcontext
  simpa using hcontext

/-! ### Agreeing context -/

/-- Context kept before the first changed lines `first` and `first'`: all of it from `lo` and `lo'`,
or as many lines on both sides, from `x` and `y`, as are the same. -/
def KeepsLead (left right : List String) (lo lo' first first' x y : Nat) : Prop :=
  x = lo ∧ y = lo' ∨
    ∃ c, 0 < c ∧ first = x + c ∧ first' = y + c ∧ lo ≤ x ∧ lo' ≤ y ∧
      slice left x first = slice right y first' ∧
      (lo < x → lo' < y → left[x - 1]? ≠ right[y - 1]?)

/-- Context kept after the changed lines, from `stop` and `stop'` up to `x` and `y`. -/
def KeepsTrail (left right : List String) (stop stop' hi hi' x y : Nat) : Prop :=
  x = hi ∧ y = hi' ∨
    ∃ c, 0 < c ∧ x = stop + c ∧ y = stop' + c ∧ x ≤ hi ∧ y ≤ hi' ∧
      slice left stop x = slice right stop' y ∧
      (x < hi → y < hi' → left[x]? ≠ right[y]?)

theorem KeepsLead.bounds
    (h : KeepsLead left right lo lo' first first' x y) (hlo : lo ≤ first) (hlo' : lo' ≤ first') :
    (lo ≤ x ∧ x ≤ first) ∧ lo' ≤ y ∧ y ≤ first' := by
  rcases h with ⟨rfl, rfl⟩ | ⟨c, -, hc, hc', hx, hy, -, -⟩
  · exact ⟨⟨Nat.le_refl _, hlo⟩, Nat.le_refl _, hlo'⟩
  · omega

theorem KeepsTrail.bounds
    (h : KeepsTrail left right stop stop' hi hi' x y) (hhi : stop ≤ hi) (hhi' : stop' ≤ hi') :
    (stop ≤ x ∧ x ≤ hi) ∧ stop' ≤ y ∧ y ≤ hi' := by
  rcases h with ⟨rfl, rfl⟩ | ⟨c, -, hc, hc', hx, hy, -, -⟩
  · exact ⟨⟨hhi, Nat.le_refl _⟩, hhi', Nat.le_refl _⟩
  · omega

/-- The lines before, between and after two places of a range. -/
theorem ofRange_glue (hlo : lo ≤ mid) (hmid : mid ≤ stop) (hstop : stop ≤ hi)
    (hhi : hi ≤ lines.length) :
    ofRange lines changed lo mid ++ (ofRange lines changed mid stop ++ ofRange lines changed stop hi)
      = ofRange lines changed lo hi := by
  rw [ofRange_append hmid hstop hhi, ofRange_append hlo (Nat.le_trans hmid hstop) hhi]

theorem reverse_ofRange_take (hn : lo + n ≤ hi) (hhi : hi ≤ lines.length) :
    (ofRange lines changed lo hi).reverse.take n = (ofRange lines changed (hi - n) hi).reverse := by
  rw [← ofRange_append (by omega : lo ≤ hi - n) (by omega) hhi, reverse_append]
  apply take_left'
  rw [length_reverse, length_ofRange hhi]
  omega

theorem ofRange_take (hn : lo + n ≤ hi) (hhi : hi ≤ lines.length) :
    (ofRange lines changed lo hi).take n = ofRange lines changed lo (lo + n) := by
  rw [← ofRange_append (by omega : lo ≤ lo + n) hn hhi]
  apply take_left'
  rw [length_ofRange (by omega)]
  omega

theorem getElem?_texts_ofRange (hn : lo + n < hi) :
    (texts (ofRange lines changed lo hi))[n]? = lines[lo + n]? := by
  rw [texts_ofRange, getElem?_slice hn]

theorem getElem?_texts_reverse_ofRange (hn : lo + n < hi) (hhi : hi ≤ lines.length) :
    (texts (ofRange lines changed lo hi).reverse)[n]? = lines[hi - 1 - n]? := by
  have htexts : texts (ofRange lines changed lo hi).reverse = (slice lines lo hi).reverse := by
    rw [← texts_ofRange lines changed]
    exact map_reverse
  have hlength := length_slice (i := lo) hhi
  rw [htexts, getElem?_reverse (by omega), hlength, getElem?_slice (by omega)]
  congr 1
  omega

structure HasEdges (lines : List String) (changed : Nat → Bool) (lo hi first last : Nat) :
    Prop where
  lo_le : lo ≤ first
  first_le : first ≤ last
  last_lt : last < hi
  hi_le : hi ≤ lines.length
  first_changed : changed first = true
  last_changed : changed last = true
  before : ∀ i, lo ≤ i → i < first → changed i = false
  after : ∀ i, last < i → i < hi → changed i = false

theorem ascends_ofRange (hhi : hi ≤ lines.length) : Ascends (ofRange lines changed lo hi) := by
  obtain ⟨n, hn⟩ : ∃ n, n = hi - lo := ⟨hi - lo, rfl⟩
  induction n generalizing lo with
  | zero =>
    have hempty : ofRange lines changed lo hi = [] := by
      rw [← length_eq_zero_iff, length_ofRange hhi, hn]
    rw [hempty]
    exact List.Pairwise.nil
  | succ n ih =>
    rw [ofRange_cons (by omega) hhi]
    refine List.Pairwise.cons (fun line hline => ?_) (ih (by omega))
    obtain ⟨i, hi', -, hindex, -⟩ := mem_ofRange hline
    rw [hindex]
    simp only
    omega

namespace HasEdges

variable {last : Nat} (h : HasEdges lines changed lo hi first last)
include h

theorem lead_isContext : ∀ line ∈ (ofRange lines changed lo first).reverse,
    line.isContext = true := fun line hline =>
  all_isContext_ofRange h.before line (mem_reverse.1 hline)

theorem trail_isContext : ∀ line ∈ ofRange lines changed (last + 1) hi, line.isContext = true :=
  all_isContext_ofRange h.after

theorem exists_core_eq_cons : ∃ line rest, ofRange lines changed first (last + 1) = line :: rest ∧
    line.isContext = false := by
  have hfirst := h.first_le
  have hlast := h.last_lt
  have hhi := h.hi_le
  refine ⟨_, _, ofRange_cons (by omega) (by omega), ?_⟩
  rw [isContext_mark, h.first_changed]
  rfl

theorem exists_core_eq_concat : ∃ front line,
    ofRange lines changed first (last + 1) = front ++ [line] ∧ line.isContext = false := by
  have hlast := h.last_lt
  have hhi := h.hi_le
  refine ⟨_, _, ofRange_concat h.first_le (by omega), ?_⟩
  rw [isContext_mark, h.last_changed]
  rfl

/-- The context before the first changed line and that after the last one, and what lies between. -/
def parts : Parts where
  lead := (ofRange lines changed lo first).reverse
  core := ofRange lines changed first (last + 1)
  trail := ofRange lines changed (last + 1) hi
  lead_context := h.lead_isContext
  trail_context := h.trail_isContext
  starts_changed := h.exists_core_eq_cons
  ends_changed := h.exists_core_eq_concat

theorem hunk_parts : h.parts.hunk = ofRange lines changed lo hi := by
  have hle := h.first_le
  rw [Parts.hunk, HasEdges.parts, reverse_reverse]
  exact ofRange_glue h.lo_le (by omega) h.last_lt h.hi_le

end HasEdges

section Trimmed

variable {changed' : Nat → Bool} {last last' : Nat}

/-- The context kept before the first changed lines. -/
theorem exists_keepsLead (changed changed' : Nat → Bool) (hfirst : first ≤ left.length)
    (hfirst' : first' ≤ right.length) :
    ∃ x y, KeepsLead left right lo lo' first first' x y ∧
      kept (ofRange left changed lo first).reverse (ofRange right changed' lo' first').reverse =
        (ofRange left changed x first).reverse ∧
      kept (ofRange right changed' lo' first').reverse (ofRange left changed lo first).reverse =
        (ofRange right changed' y first').reverse := by
  rcases kept_cases (ofRange left changed lo first).reverse
    (ofRange right changed' lo' first').reverse with
    ⟨hkept, hkept'⟩ | ⟨n, hpos, hle, hle', hkept, hkept', hagree, hnext⟩
  · exact ⟨lo, lo', .inl ⟨rfl, rfl⟩, hkept, hkept'⟩
  · rw [length_reverse, length_ofRange hfirst] at hle hnext
    rw [length_reverse, length_ofRange hfirst'] at hle' hnext
    rw [hkept, hkept']
    rw [reverse_ofRange_take (by omega) hfirst, reverse_ofRange_take (by omega) hfirst'] at hagree ⊢
    refine ⟨first - n, first' - n, .inr ⟨n, by omega, by omega, by omega, by omega, by omega, ?_,
      fun hless hless' => ?_⟩, rfl, rfl⟩
    · rw [← texts_ofRange left changed, ← texts_ofRange right changed']
      simpa [texts] using hagree
    · have hne := hnext (by omega) (by omega)
      rw [getElem?_texts_reverse_ofRange (by omega) hfirst,
        getElem?_texts_reverse_ofRange (by omega) hfirst'] at hne
      rwa [Nat.sub_right_comm first, Nat.sub_right_comm first']

/-- The context kept after the last changed lines. -/
theorem exists_keepsTrail (changed changed' : Nat → Bool)
    (hhi : hi ≤ left.length) (hhi' : hi' ≤ right.length) :
    ∃ x y, KeepsTrail left right stop stop' hi hi' x y ∧
      kept (ofRange left changed stop hi) (ofRange right changed' stop' hi') =
        ofRange left changed stop x ∧
      kept (ofRange right changed' stop' hi') (ofRange left changed stop hi) =
        ofRange right changed' stop' y := by
  rcases kept_cases (ofRange left changed stop hi) (ofRange right changed' stop' hi') with
    ⟨hkept, hkept'⟩ | ⟨n, hpos, hle, hle', hkept, hkept', hagree, hnext⟩
  · exact ⟨hi, hi', .inl ⟨rfl, rfl⟩, hkept, hkept'⟩
  · rw [length_ofRange hhi] at hle hnext
    rw [length_ofRange hhi'] at hle' hnext
    rw [hkept, hkept']
    rw [ofRange_take (by omega) hhi, ofRange_take (by omega) hhi'] at hagree ⊢
    refine ⟨stop + n, stop' + n, .inr ⟨n, by omega, rfl, rfl, by omega, by omega, ?_,
      fun hless hless' => ?_⟩, rfl, rfl⟩
    · rwa [texts_ofRange, texts_ofRange] at hagree
    · have hne := hnext (by omega) (by omega)
      rwa [getElem?_texts_ofRange (by omega), getElem?_texts_ofRange (by omega)] at hne

/-- Trimming two hunks that both have changed lines narrows their ranges. -/
theorem alignEdges_ofRange (hleft : HasEdges left changed lo hi first last)
    (hright : HasEdges right changed' lo' hi' first' last') :
    ∃ x y x' y' : Nat, KeepsLead left right lo lo' first first' x y ∧
      KeepsTrail left right (last + 1) (last' + 1) hi hi' x' y' ∧
      alignEdges (ofRange left changed lo hi) (ofRange right changed' lo' hi') =
        (ofRange left changed x x', ofRange right changed' y y') := by
  have hp : Ascends hleft.parts.hunk := by
    rw [hleft.hunk_parts]
    exact ascends_ofRange hleft.hi_le
  have hq : Ascends hright.parts.hunk := by
    rw [hright.hunk_parts]
    exact ascends_ofRange hright.hi_le
  have htrimmed := Parts.alignEdges_hunk hp hq
  rw [hleft.hunk_parts, hright.hunk_parts] at htrimmed
  have hle := hleft.first_le
  have hlt := hleft.last_lt
  have hhi := hleft.hi_le
  have hle' := hright.first_le
  have hlt' := hright.last_lt
  have hhi' := hright.hi_le
  obtain ⟨x, y, hlead, hkept, hkept'⟩ := exists_keepsLead changed changed'
    (by omega : first ≤ left.length) (by omega : first' ≤ right.length)
  obtain ⟨x', y', htrail, hkeptTrail, hkeptTrail'⟩ := exists_keepsTrail changed changed' hhi hhi'
  refine ⟨x, y, x', y', hlead, htrail, ?_⟩
  -- the kept lines start before the changed ones and stop after them
  have hx := hlead.bounds hleft.lo_le hright.lo_le
  have hx' := htrail.bounds (by omega) (by omega)
  simp only [Parts.hunk, Parts.trim, HasEdges.parts, hkept, hkept', hkeptTrail, hkeptTrail',
    reverse_reverse] at htrimmed
  rwa [ofRange_glue (by omega) (by omega) (by omega) (by omega),
    ofRange_glue (by omega) (by omega) (by omega) (by omega)] at htrimmed

end Trimmed

end MovieDiff.Hunk
