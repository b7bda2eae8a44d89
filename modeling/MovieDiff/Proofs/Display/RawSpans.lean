import Mathlib.Data.List.Flatten
import Mathlib.Order.Bounds.Basic
import MovieDiff.Display.Spans
import MovieDiff.Proofs.Files.FileTree
import MovieDiff.Proofs.Pcode.SourceOrder

/-!
From spans of a normal form to spans of raw lines. A span that covers lines becomes the hull of
their sources, an empty one a place before its line or after the last one. Main statement: in a
normal form every span has such a place, within the raw lines of its block, and a span that starts
or stops later has a place that starts or stops no earlier.
-/
namespace MovieDiff

open List

variable {span range : Span} {n : Int} {sources : List (List Int)}

def Span.IsHull (span : Span) (numbers : List Int) : Prop :=
  IsLeast {n | n ∈ numbers} span.start ∧ IsGreatest {n | n ∈ numbers} (span.stop - 1)

/-- A span, the right way round, inside another one. -/
structure Span.IsWithin (inner outer : Span) : Prop where
  start : outer.start ≤ inner.start
  le : inner.start ≤ inner.stop
  stop : inner.stop ≤ outer.stop

def Span.slice {α : Type} (span : Span) (xs : List α) : List α :=
  (xs.drop span.start.toNat).take (span.stop - span.start).toNat

variable {numbers : List Int}

/-- A hull holds its numbers. -/
theorem Span.IsHull.mem_bounds (h : span.IsHull numbers)
    (hn : n ∈ numbers) : span.start ≤ n ∧ n < span.stop := by
  have hleast : span.start ≤ n := h.1.2 hn
  have hgreatest : n ≤ span.stop - 1 := h.2.2 hn
  omega

theorem Span.IsHull.le (h : span.IsHull numbers) : span.start ≤ span.stop := by
  have := h.mem_bounds h.1.1
  omega

/-- Fewer numbers have a smaller hull. -/
theorem Span.IsHull.isWithin {inner outer : Span} {others : List Int} (h : inner.IsHull numbers)
    (h' : outer.IsHull others) (hsubset : numbers ⊆ others) :
    inner.IsWithin outer := by
  have hstart : outer.start ≤ inner.start := h.1.mono h'.1 fun _ hn => hsubset hn
  have hstop : inner.stop - 1 ≤ outer.stop - 1 := h.2.mono h'.2 fun _ hn => hsubset hn
  exact ⟨hstart, h.le, by omega⟩

namespace Pcode.SourcesInOrder

variable {front rest : List (List Int)}

theorem of_sublist (h : SourcesInOrder sources) (hsublist : front.Sublist sources) :
    SourcesInOrder front :=
  (Regroups.of_sublist hsublist).inOrder h

/-- The first lines have the least source. -/
theorem isLeast_append (h : SourcesInOrder (front ++ rest))
    (hleast : IsLeast {n | n ∈ front.flatten} n) : IsLeast {n | n ∈ (front ++ rest).flatten} n := by
  simp only [flatten_append, mem_append]
  refine ⟨.inl hleast.1, ?_⟩
  rintro m (hm | hm)
  · exact hleast.2 hm
  · exact (append_iff.1 h).2.2 n hleast.1 m hm

/-- The last lines have the greatest source. -/
theorem isGreatest_append (h : SourcesInOrder (front ++ rest))
    (hgreatest : IsGreatest {n | n ∈ rest.flatten} n) :
    IsGreatest {n | n ∈ (front ++ rest).flatten} n := by
  simp only [flatten_append, mem_append]
  refine ⟨.inr hgreatest.1, ?_⟩
  rintro m (hm | hm)
  · exact (append_iff.1 h).2.2 m hm n hgreatest.1
  · exact hgreatest.2 hm

end Pcode.SourcesInOrder

namespace Display

open Pcode (Block Line SourcesInOrder sourcesOf)

/-! ### The place of a span -/

section Sources

variable (hsources : ∀ numbers ∈ sources, numbers ≠ [])
  (hne : sources ≠ [])
include hsources hne

theorem mergeSources_ne_nil : Pcode.mergeSources sources ≠ [] := by
  obtain ⟨numbers, hnumbers⟩ := exists_mem_of_ne_nil sources hne
  exact Pcode.mergeSources_ne_nil hnumbers (hsources numbers hnumbers)

theorem exists_leastSource :
    ∃ line, leastSource sources = .ok line ∧ IsLeast {n | n ∈ sources.flatten} line := by
  have hsorted := Pcode.pairwise_mergeSources sources
  simp only [← Pcode.mem_mergeSources]
  unfold leastSource
  cases hmerged : Pcode.mergeSources sources with
  | nil => exact absurd hmerged (mergeSources_ne_nil hsources hne)
  | cons line others =>
    rw [hmerged] at hsorted
    refine ⟨line, rfl, mem_cons_self, ?_⟩
    intro n hn
    rcases mem_cons.1 hn with rfl | hn
    · exact Int.le_refl _
    · exact Int.le_of_lt (rel_of_pairwise_cons hsorted hn)

theorem exists_greatestSource :
    ∃ line, greatestSource sources = .ok line ∧ IsGreatest {n | n ∈ sources.flatten} line := by
  have hsorted := Pcode.pairwise_mergeSources sources
  simp only [← Pcode.mem_mergeSources]
  unfold greatestSource
  rcases eq_nil_or_concat (Pcode.mergeSources sources) with hmerged | ⟨others, line, hmerged⟩
  · exact absurd hmerged (mergeSources_ne_nil hsources hne)
  · rw [concat_eq_append] at hmerged
    rw [hmerged] at hsorted ⊢
    rw [getLast?_concat]
    refine ⟨line, rfl, mem_append_right _ mem_cons_self, ?_⟩
    intro n hn
    rcases mem_append.1 hn with hn | hn
    · exact Int.le_of_lt ((pairwise_append.1 hsorted).2.2 n hn line mem_cons_self)
    · exact Int.le_of_eq (mem_singleton.1 hn)

theorem exists_isHull : ∃ range : Span, range.IsHull sources.flatten := by
  obtain ⟨least, -, hleast⟩ := exists_leastSource hsources hne
  obtain ⟨greatest, -, hgreatest⟩ := exists_greatestSource hsources hne
  exact ⟨⟨least, greatest + 1⟩, hleast, by rwa [Int.add_sub_cancel]⟩

end Sources

/-- The raw lines that a span of lines stands for, by the sources of the lines. -/
inductive HasPlace (sources : List (List Int)) : Span → Span → Prop where
  | covered {span place : Span} (hlt : span.start < span.stop)
      (hull : place.IsHull (span.slice sources).flatten) : HasPlace sources span place
  | before {span : Span} {line : Int} (hanchor : span.start = span.stop)
      (hleast : IsLeast {n | n ∈ ((sources.drop span.start.toNat).take 1).flatten} line) :
      HasPlace sources span ⟨line, line⟩
  | after {span : Span} {line : Int} (hend : span.start = sources.length)
      (hgreatest : IsGreatest {n | n ∈ (sources.drop (sources.length - 1)).flatten} line) :
      HasPlace sources span ⟨line + 1, line + 1⟩

/-- A span of lines that have sources is taken to raw lines. -/
theorem exists_rawSpan (hsources : ∀ numbers ∈ sources, numbers ≠ [])
    (hne : sources ≠ []) (hspan : span.FitsIn sources.length) :
    ∃ place, rawSpan sources span = .ok place ∧ HasPlace sources span place := by
  obtain ⟨hstart, hle, hstop⟩ := hspan
  have hempty : sources.isEmpty = false := isEmpty_eq_false_iff.2 hne
  have hlength : 0 < sources.length := length_pos_iff.2 hne
  have hvalid : ¬ (span.stop < span.start ∨ span.start < 0 ∨ sources.length < span.stop) := by
    omega
  have hpart : ∀ start count : Nat, start < sources.length → 0 < count →
      (∀ numbers ∈ (sources.drop start).take count, numbers ≠ []) ∧
        (sources.drop start).take count ≠ [] := by
    intro start count hlt hpos
    refine ⟨fun numbers hnumbers => ?_, ?_⟩
    · exact hsources numbers (mem_of_mem_drop (mem_of_mem_take hnumbers))
    · simp only [ne_eq, take_eq_nil_iff, drop_eq_nil_iff]
      omega
  unfold rawSpan
  simp only [hempty, if_neg hvalid, Bool.false_eq_true, if_false, bind, Except.bind, pure,
    Except.pure]
  by_cases hanchor : span.start = span.stop
  · rw [if_pos hanchor]
    by_cases hend : span.start.toNat = sources.length
    · obtain ⟨hall, hsome⟩ := hpart (sources.length - 1) sources.length (by omega) hlength
      rw [take_of_length_le (by simp)] at hall hsome
      obtain ⟨line, hline, hgreatest⟩ := exists_greatestSource hall hsome
      rw [if_pos hend, hend, hline]
      exact ⟨_, rfl, .after (by omega) hgreatest⟩
    · obtain ⟨hall, hsome⟩ := hpart span.start.toNat 1 (by omega) Nat.one_pos
      obtain ⟨line, hline, hleast⟩ := exists_leastSource hall hsome
      rw [if_neg hend, hline]
      exact ⟨_, rfl, .before hanchor hleast⟩
  · obtain ⟨hall, hsome⟩ :=
      hpart span.start.toNat (span.stop - span.start).toNat (by omega) (by omega)
    obtain ⟨first, hfirst, hleast⟩ := exists_leastSource hall hsome
    obtain ⟨last, hlast, hgreatest⟩ := exists_greatestSource hall hsome
    rw [if_neg hanchor, hfirst, hlast]
    exact ⟨_, rfl, .covered (by omega) ⟨hleast, by rwa [Int.add_sub_cancel]⟩⟩

namespace HasPlace

variable {place : Span}

theorem isWithin (h : HasPlace sources span place) (hrange : range.IsHull sources.flatten) :
    place.IsWithin range := by
  have hpart : ∀ {front : List (List Int)} {n : Int}, front.Sublist sources → n ∈ front.flatten →
      range.start ≤ n ∧ n < range.stop :=
    fun hsublist hn => hrange.mem_bounds (hsublist.flatten.subset hn)
  cases h with
  | covered _ hull =>
    refine hull.isWithin hrange ?_
    exact ((take_sublist _ _).trans (drop_sublist _ _)).flatten.subset
  | before _ hleast =>
    have hbounds := hpart ((take_sublist _ _).trans (drop_sublist _ _)) hleast.1
    exact ⟨hbounds.1, Int.le_refl _, by dsimp only; omega⟩
  | after _ hgreatest =>
    have hbounds := hpart (drop_sublist _ _) hgreatest.1
    exact ⟨by dsimp only; omega, Int.le_refl _, by dsimp only; omega⟩

theorem isHull (h : HasPlace sources span place) (hspan : span.FitsIn sources.length)
    (hlt : span.start < span.stop) : place.IsHull (span.slice sources).flatten := by
  have hstop := hspan.2.2
  cases h with
  | covered _ hull => exact hull
  | before hanchor => omega
  | after hend => omega

section Order

variable (horder : SourcesInOrder sources)
include horder

/-- Where the place of a span starts: at the least source of all lines from its own on. -/
theorem isLeast_start (h : HasPlace sources span place) (hlt : span.start < sources.length) :
    IsLeast {n | n ∈ (sources.drop span.start.toNat).flatten} place.start := by
  have hrest := horder.of_sublist (drop_sublist span.start.toNat sources)
  have hfront : ∀ {count : Nat} {n : Int},
      IsLeast {n | n ∈ ((sources.drop span.start.toNat).take count).flatten} n →
        IsLeast {n | n ∈ (sources.drop span.start.toNat).flatten} n := by
    intro count n hleast
    rw [← take_append_drop count (sources.drop span.start.toNat)] at hrest ⊢
    exact hrest.isLeast_append hleast
  cases h with
  | covered _ hull => exact hfront hull.1
  | before _ hleast => exact hfront hleast
  | after hend => omega

theorem isGreatest_pred_start (h : HasPlace sources span place)
    (hend : span.start = sources.length) (hspan : span.FitsIn sources.length) :
    IsGreatest {n | n ∈ sources.flatten} (place.start - 1) := by
  obtain ⟨hstart, hle, hstop⟩ := hspan
  cases h with
  | covered hlt => omega
  | before _ hleast =>
    have hdrop : sources.drop span.start.toNat = [] := drop_eq_nil_of_le (by omega)
    rw [hdrop] at hleast
    exact absurd hleast.1 not_mem_nil
  | @after line _ hgreatest =>
    rw [← take_append_drop (sources.length - 1) sources] at horder
    have hall := horder.isGreatest_append hgreatest
    rwa [take_append_drop, ← Int.add_sub_cancel line 1] at hall

/-- Where the place of a span that covers lines stops: behind the greatest source of all lines up
to its last. -/
theorem isGreatest_stop (h : HasPlace sources span place) (hspan : span.FitsIn sources.length)
    (hlt : span.start < span.stop) :
    IsGreatest {n | n ∈ (sources.take span.stop.toNat).flatten} (place.stop - 1) := by
  have hsplit : sources.take span.stop.toNat =
      sources.take span.start.toNat ++ span.slice sources := by
    have hnat : span.stop.toNat = span.start.toNat + (span.stop - span.start).toNat := by
      have := hspan.1
      omega
    rw [hnat, take_add]
    rfl
  have hfront := horder.of_sublist (take_sublist span.stop.toNat sources)
  rw [hsplit] at hfront ⊢
  exact hfront.isGreatest_append (h.isHull hspan hlt).2

variable {span' place' : Span}

/-- Places start in the order of their spans. -/
theorem start_mono (h : HasPlace sources span place) (h' : HasPlace sources span' place')
    (hspan : span.FitsIn sources.length) (hspan' : span'.FitsIn sources.length)
    (hle : span.start ≤ span'.start) :
    place.start ≤ place'.start := by
  have hstart := hspan.1
  obtain ⟨hstart', hle', hstop'⟩ := hspan'
  by_cases hlt' : span'.start < sources.length
  · -- The later span starts among the lines from the earlier one on.
    have hleast := h.isLeast_start horder (by omega)
    have hleast' := h'.isLeast_start horder hlt'
    have hdrop := drop_sublist_drop_left sources
      (show span.start.toNat ≤ span'.start.toNat by omega)
    exact hleast'.mono hleast hdrop.flatten.subset
  · have hgreatest' := h'.isGreatest_pred_start horder (by omega) ⟨hstart', hle', hstop'⟩
    by_cases hlt : span.start < sources.length
    · have hmem := (drop_sublist _ _).flatten.subset (h.isLeast_start horder hlt).1
      have := hgreatest'.2 hmem
      omega
    · have hgreatest := h.isGreatest_pred_start horder (by omega) hspan
      have := hgreatest.unique hgreatest'
      omega

theorem stop_mono (h : HasPlace sources span place) (h' : HasPlace sources span' place')
    (hspan : span.FitsIn sources.length) (hspan' : span'.FitsIn sources.length)
    (hlt : span.start < span.stop) (hlt' : span'.start < span'.stop)
    (hle : span.stop ≤ span'.stop) :
    place.stop ≤ place'.stop := by
  have hgreatest := h.isGreatest_stop horder hspan hlt
  have hgreatest' := h'.isGreatest_stop horder hspan' hlt'
  have htake := take_sublist_take_left (l := sources)
    (show span.stop.toNat ≤ span'.stop.toNat by omega)
  have := hgreatest.mono hgreatest' htake.flatten.subset
  omega

end Order

end HasPlace

/-! ### Normal forms -/

/-- Every span of lines with these sources has a place among the raw lines of a range, which is
the hull of what it covers, and the places follow each other as the spans do. -/
structure KeepsPlaces (sources : List (List Int)) (range : Span) : Prop where
  place : ∀ span : Span, span.FitsIn sources.length → ∃ place : Span,
    rawSpan sources span = .ok place ∧ place.IsWithin range ∧
      (∀ n ∈ (span.slice sources).flatten, place.start ≤ n ∧ n < place.stop) ∧
      (span.start < span.stop → place.IsHull (span.slice sources).flatten)
  start_mono : ∀ span span' place place' : Span, span.FitsIn sources.length →
    span'.FitsIn sources.length → rawSpan sources span = .ok place →
    rawSpan sources span' = .ok place' → span.start ≤ span'.start → place.start ≤ place'.start
  stop_mono : ∀ span span' place place' : Span, span.FitsIn sources.length →
    span'.FitsIn sources.length → rawSpan sources span = .ok place →
    rawSpan sources span' = .ok place' → span.start < span.stop → span'.start < span'.stop →
    span.stop ≤ span'.stop → place.stop ≤ place'.stop

theorem slice_eq_nil {α : Type} (h : span.stop ≤ span.start) (xs : List α) :
    span.slice xs = [] := by
  have hcount : (span.stop - span.start).toNat = 0 := by omega
  rw [Span.slice, hcount, take_zero]

/-- Sources in order keep all places. -/
theorem keepsPlaces_of_inOrder
    (horder : SourcesInOrder sources) (hne : sources ≠ []) (hrange : range.IsHull sources.flatten) :
    KeepsPlaces sources range := by
  have hplace : ∀ span place : Span, span.FitsIn sources.length →
      rawSpan sources span = .ok place → HasPlace sources span place := by
    intro span place hspan hraw
    obtain ⟨found, hfound, hplace⟩ := exists_rawSpan horder.nonempty hne hspan
    cases hraw.symm.trans hfound
    exact hplace
  refine ⟨fun span hspan => ?_, ?_, ?_⟩
  · obtain ⟨place, hraw, hplace⟩ := exists_rawSpan horder.nonempty hne hspan
    refine ⟨place, hraw, hplace.isWithin hrange, fun n hn => ?_, hplace.isHull hspan⟩
    by_cases hlt : span.start < span.stop
    · exact (hplace.isHull hspan hlt).mem_bounds hn
    · rw [slice_eq_nil (by omega)] at hn
      exact absurd hn not_mem_nil
  · intro span span' place place' hspan hspan' hraw hraw' hle
    exact (hplace span place hspan hraw).start_mono horder (hplace span' place' hspan' hraw') hspan
      hspan' hle
  · intro span span' place place' hspan hspan' hraw hraw' hlt hlt' hle
    exact (hplace span place hspan hraw).stop_mono horder (hplace span' place' hspan' hraw') hspan
      hspan' hlt hlt' hle

/-- A block of a text in normal form: its lines stand for increasing source lines of the block, no
line goes back behind an earlier one, and every span of it keeps its place among them. -/
theorem keepsPlaces_normalizeBlock {text : String} {lines : List Line} {blocks : List Block}
    {block normal : Block} (hlines : Pcode.readText text = .ok lines)
    (hblocks : Pcode.splitBlocks lines = .ok blocks) (hblock : block ∈ blocks)
    (hnormal : Pcode.normalizeBlock block = .ok normal) (hne : normal.lines ≠ []) :
    SourcesInOrder (sourcesOf normal.lines) ∧
      (∀ line ∈ normal.lines, line.sources ⊆ (sourcesOf block.lines).flatten) ∧
      ∃ range whole : Span, range.IsHull (sourcesOf normal.lines).flatten ∧
        whole.IsHull (sourcesOf block.lines).flatten ∧ range.IsWithin whole ∧
        KeepsPlaces (sourcesOf normal.lines) range := by
  obtain ⟨hraw, -⟩ := Pcode.inOrder_of_mem_splitBlocks hlines hblocks hblock
  obtain ⟨horder, hsubset⟩ := Pcode.inOrder_normalizeBlock hlines hblocks hblock hnormal
  have hsources : sourcesOf normal.lines ≠ [] := by simpa [sourcesOf] using hne
  obtain ⟨range, hrange⟩ := exists_isHull horder.nonempty hsources
  have hrawNe : sourcesOf block.lines ≠ [] := by
    intro heq
    rw [heq] at hsubset
    exact absurd (hsubset hrange.1.1) List.not_mem_nil
  obtain ⟨whole, hwhole⟩ := exists_isHull hraw.nonempty hrawNe
  refine ⟨horder, fun line hline n hn => hsubset ?_, range, whole, hrange, hwhole,
    hrange.isWithin hwhole hsubset, keepsPlaces_of_inOrder horder hsources hrange⟩
  exact List.mem_flatten.2 ⟨line.sources, List.mem_map_of_mem hline, hn⟩

/-- Two strings that are joined, and a register that is stepped and returned. -/
def joinedStepText : String :=
  "Push \"a\", \"b\"\nStringAdd\nPush register1, 1\nAdd2\nReturn\n"

def joinedStepLines : List Line :=
  [⟨[0], none, .instruction "Push" [.ofString "a", .ofString "b"]⟩,
    ⟨[1], none, .instruction "StringAdd" []⟩,
    ⟨[2], none, .instruction "Push" [.ofSymbol "register1", .ofNumeral "1"]⟩,
    ⟨[3], none, .instruction "Add2" []⟩, ⟨[4], none, .instruction "Return" []⟩]

def joinedStepNormal (joined step : List Int) : List Line :=
  [⟨joined, none, .instruction "Push" [.ofString "ab"]⟩,
    ⟨[2], none, .instruction "Push" [.ofSymbol "register1"]⟩,
    ⟨step, none, .instruction "Increment" []⟩, ⟨[4], none, .instruction "Return" []⟩]

theorem readText_joinedStep : Pcode.readText joinedStepText = .ok joinedStepLines :=
  eq_ok_of_toOption (by decide +kernel)

theorem splitBlocks_joinedStep :
    Pcode.splitBlocks joinedStepLines = .ok [⟨"__toplevel", joinedStepLines⟩] :=
  eq_ok_of_toOption (by decide +kernel)

theorem normalizeBlock_joinedStep : Pcode.normalizeBlock ⟨"__toplevel", joinedStepLines⟩ =
    .ok ⟨"__toplevel", joinedStepNormal [0, 1] [2, 3]⟩ := by
  have hjoined : Pcode.mergeSources [[0], [0], [1]] = [0, 1] :=
    Pcode.mergeSources_of_pairwise (by decide)
  have hstep : Pcode.mergeSources [[2], [3]] = [2, 3] :=
    Pcode.mergeSources_of_pairwise (by decide)
  rw [← hjoined, ← hstep]
  rfl

theorem keepsPlaces_joinedStep :
    Pcode.readText joinedStepText = .ok joinedStepLines ∧
      Pcode.splitBlocks joinedStepLines = .ok [⟨"__toplevel", joinedStepLines⟩] ∧
      Pcode.normalizeBlock ⟨"__toplevel", joinedStepLines⟩ =
        .ok ⟨"__toplevel", joinedStepNormal [0, 1] [2, 3]⟩ ∧
      SourcesInOrder (sourcesOf (joinedStepNormal [0, 1] [2, 3])) ∧
      rawSpan (sourcesOf (joinedStepNormal [0, 1] [2, 3])) ⟨1, 3⟩ = .ok ⟨2, 4⟩ ∧
      ∃ range whole : Span, range.IsHull (sourcesOf (joinedStepNormal [0, 1] [2, 3])).flatten ∧
        whole.IsHull (sourcesOf joinedStepLines).flatten ∧ range.IsWithin whole ∧
        KeepsPlaces (sourcesOf (joinedStepNormal [0, 1] [2, 3])) range := by
  have hspan : rawSpan (sourcesOf (joinedStepNormal [0, 1] [2, 3])) ⟨1, 3⟩ = .ok ⟨2, 4⟩ := by
    have hcovered : Pcode.mergeSources [[2], [2, 3]] = [2, 3] :=
      Pcode.mergeSources_of_pairwise (by decide)
    change (leastSource [[2], [2, 3]] >>= fun first =>
      greatestSource [[2], [2, 3]] >>= fun last => pure (Span.mk first (last + 1))) = _
    rw [leastSource, greatestSource, hcovered]
    rfl
  obtain ⟨horder, -, hplaces⟩ := keepsPlaces_normalizeBlock readText_joinedStep
    splitBlocks_joinedStep List.mem_cons_self normalizeBlock_joinedStep (List.cons_ne_nil _ _)
  exact ⟨readText_joinedStep, splitBlocks_joinedStep, normalizeBlock_joinedStep, horder, hspan,
    hplaces⟩

end Display

end MovieDiff
