import MovieDiff.Display.BlockView
import MovieDiff.Proofs.Display.Replacement
import MovieDiff.Proofs.Layout.Unified

/-!
The unified diff of a block as a patch. Its hunks name lines of the two texts truly, in order and
apart. Applied to the left text they give the right one just when trimming the edges has taken no
line away: where it has, a run of equal lines beside an insertion or a deletion makes the two
sides of a hunk reach unequally far.
-/
namespace MovieDiff

open List
open Hunk (ofRange)

namespace Layout.UnifiedHunk

/-- The place of the first line in the left text. The header counts from one, or is zero for no
lines. -/
def leftIndex (hunk : UnifiedHunk) : Nat :=
  (hunk.leftStart - 1).toNat

def rightIndex (hunk : UnifiedHunk) : Nat :=
  (hunk.rightStart - 1).toNat

/-- The lines of the hunk are those of the texts that its header names. -/
structure Fits (left right : List String) (hunk : UnifiedHunk) : Prop where
  left_le : hunk.leftIndex + hunk.leftLength ≤ left.length
  right_le : hunk.rightIndex + hunk.rightLength ≤ right.length
  before_eq : hunk.before = slice left hunk.leftIndex (hunk.leftIndex + hunk.leftLength)
  after_eq : hunk.after = slice right hunk.rightIndex (hunk.rightIndex + hunk.rightLength)

def Precedes (hunk next : UnifiedHunk) : Prop :=
  hunk.leftIndex + hunk.leftLength ≤ next.leftIndex ∧
    hunk.rightIndex + hunk.rightLength ≤ next.rightIndex

/-- The text from a place on, with the lines of each hunk replaced by its context and additions. -/
def patchFrom (lines : List String) (i : Nat) : List UnifiedHunk → List String
  | [] => lines.drop i
  | hunk :: rest =>
    slice lines i hunk.leftIndex ++ (hunk.after ++
      patchFrom lines (hunk.leftIndex + hunk.leftLength) rest)

end Layout.UnifiedHunk

namespace Display

open Layout (UnifiedHunk)

def unifiedHunks (pairs : List HunkPair) : List UnifiedHunk :=
  pairs.filterMap fun pair =>
    let marked := annotate (pair.left.getD []) (pair.right.getD [])
    UnifiedHunk.ofAnnotated? marked.1 marked.2

/-- A range of lines that is not empty, or the empty range at the start. -/
def IsRange (lines : List String) (lo hi : Nat) : Prop :=
  hi ≤ lines.length ∧ (lo < hi ∨ lo = 0 ∧ hi = 0)

section Ranges

variable {lines : List String} {changed : Nat → Bool} {lo hi : Nat}

/-- The number in the header tells where the range starts. -/
theorem startNumber_ofRange (h : IsRange lines lo hi) :
    (Layout.startNumber (ofRange lines changed lo hi) - 1).toNat = lo := by
  obtain ⟨hhi, hlt | ⟨rfl, rfl⟩⟩ := h
  · rw [Hunk.ofRange_cons hlt hhi]
    change ((lo : Int) + 1 - 1).toNat = lo
    omega
  · rw [Hunk.ofRange_self]
    rfl

theorem ofRange_ne_nil (hlt : lo < hi) (hhi : hi ≤ lines.length) :
    ofRange lines changed lo hi ≠ [] := by
  rw [Hunk.ofRange_cons hlt hhi]
  exact cons_ne_nil _ _

/-- A range can be read off its hunk. -/
theorem eq_of_ofRange_eq {lo' hi' : Nat} (h : IsRange lines lo hi) (h' : IsRange lines lo' hi')
    (heq : ofRange lines changed lo hi = ofRange lines changed lo' hi') : lo = lo' ∧ hi = hi' := by
  have hstart : (Layout.startNumber (ofRange lines changed lo hi) - 1).toNat = lo :=
    startNumber_ofRange h
  rw [heq, startNumber_ofRange h'] at hstart
  have hlength := congrArg List.length heq
  rw [Hunk.length_ofRange h.1, Hunk.length_ofRange h'.1] at hlength
  obtain ⟨-, hcases⟩ := h
  obtain ⟨-, hcases'⟩ := h'
  omega

end Ranges

section Shown

variable {left right : List String} {g : Group} {w : Window}

theorem Group.InText.isRange (h : g.InText left right) : IsRange left g.leftFrom (g.leftTo left) := by
  refine ⟨g.leftTo_le left, ?_⟩
  rcases Nat.eq_zero_or_pos left.length with hempty | hpos
  · obtain ⟨hlast, hfirst, -, -, -⟩ := h.bounds g.last g.last_mem
    have hle := hlast.left_le
    have hstop := h.left_le
    unfold Group.leftFrom Group.leftTo
    omega
  · exact .inl (h.leftFrom_lt hpos)

theorem Group.Trims.isRange (hg : g.InText left right) (h : g.Trims left right w) :
    IsRange left w.leftFrom w.leftTo ∧ IsRange right w.rightFrom w.rightTo ∧
      (w.leftFrom < w.leftTo ∨ w.rightFrom < w.rightTo) := by
  rcases h with rfl | ⟨start, stop, start', stop', hedges, hedges', hlead, htrail⟩
  · refine ⟨hg.isRange, hg.swap.isRange, ?_⟩
    obtain ⟨hle, hle', hnonempty⟩ := (hg.bounds g.last g.last_mem).1
    have hleft := hg.left_le
    have hright := hg.right_le
    rcases hnonempty with hlt | hlt
    · exact .inl (hg.leftFrom_lt (by omega))
    · exact .inr (hg.rightFrom_lt (by omega))
  · obtain ⟨⟨-, hx⟩, -, hy⟩ := hlead.bounds hedges.edges.lo_le hedges'.edges.lo_le
    obtain ⟨⟨hx', hxhi⟩, hy', hyhi⟩ := htrail.bounds hedges.stop_le hedges'.stop_le
    have hlt := hedges.lt
    have hlt' := hedges'.lt
    have hleft := g.leftTo_le left
    have hright := g.rightTo_le right
    exact ⟨⟨by omega, by omega⟩, ⟨by omega, by omega⟩, by omega⟩

structure Window.ShownBy (left right : List String) (w : Window) (hunk : UnifiedHunk) : Prop where
  leftIndex_eq : hunk.leftIndex = w.leftFrom
  left_stop : hunk.leftIndex + hunk.leftLength = w.leftTo
  left_le : w.leftTo ≤ left.length
  rightIndex_eq : hunk.rightIndex = w.rightFrom
  right_stop : hunk.rightIndex + hunk.rightLength = w.rightTo
  right_le : w.rightTo ≤ right.length
  before_eq : hunk.before = slice left w.leftFrom w.leftTo
  after_eq : hunk.after = slice right w.rightFrom w.rightTo

theorem Window.ShownBy.fits {hunk : UnifiedHunk} (h : w.ShownBy left right hunk) :
    hunk.Fits left right := by
  refine ⟨?_, ?_, ?_, ?_⟩
  · rw [h.left_stop]
    exact h.left_le
  · rw [h.right_stop]
    exact h.right_le
  · rw [h.before_eq, h.left_stop, h.leftIndex_eq]
  · rw [h.after_eq, h.right_stop, h.rightIndex_eq]

theorem exists_shownBy (hg : g.InText left right) (htrims : g.Trims left right w) :
    ∃ hunk, unifiedHunks [g.hunksIn left right w] = [hunk] ∧ w.ShownBy left right hunk := by
  obtain ⟨hleft, hright, hnonempty⟩ := htrims.isRange hg
  have hne : ofRange left g.changesLeft w.leftFrom w.leftTo ≠ [] ∨
      ofRange right g.changesRight w.rightFrom w.rightTo ≠ [] := by
    rcases hnonempty with hlt | hlt
    · exact .inl (ofRange_ne_nil hlt hleft.1)
    · exact .inr (ofRange_ne_nil hlt hright.1)
  obtain ⟨hunk, hsome, hstart, hlength, hstart', hlength', hbefore, hafter⟩ :=
    Layout.ofAnnotated?_annotate _ _ hne
  have hindex : hunk.leftIndex = w.leftFrom := by
    rw [UnifiedHunk.leftIndex, hstart, startNumber_ofRange hleft]
  have hindex' : hunk.rightIndex = w.rightFrom := by
    rw [UnifiedHunk.rightIndex, hstart', startNumber_ofRange hright]
  rw [Hunk.length_ofRange hleft.1] at hlength
  rw [Hunk.length_ofRange hright.1] at hlength'
  rw [Hunk.texts_ofRange] at hbefore hafter
  obtain ⟨hle, hcases⟩ := hleft
  obtain ⟨hle', hcases'⟩ := hright
  refine ⟨hunk, ?_, hindex, by omega, hle, hindex', by omega, hle', hbefore, hafter⟩
  simp only [unifiedHunks, filterMap_cons, filterMap_nil, Group.hunksIn,
    Option.getD_some, hsome]

theorem unifiedHunks_cons (pair : HunkPair) (pairs : List HunkPair) :
    unifiedHunks (pair :: pairs) = unifiedHunks [pair] ++ unifiedHunks pairs := by
  unfold unifiedHunks
  rw [← filterMap_append, singleton_append]

variable {gs : List Group} {ws : List Window} {i j : Nat}

/-- Each window is shown by its own hunk. -/
theorem forall₂_shownBy (hspaced : Spaced left right i j gs)
    (hws : Forall₂ (Group.Trims left right) gs ws) :
    Forall₂ (Window.ShownBy left right) ws
      (unifiedHunks (List.zipWith (Group.hunksIn left right) gs ws)) := by
  induction hws generalizing i j with
  | nil => exact .nil
  | @cons g w gs ws htrims hws ih =>
    obtain ⟨hunk, heq, hshown⟩ := exists_shownBy hspaced.2.1 htrims
    rw [zipWith_cons_cons, unifiedHunks_cons, heq]
    exact .cons hshown (ih hspaced.2.2)

variable {hunks : List UnifiedHunk}

/-- Patching replaces the windows. -/
theorem patchFrom_eq_replaceFrom (h : Forall₂ (Window.ShownBy left right) ws hunks) :
    UnifiedHunk.patchFrom left i hunks = replaceFrom left right i ws := by
  induction h generalizing i with
  | nil => rfl
  | cons hshown _ ih =>
    rw [UnifiedHunk.patchFrom, replaceFrom, hshown.left_stop, hshown.leftIndex_eq, hshown.after_eq,
      ih]

theorem fits_of_forall₂ (h : Forall₂ (Window.ShownBy left right) ws hunks) :
    ∀ hunk ∈ hunks, hunk.Fits left right := by
  induction h with
  | nil =>
    intro hunk hhunk
    cases hhunk
  | cons hshown _ ih => exact forall_mem_cons.2 ⟨hshown.fits, ih⟩

theorem isChain_precedes (h : Forall₂ (Window.ShownBy left right) ws hunks)
    (hws : ws.IsChain fun w w' => w.leftTo ≤ w'.leftFrom ∧ w.rightTo ≤ w'.rightFrom) :
    hunks.IsChain UnifiedHunk.Precedes := by
  induction h with
  | nil => exact .nil
  | @cons w hunk ws hunks hshown hrest ih =>
    cases hrest with
    | nil => exact .singleton hunk
    | cons hnext hrest =>
      rw [isChain_cons_cons] at hws
      refine .cons_cons ?_ (ih hws.2)
      rw [UnifiedHunk.Precedes, hshown.left_stop, hshown.right_stop, hnext.leftIndex_eq,
        hnext.rightIndex_eq]
      exact hws.1

/-- Hunks keep all lines just when the window does. -/
theorem hunksIn_eq_toPair_iff (hg : g.InText left right) (htrims : g.Trims left right w) :
    g.hunksIn left right w = (g.hunks left right).toPair ↔ w = g.window left right := by
  refine ⟨fun h => ?_, fun h => by rw [h]; rfl⟩
  obtain ⟨hleft, hright, -⟩ := htrims.isRange hg
  rw [Group.hunksIn, FullPair.toPair, HunkPair.mk.injEq, Option.some.injEq, Option.some.injEq] at h
  obtain ⟨hfrom, hto⟩ := eq_of_ofRange_eq hleft hg.isRange h.1
  obtain ⟨hfrom', hto'⟩ := eq_of_ofRange_eq hright hg.swap.isRange h.2
  obtain ⟨x, x', y, y'⟩ := w
  simp only at hfrom hto hfrom' hto'
  rw [hfrom, hto, hfrom', hto']
  rfl

/-- Trimming leaves a window of each group. -/
theorem exists_windows (hspaced : Spaced left right i j gs) :
    ∃ ws, Forall₂ (Group.Trims left right) gs ws ∧
      (gs.map fun g => trimPair (g.hunks left right).toPair) =
        List.zipWith (Group.hunksIn left right) gs ws ∧
      (ws = gs.map (Group.window left right) ↔
        ∀ g ∈ gs, trimPair (g.hunks left right).toPair = (g.hunks left right).toPair) := by
  induction gs generalizing i j with
  | nil => exact ⟨[], .nil, rfl, by simp⟩
  | cons g gs ih =>
    obtain ⟨-, hg, hrest⟩ := hspaced
    obtain ⟨w, htrims, heq⟩ := trimPair_hunks hg
    obtain ⟨ws, hws, heqs, hwhole⟩ := ih hrest
    refine ⟨w :: ws, .cons htrims hws, ?_, ?_⟩
    · rw [map_cons, zipWith_cons_cons, heq, heqs]
    · rw [map_cons, List.cons.injEq, hwhole, ← hunksIn_eq_toPair_iff hg htrims, ← heq,
        forall_mem_cons]

end Shown

/-- The hunks printed for the differences of two texts name their lines truly, in order and apart.
They turn the left text into the right one just when trimming the edges leaves every pair of hunks
as it is. -/
theorem patchFrom_unifiedHunks_eq_iff (left right : List String) :
    ∃ merged, untrimmed left right (differenceSpans left right) = .ok merged ∧
      assemble left right (differenceSpans left right) = .ok (merged.map trimPair) ∧
      (∀ view : BlockView, unifiedView { view with pairs := merged.map trimPair } =
        Layout.printUnified (blockPath? view.script.left? view.names.left?)
          (blockPath? view.script.right? view.names.right?)
          (unifiedHunks (merged.map trimPair))) ∧
      (unifiedHunks (merged.map trimPair)).length = merged.length ∧
      (∀ hunk ∈ unifiedHunks (merged.map trimPair), hunk.Fits left right) ∧
      (unifiedHunks (merged.map trimPair)).IsChain UnifiedHunk.Precedes ∧
      (UnifiedHunk.patchFrom left 0 (unifiedHunks (merged.map trimPair)) = right ↔
        ∀ pair ∈ merged, trimPair pair = pair) := by
  have hspaced := spaced_groups_differences left right
  have huntrimmed := untrimmed_differenceSpans left right
  obtain ⟨ws, hws, heq, hwhole⟩ := exists_windows hspaced
  have hshown := forall₂_shownBy hspaced hws
  have hpairs : ((groups (differences left right)).map fun g => (g.hunks left right).toPair).map
      trimPair = List.zipWith (Group.hunksIn left right) (groups (differences left right)) ws := by
    rw [List.map_map]
    exact heq
  refine ⟨_, huntrimmed, ?_, fun view => ?_, ?_, ?_, ?_, ?_⟩
  · rw [assemble_eq_map_untrimmed, huntrimmed]
    rfl
  · rw [unifiedView, Layout.unifiedLines_eq_printUnified, List.filterMap_map]
    rfl
  · rw [hpairs, ← hshown.length_eq, ← hws.length_eq, List.length_map]
  · rw [hpairs]
    exact fits_of_forall₂ hshown
  · rw [hpairs]
    exact isChain_precedes hshown (hspaced.isChain_windows hws)
  · have hregions : ∀ g ∈ groups (differences left right), ∀ r ∈ g.regions,
        r ∈ differences left right := by
      intro g hg r hr
      rw [← flatMap_regions_groups (differences left right)]
      exact List.mem_flatMap.2 ⟨g, hg, hr⟩
    have hstart : Match.Divides (Match.all left right) 0 0 :=
      fun _ _ => .inr ⟨Nat.zero_le _, Nat.zero_le _⟩
    rw [hpairs, patchFrom_eq_replaceFrom hshown, List.forall_mem_map, ← hwhole,
      ← replaceFrom_eq_drop_iff hspaced hws hregions hstart, List.drop_zero]

/-- Trimming drops the first of two equal lines from the left hunk but not from the right one, and
the patch gives a text with a line too many. -/
theorem patchFrom_repeated_line :
    (assemble ["a", "a", "D"] ["a", "I", "a"]
      (differenceSpans ["a", "a", "D"] ["a", "I", "a"])).toOption.map (fun pairs =>
        UnifiedHunk.patchFrom ["a", "a", "D"] 0 (unifiedHunks pairs)) =
      some ["a", "a", "I", "a"] := by
  decide +kernel

end Display

end MovieDiff
