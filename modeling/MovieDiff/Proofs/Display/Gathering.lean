import Mathlib.Data.List.Chain
import Mathlib.Data.List.Pairwise
import MovieDiff.Display.HunkPairs
import MovieDiff.Proofs.Hunk.Slice
import MovieDiff.Proofs.Runs

/-!
Merging pairs of hunks. The hunks are slices of two texts, and each pair starts no earlier than the
one before it on either side. Main statement: merging succeeds and gives slices again, one pair for
each run of pairs that touch on at least one side. They hold all lines of their run with their
marks, and a line more only where a gap on one side was filled; between any two of them lies at
least one line on both sides.
-/
namespace MovieDiff.Display

open List
open Hunk (Slice ofMarks)
open Merging (Run runsFrom)

section Hunks

variable {lines : List String} (s t : Slice lines)

theorem firstIndex_hunk : firstIndex s.hunk = s.lo := by
  rw [Slice.hunk, Hunk.ofMarks_cons s.lo_lt s.hi_le]
  rfl

theorem lastIndex_hunk : lastIndex s.hunk = (s.hi : Int) - 1 := by
  have hlt := s.lo_lt
  have hle := s.hi_le
  obtain ⟨n, hn⟩ : ∃ n, s.hi = n + 1 := ⟨s.hi - 1, by omega⟩
  rw [Slice.hunk, hn, Hunk.ofMarks_concat (by omega) (by omega), lastIndex, getLast?_concat]
  simp

variable {s t}

/-- Hunks meet where their slices do. -/
theorem meets_hunk (hlo : s.lo ≤ t.lo) : meets s.hunk t.hunk = decide (t.lo ≤ s.hi) := by
  have hlt := t.lo_lt
  rw [meets, firstIndex_hunk, firstIndex_hunk, lastIndex_hunk, lastIndex_hunk, ← Bool.decide_and]
  exact decide_eq_decide.2 (by omega)

theorem gapBetween_hunk (hapart : s.hi ≤ t.lo) :
    gapBetween lines s.hunk t.hunk = .ok (ofMarks lines (fun _ => .context) s.hi t.lo) := by
  have hlt := t.lo_lt
  have hle := t.hi_le
  have hmin : min lines.length (t.lo + 0) = t.lo := by omega
  have hcut := @Hunk.cut_eq_ofRange lines s.hi t.lo 0 hapart (by omega)
  rw [Nat.sub_zero, hmin] at hcut
  rw [gapBetween, lastIndex_hunk, firstIndex_hunk, Int.sub_add_cancel]
  change (do return Hunk.marked .context (← Hunk.cut lines ⟨s.hi, t.lo⟩ (0 : Nat))) = _
  rw [hcut]
  change Except.ok (Hunk.marked .context _) = _
  rw [Hunk.marked, Hunk.ofRange, map_map]
  rfl

end Hunks

section Steps

variable {left right : List String} {known next : FullPair} {pair : HunkPair} {rest : List HunkPair}

theorem mergePairsFrom_joined {joined : FullPair} (hfull : pair.full? = some next)
    (hjoin : join? left right known next = .ok (some joined)) :
    mergePairsFrom left right (some known) (pair :: rest) =
      mergePairsFrom left right (some joined) rest := by
  rw [mergePairsFrom.eq_def]
  simp only [hfull, hjoin]
  rfl

theorem mergePairsFrom_apart (hfull : pair.full? = some next)
    (hjoin : join? left right known next = .ok none) :
    mergePairsFrom left right (some known) (pair :: rest) =
      (mergePairsFrom left right (some next) rest).map fun pairs => known.toPair :: pairs := by
  rw [mergePairsFrom.eq_def]
  simp only [hfull, hjoin]
  cases mergePairsFrom left right (some next) rest <;> rfl

end Steps

structure SlicePair (a b : List String) where
  left : Slice a
  right : Slice b

namespace SlicePair

variable {a b : List String}

def hunks (p : SlicePair a b) : FullPair :=
  ⟨p.left.hunk, p.right.hunk⟩

def swap (p : SlicePair a b) : SlicePair b a :=
  ⟨p.right, p.left⟩

def join (p q : SlicePair a b) : SlicePair a b :=
  ⟨p.left.join q.left, p.right.join q.right⟩

/-- The second pair starts no earlier, on either side. -/
def StartsBefore (p q : SlicePair a b) : Prop :=
  p.left.lo ≤ q.left.lo ∧ p.right.lo ≤ q.right.lo

/-- On at least one side no line lies between the pairs. -/
def Touches (p q : SlicePair a b) : Prop :=
  q.left.lo ≤ p.left.hi ∨ q.right.lo ≤ p.right.hi

instance (p q : SlicePair a b) : Decidable (p.Touches q) :=
  inferInstanceAs (Decidable (_ ∨ _))

/-- A line or more lies between the pairs, on both sides. -/
def Precedes (p q : SlicePair a b) : Prop :=
  p.left.hi < q.left.lo ∧ p.right.hi < q.right.lo

/-- The pairs that are merged: those that touch, into their joint slices. -/
abbrev merging (a b : List String) : Merging (SlicePair a b) :=
  ⟨Touches, join, inferInstance⟩

@[simp] theorem left_join (p q : SlicePair a b) :
    ((merging a b).join p q).left = p.left.join q.left := rfl

theorem full?_hunks (p : SlicePair a b) : p.hunks.toPair.full? = some p.hunks := by
  unfold hunks FullPair.toPair Slice.hunk
  rw [Hunk.ofMarks_cons p.left.lo_lt p.left.hi_le, Hunk.ofMarks_cons p.right.lo_lt p.right.hi_le]
  rfl

/-- Pairs are joined just when they touch. A gap that is left on one side is filled. -/
theorem join?_hunks {p q : SlicePair a b} (h : p.StartsBefore q) :
    join? a b p.hunks q.hunks = .ok (if p.Touches q then some (p.join q).hunks else none) := by
  obtain ⟨hleft, hright⟩ := h
  have hmeets : meets p.hunks.left q.hunks.left = _ := meets_hunk hleft
  have hmeets' : meets p.hunks.right q.hunks.right = _ := meets_hunk hright
  have hlast : lastIndex p.hunks.left < firstIndex q.hunks.left ↔ p.left.hi ≤ q.left.lo := by
    rw [hunks, hunks, lastIndex_hunk, firstIndex_hunk]
    omega
  have hlast' : lastIndex p.hunks.right < firstIndex q.hunks.right ↔ p.right.hi ≤ q.right.lo := by
    rw [hunks, hunks, lastIndex_hunk, firstIndex_hunk]
    omega
  unfold join?
  rw [hmeets, hmeets']
  by_cases hl : q.left.lo ≤ p.left.hi
  · have htouches : p.Touches q := .inl hl
    rw [if_pos htouches]
    by_cases hr : q.right.lo ≤ p.right.hi
    · simp only [hl, hr, decide_true, Bool.and_self, if_true, hunks, bind, Except.bind,
        Slice.merge_hunks hleft hl, Slice.merge_hunks hright hr]
      rfl
    · have hgap : p.right.hi ≤ q.right.lo := by omega
      simp only [hl, hr, hlast', hgap, decide_true, decide_false, Bool.and_false, Bool.true_and,
        Bool.false_eq_true, if_true, if_false]
      simp only [hunks, bind, Except.bind, gapBetween_hunk hgap, Slice.merge_hunks hleft hl,
        Slice.merge_hunks_gap hgap]
      rfl
  · by_cases hr : q.right.lo ≤ p.right.hi
    · have hgap : p.left.hi ≤ q.left.lo := by omega
      have htouches : p.Touches q := .inr hr
      rw [if_pos htouches]
      simp only [hl, hr, hlast, hgap, decide_true, decide_false, Bool.false_and, Bool.true_and,
        Bool.false_eq_true, if_true, if_false]
      simp only [hunks, bind, Except.bind, gapBetween_hunk hgap, Slice.merge_hunks hright hr,
        Slice.merge_hunks_gap hgap]
      rfl
    · have hnot : ¬ p.Touches q := not_or.2 ⟨hl, hr⟩
      rw [if_neg hnot]
      simp only [hl, hr, decide_false, Bool.false_and, Bool.false_eq_true, if_false]
      rfl

/-! ### Runs of pairs -/

/-- The ends of a run on the left are those of some of its members. -/
theorem exists_left_ends (r : (merging a b).Run) :
    (∃ p ∈ r.members, p.left.lo = r.whole.left.lo) ∧
      ∃ p ∈ r.members, p.left.hi = r.whole.left.hi := by
  refine Run.whole_induction (motive := fun members whole =>
    (∃ p ∈ members, p.left.lo = whole.left.lo) ∧ ∃ p ∈ members, p.left.hi = whole.left.hi)
    ?_ ?_ r
  · exact fun p => ⟨⟨p, mem_singleton_self p, rfl⟩, p, mem_singleton_self p, rfl⟩
  · rintro r q - ⟨⟨p, hp, hlo⟩, p', hp', hhi⟩
    have hq : q ∈ r.members ++ [q] := mem_append_right _ (mem_singleton_self q)
    rw [left_join, Slice.lo_join, Slice.hi_join]
    constructor
    · by_cases h : r.whole.left.lo ≤ q.left.lo
      · exact ⟨p, mem_append_left _ hp, by omega⟩
      · exact ⟨q, hq, by omega⟩
    · by_cases h : q.left.hi ≤ r.whole.left.hi
      · exact ⟨p', mem_append_left _ hp', by omega⟩
      · exact ⟨q, hq, by omega⟩

/-- What a pair holds on the left of the pairs of a group: all of their lines, with a mark just
where one of them has a mark, and a line more only as context in a gap between the lines of some
first pairs and those of the next one, which touches them on the right. -/
structure GathersLeft (group : List (SlicePair a b)) (whole : SlicePair a b) : Prop where
  holds : ∀ p ∈ group, whole.left.lo ≤ p.left.lo ∧ p.left.hi ≤ whole.left.hi
  marked : ∀ i, whole.left.mark i ≠ .context ↔ ∃ p ∈ group, p.left.mark i ≠ .context
  filled : ∀ i, whole.left.Has i → (∀ p ∈ group, ¬ p.left.Has i) →
    whole.left.mark i = .context ∧ ∃ before next after, group = before ++ next :: after ∧
      (∀ p ∈ before, p.left.hi ≤ i) ∧ i < next.left.lo ∧ ∃ p ∈ before, next.right.lo ≤ p.right.hi

theorem gathersLeft_singleton (p : SlicePair a b) : GathersLeft [p] p := by
  refine ⟨?_, ?_, ?_⟩
  · intro q hq
    rw [mem_singleton.1 hq]
    exact ⟨Nat.le_refl _, Nat.le_refl _⟩
  · simp
  · intro i hi hnone
    exact absurd hi (hnone p (mem_singleton_self p))

/-- A pair that touches is gathered too. -/
theorem GathersLeft.join {group : List (SlicePair a b)} {whole q : SlicePair a b}
    (h : GathersLeft group whole) (hends : ∃ p ∈ group, p.right.hi = whole.right.hi)
    (hlo : whole.left.lo ≤ q.left.lo) (htouches : whole.Touches q) :
    GathersLeft (group ++ [q]) ((merging a b).join whole q) := by
  have hmarked : ∀ i, ((merging a b).join whole q).left.mark i ≠ .context ↔
      ∃ p ∈ group ++ [q], p.left.mark i ≠ .context := by
    intro i
    rw [left_join, Slice.mark_join_ne_context_iff, h.marked i]
    simp only [mem_append, mem_singleton, or_and_right, exists_or, exists_eq_left]
  refine ⟨?_, hmarked, ?_⟩
  · intro p hp
    rw [left_join, Slice.lo_join, Slice.hi_join]
    obtain hp | hp := mem_append.1 hp
    · have hholds := h.holds p hp
      omega
    · obtain rfl := mem_singleton.1 hp
      omega
  · intro i hi hnone
    have hcontext : ((merging a b).join whole q).left.mark i = .context := by
      by_contra hmark
      obtain ⟨p, hp, hmark⟩ := (hmarked i).1 hmark
      exact hnone p hp (p.left.has_of_mark_ne_context hmark)
    refine ⟨hcontext, ?_⟩
    have hq : ¬ q.left.Has i := hnone q (mem_append_right _ (mem_singleton_self q))
    by_cases hwhole : whole.left.Has i
    · obtain ⟨-, before, next, after, rfl, hgap⟩ :=
        h.filled i hwhole fun p hp => hnone p (mem_append_left _ hp)
      exact ⟨before, next, after ++ [q], by rw [append_assoc, cons_append], hgap⟩
    · -- The line is past the group and before `q`, so the two touch on the right.
      rw [left_join] at hi
      simp only [Slice.Has, Slice.lo_join, Slice.hi_join] at hi hq hwhole
      obtain ⟨p, hp, hhi⟩ := hends
      obtain hleft | hright := htouches
      · omega
      · refine ⟨group, q, [], rfl, fun p hp => ?_, by omega, p, hp, hhi.symm ▸ hright⟩
        have hholds := h.holds p hp
        omega

/-! The same on the right: a run with its sides exchanged is a run. -/

theorem links_map_swap {whole : SlicePair a b} {rest : List (SlicePair a b)}
    (h : (merging a b).Links whole rest) : (merging b a).Links whole.swap (rest.map swap) := by
  induction rest generalizing whole with
  | nil => trivial
  | cons q rest ih => exact ⟨h.1.symm, ih h.2⟩

def swapRun (r : (merging a b).Run) : (merging b a).Run :=
  ⟨r.first.swap, r.rest.map swap, links_map_swap r.links⟩

theorem members_swapRun (r : (merging a b).Run) : (swapRun r).members = r.members.map swap := rfl

theorem whole_swapRun (r : (merging a b).Run) : (swapRun r).whole = r.whole.swap := by
  unfold Run.whole swapRun
  rw [foldl_map]
  exact foldl_hom swap fun _ _ => rfl

/-- The ends of a run on the right. -/
theorem exists_right_ends (r : (merging a b).Run) :
    (∃ p ∈ r.members, p.right.lo = r.whole.right.lo) ∧
      ∃ p ∈ r.members, p.right.hi = r.whole.right.hi := by
  have hends := exists_left_ends (swapRun r)
  rw [members_swapRun, whole_swapRun] at hends
  simp only [mem_map, exists_exists_and_eq_and] at hends
  exact hends

def Ascending (pairs : List (SlicePair a b)) : Prop :=
  pairs.Pairwise StartsBefore

theorem Ascending.map_swap {pairs : List (SlicePair a b)} (h : Ascending pairs) :
    Ascending (pairs.map swap) :=
  pairwise_map.2 (h.imp fun hstarts => ⟨hstarts.2, hstarts.1⟩)

/-- A run in ascending order gathers its members. -/
theorem gathersLeft_whole {r : (merging a b).Run} (h : Ascending r.members) :
    GathersLeft r.members r.whole := by
  refine Run.whole_induction
    (motive := fun members whole => Ascending members → GathersLeft members whole) ?_ ?_ r h
  · exact fun p _ => gathersLeft_singleton p
  · intro r q htouches ih hq
    obtain ⟨hmembers, -, hbefore⟩ := pairwise_append.1 hq
    have hlo := ((ih hmembers).holds r.first r.first_mem).1
    have hfirst := (hbefore r.first r.first_mem q (mem_singleton_self q)).1
    exact (ih hmembers).join (exists_right_ends r).2 (by omega) htouches

theorem gathersRight_whole {r : (merging a b).Run} (h : Ascending r.members) :
    GathersLeft (r.members.map swap) r.whole.swap := by
  have hright := gathersLeft_whole (r := swapRun r) h.map_swap
  rwa [whole_swapRun] at hright

/-- In ascending order a run starts where its first member starts. -/
theorem left_lo_whole {r : (merging a b).Run} (h : Ascending r.members) :
    r.whole.left.lo = r.first.left.lo := by
  obtain ⟨⟨p, hp, hlo⟩, -⟩ := exists_left_ends r
  have hle := ((gathersLeft_whole h).holds r.first r.first_mem).1
  have hge : r.first.left.lo ≤ p.left.lo := by
    obtain rfl | hp := mem_cons.1 hp
    · exact Nat.le_refl _
    · exact (rel_of_pairwise_cons h hp).1
  omega

theorem right_lo_whole {r : (merging a b).Run} (h : Ascending r.members) :
    r.whole.right.lo = r.first.right.lo := by
  have hlo := left_lo_whole (r := swapRun r) h.map_swap
  rwa [whole_swapRun] at hlo

/-- A run that stops lies before the next. -/
theorem precedes_of_stops {r next : (merging a b).Run} (hnext : Ascending next.members)
    (h : r.Stops next) : r.whole.Precedes next.whole := by
  obtain ⟨hleft, hright⟩ := not_or.1 h
  rw [Precedes, left_lo_whole hnext, right_lo_whole hnext]
  omega

theorem Precedes.trans {p q r : SlicePair a b} (h : p.Precedes q) (h' : q.Precedes r) :
    p.Precedes r := by
  have hleft := q.left.lo_lt
  have hright := q.right.lo_lt
  unfold Precedes at *
  omega

/-! ### Merging -/

/-- Merging goes through the runs, one after another. -/
theorem mergePairsFrom_whole {r : (merging a b).Run} {rest : List (SlicePair a b)}
    (h : Ascending (r.members ++ rest)) :
    mergePairsFrom a b (some r.whole.hunks) (rest.map fun p => p.hunks.toPair) =
      .ok ((runsFrom r rest).map fun r => r.whole.hunks.toPair) := by
  induction rest generalizing r with
  | nil => rfl
  | cons q rest ih =>
    obtain ⟨hmembers, hrest, hbefore⟩ := pairwise_append.1 h
    have hq := hbefore r.first r.first_mem q mem_cons_self
    have hstarts : r.whole.StartsBefore q := by
      rw [StartsBefore, left_lo_whole hmembers, right_lo_whole hmembers]
      exact hq
    have hjoin := join?_hunks hstarts
    rw [map_cons, runsFrom]
    split
    next htouches =>
      rw [if_pos htouches] at hjoin
      rw [mergePairsFrom_joined (full?_hunks q) hjoin]
      have hadd := ih (r := r.add q htouches) (by
        rw [Run.members_add, append_assoc]
        exact h)
      rwa [Run.whole_add] at hadd
    next hnot =>
      have hsingle := ih (r := .single q) hrest
      rw [Run.whole_single] at hsingle
      rw [if_neg hnot] at hjoin
      rw [mergePairsFrom_apart (full?_hunks q) hjoin, hsingle]
      rfl

/-- Merging pairs is joining the runs of their slices. -/
theorem mergePairs_hunks {pairs : List (SlicePair a b)} (h : Ascending pairs) :
    mergePairs a b (pairs.map fun p => p.hunks.toPair) =
      .ok (((merging a b).runsOf pairs).map fun r => r.whole.hunks.toPair) := by
  match pairs, h with
  | [], _ => rfl
  | [p], _ => rfl
  | p :: q :: rest, h =>
    have hstart : mergePairsFrom a b none ((p :: q :: rest).map fun p => p.hunks.toPair) =
        mergePairsFrom a b (some p.hunks) ((q :: rest).map fun p => p.hunks.toPair) := by
      rw [map_cons, mergePairsFrom.eq_def]
      simp only [full?_hunks]
    rw [mergePairs, if_neg (by simp), hstart]
    exact mergePairsFrom_whole (r := .single p) h

/-! ### The merged pairs -/

section Runs

variable {runs : List (merging a b).Run}

theorem ascending_members (h : Ascending (runs.flatMap Run.members)) {r : (merging a b).Run}
    (hr : r ∈ runs) : Ascending r.members :=
  h.sublist (Merging.infix_of_mem_runs hr).sublist

instance : Trans (@Precedes a b) (@Precedes a b) (@Precedes a b) :=
  ⟨Precedes.trans⟩

/-- Merged pairs lie apart on both sides. -/
theorem pairwise_precedes (hchain : runs.IsChain Run.Stops)
    (h : Ascending (runs.flatMap Run.members)) : (runs.map Run.whole).Pairwise Precedes := by
  rw [← isChain_iff_pairwise, isChain_map]
  exact hchain.imp_of_mem_imp fun r next _ hnext =>
    precedes_of_stops (ascending_members h hnext)

/-- As the runs are apart, a line has a mark just where any pair at all has a mark. -/
theorem left_mark_whole_iff (hapart : (runs.map Run.whole).Pairwise Precedes)
    (hgathers : ∀ r ∈ runs, GathersLeft r.members r.whole) {r : (merging a b).Run} (hr : r ∈ runs)
    {i : Nat} (hi : r.whole.left.Has i) :
    r.whole.left.mark i ≠ .context ↔
      ∃ p ∈ runs.flatMap Run.members, p.left.mark i ≠ .context := by
  rw [(hgathers r hr).marked i]
  constructor
  · rintro ⟨p, hp, hmark⟩
    exact ⟨p, mem_flatMap.2 ⟨r, hr, hp⟩, hmark⟩
  · rintro ⟨p, hp, hmark⟩
    obtain ⟨r', hr', hp⟩ := mem_flatMap.1 hp
    have hpi := p.left.has_of_mark_ne_context hmark
    have hholds := (hgathers r' hr').holds p hp
    have heq : r = r' := by
      by_contra hne
      have hsides : runs.Pairwise fun r r' : (merging a b).Run =>
          r.whole.Precedes r'.whole ∨ r'.whole.Precedes r.whole :=
        (pairwise_map.1 hapart).imp Or.inl
      have : Std.Symm fun r r' : (merging a b).Run =>
          r.whole.Precedes r'.whole ∨ r'.whole.Precedes r.whole := ⟨fun _ _ => Or.symm⟩
      have hside := hsides.forall hr hr' hne
      unfold Precedes at hside
      unfold Slice.Has at hi hpi
      omega
    exact ⟨p, heq ▸ hp, hmark⟩

theorem right_mark_whole_iff (hapart : (runs.map Run.whole).Pairwise Precedes)
    (hgathers : ∀ r ∈ runs, GathersLeft (r.members.map swap) r.whole.swap)
    {r : (merging a b).Run} (hr : r ∈ runs) {i : Nat} (hi : r.whole.right.Has i) :
    r.whole.right.mark i ≠ .context ↔
      ∃ p ∈ runs.flatMap Run.members, p.right.mark i ≠ .context := by
  have hswapped : ∀ r ∈ runs.map swapRun, GathersLeft r.members r.whole := by
    intro swapped hswapped
    obtain ⟨r, hr, rfl⟩ := mem_map.1 hswapped
    rw [whole_swapRun]
    exact hgathers r hr
  have hapart' : ((runs.map swapRun).map Run.whole).Pairwise Precedes := by
    rw [pairwise_map, pairwise_map]
    refine (pairwise_map.1 hapart).imp fun hprecedes => ?_
    rw [whole_swapRun, whole_swapRun]
    exact ⟨hprecedes.2, hprecedes.1⟩
  have hmembers : (runs.map swapRun).flatMap Run.members =
      (runs.flatMap Run.members).map swap := by
    rw [flatMap_map, map_flatMap]
    rfl
  have hmark := left_mark_whole_iff hapart' hswapped (mem_map_of_mem hr) (i := i)
    (by rwa [whole_swapRun])
  rw [hmembers, whole_swapRun] at hmark
  simp only [mem_map, exists_exists_and_eq_and] at hmark
  exact hmark

end Runs

/-- How pairs of hunks were merged: into the given runs, with at least one line between any two of
them on both sides. Each run gathers its members on the left and on the right, and a line of it
has a mark just where one of all the pairs has a mark. -/
structure IsMergedAs (pairs : List (SlicePair a b)) (runs : List (merging a b).Run) : Prop where
  merged : mergePairs a b (pairs.map fun p => p.hunks.toPair) =
    .ok (runs.map fun r => r.whole.hunks.toPair)
  members : runs.flatMap Run.members = pairs
  apart : (runs.map Run.whole).Pairwise Precedes
  gathersLeft : ∀ r ∈ runs, GathersLeft r.members r.whole
  gathersRight : ∀ r ∈ runs, GathersLeft (r.members.map swap) r.whole.swap
  leftMarks : ∀ r ∈ runs, ∀ i, r.whole.left.Has i →
    (r.whole.left.mark i ≠ .context ↔ ∃ p ∈ pairs, p.left.mark i ≠ .context)
  rightMarks : ∀ r ∈ runs, ∀ i, r.whole.right.Has i →
    (r.whole.right.mark i ≠ .context ↔ ∃ p ∈ pairs, p.right.mark i ≠ .context)

/-- Pairs in ascending order are always merged, and no line or mark is lost. -/
theorem exists_isMergedAs (pairs : List (SlicePair a b)) (h : Ascending pairs) :
    ∃ runs, IsMergedAs pairs runs := by
  have hmembers := (merging a b).flatMap_members_runsOf pairs
  have hascending : Ascending (((merging a b).runsOf pairs).flatMap Run.members) :=
    hmembers.symm ▸ h
  have hapart := pairwise_precedes ((merging a b).isChain_runsOf pairs) hascending
  have hleft : ∀ r ∈ (merging a b).runsOf pairs, GathersLeft r.members r.whole :=
    fun r hr => gathersLeft_whole (ascending_members hascending hr)
  have hright : ∀ r ∈ (merging a b).runsOf pairs,
      GathersLeft (r.members.map swap) r.whole.swap :=
    fun r hr => gathersRight_whole (ascending_members hascending hr)
  refine ⟨_, mergePairs_hunks h, hmembers, hapart, hleft, hright, ?_, ?_⟩
  · intro r hr i hi
    rw [left_mark_whole_iff hapart hleft hr hi, hmembers]
  · intro r hr i hi
    rw [right_mark_whole_iff hapart hright hr hi, hmembers]

/-! Three pairs of hunks of a text of twelve lines, cut with a line of context. The first two touch
on the left only, the third is apart from them. -/

def letters : List String :=
  ["a", "b", "c", "d", "e", "f", "g", "h", "i", "j", "k", "l"]

def aroundLetter (i : Fin 12) : Slice letters :=
  @Slice.around letters i.val (i.val + 1) 1 i.isLt (by
    change i.val - 1 < min 12 (i.val + 1 + 1)
    omega)

def letterPairs : List (SlicePair letters letters) :=
  [⟨aroundLetter 1, aroundLetter 1⟩, ⟨aroundLetter 3, aroundLetter 6⟩,
    ⟨aroundLetter 8, aroundLetter 10⟩]

theorem exists_isMergedAs_letterPairs :
    (∀ i : Fin 12, Hunk.cut letters ⟨i.val, i.val + 1⟩ 1 = .ok (aroundLetter i).hunk) ∧
      Ascending letterPairs ∧ ∃ runs, IsMergedAs letterPairs runs := by
  have hascending : Ascending letterPairs := by
    unfold Ascending letterPairs StartsBefore
    decide
  exact ⟨fun i => Slice.cut_eq_hunk_around (Nat.le_succ _) _ _, hascending,
    exists_isMergedAs letterPairs hascending⟩

example : ((merging letters letters).runsOf letterPairs).map (fun r =>
    ((r.whole.left.lo, r.whole.left.hi), (r.whole.right.lo, r.whole.right.hi))) =
      [((0, 5), (0, 8)), ((7, 10), (9, 12))] := by
  decide

end SlicePair

end MovieDiff.Display
