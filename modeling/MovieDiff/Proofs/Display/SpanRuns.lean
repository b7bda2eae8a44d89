import Mathlib.Data.List.Chain
import Mathlib.Data.List.Pairwise
import MovieDiff.Display.BlockText
import MovieDiff.Proofs.Runs

/-!
Merging sorted pairs of spans. Each pair is compared with the hull of its predecessors only, so
what is merged are runs of neighbours, in which every pair meets the hull of those before it on
both sides. Main statement: the hulls of the runs cover all pairs, and no two of them meet just
when any two runs that meet are parts of one. Pairs that ascend on both sides are such, but the
order tells nothing about the right sides of pairs that start at different places on the left.
-/
namespace MovieDiff

open List
open Display (touches hull mergeFrom mergeTouching mergeSpans spanPairLe ShownSpans)
open Merging (Run runsFrom links_append infix_of_mem_runs)

namespace SpanPair

/-- The spans overlap or are adjacent on both sides. -/
def Meets (s t : SpanPair) : Prop :=
  touches s.left t.left ∧ touches s.right t.right

instance (s t : SpanPair) : Decidable (s.Meets t) :=
  inferInstanceAs (Decidable (_ ∧ _))

def Covers (outer inner : SpanPair) : Prop :=
  (outer.left.start ≤ inner.left.start ∧ inner.left.stop ≤ outer.left.stop) ∧
    outer.right.start ≤ inner.right.start ∧ inner.right.stop ≤ outer.right.stop

def IsProper (s : SpanPair) : Prop :=
  s.left.start ≤ s.left.stop ∧ s.right.start ≤ s.right.stop

instance (s : SpanPair) : Decidable s.IsProper :=
  inferInstanceAs (Decidable (_ ∧ _))

def join (s t : SpanPair) : SpanPair :=
  ⟨hull s.left t.left, hull s.right t.right⟩

/-- The least pair that covers all pairs of a group. -/
structure IsHullOf (whole : SpanPair) (group : List SpanPair) : Prop where
  covers : ∀ s ∈ group, whole.Covers s
  least : ∀ outer : SpanPair, (∀ s ∈ group, outer.Covers s) → outer.Covers whole

def shown (s : SpanPair) : ShownSpans :=
  .both s.left s.right

variable {s t outer inner : SpanPair}

theorem meets_iff : s.Meets t ↔
    (t.left.start ≤ s.left.stop ∧ s.left.start ≤ t.left.stop) ∧
      t.right.start ≤ s.right.stop ∧ s.right.start ≤ t.right.stop := by
  simp only [Meets, touches, Bool.and_eq_true, decide_eq_true_eq]

theorem Meets.symm (h : s.Meets t) : t.Meets s := by
  rw [meets_iff] at h ⊢
  omega

theorem IsProper.meets_self (h : s.IsProper) : s.Meets s := by
  obtain ⟨hleft, hright⟩ := h
  exact meets_iff.2 ⟨⟨hleft, hleft⟩, hright, hright⟩

theorem Covers.refl (s : SpanPair) : s.Covers s :=
  ⟨⟨Int.le_refl _, Int.le_refl _⟩, Int.le_refl _, Int.le_refl _⟩

theorem Covers.trans (h : outer.Covers inner) (h' : inner.Covers s) : outer.Covers s := by
  unfold Covers at h h' ⊢
  omega

/-- Whatever meets a pair meets all that covers it. -/
theorem Covers.meets (h : outer.Covers inner) (hmeets : inner.Meets t) : outer.Meets t := by
  rw [meets_iff] at hmeets ⊢
  unfold Covers at h
  omega

theorem covers_join_left (s t : SpanPair) : (s.join t).Covers s := by
  simp only [Covers, join, hull]
  omega

theorem covers_join_right (s t : SpanPair) : (s.join t).Covers t := by
  simp only [Covers, join, hull]
  omega

theorem Covers.join (h : outer.Covers s) (h' : outer.Covers t) : outer.Covers (s.join t) := by
  unfold Covers at h h'
  simp only [Covers, SpanPair.join, hull]
  omega

/-- The pairs that are merged: those that meet, into their hull. -/
abbrev merging : Merging SpanPair :=
  ⟨Meets, join, inferInstance⟩

/-- A run is merged into its hull. -/
theorem isHullOf_whole (r : merging.Run) : r.whole.IsHullOf r.members := by
  refine Run.whole_induction (motive := fun members whole => whole.IsHullOf members) ?_ ?_ r
  · intro s
    refine ⟨fun t ht => ?_, fun outer houter => houter s mem_cons_self⟩
    rw [mem_singleton.1 ht]
    exact Covers.refl s
  · intro r s _ hhull
    refine ⟨fun t ht => ?_, fun outer houter => ?_⟩
    · rcases mem_append.1 ht with ht | ht
      · exact (covers_join_left r.whole s).trans (hhull.covers t ht)
      · rw [mem_singleton.1 ht]
        exact covers_join_right r.whole s
    · rw [forall_mem_append] at houter
      exact (hhull.least outer houter.1).join (houter.2 s mem_cons_self)

/-- The hull of a part is covered. -/
theorem covers_whole_of_subset {r part : merging.Run} (h : part.members ⊆ r.members) :
    r.whole.Covers part.whole :=
  (isHullOf_whole part).least _ fun _ ht => (isHullOf_whole r).covers _ (h ht)

end SpanPair

open SpanPair

section Merged

theorem map_whole_runsFrom (r : merging.Run) (rest : List SpanPair) :
    (runsFrom r rest).map Run.whole = mergeFrom r.whole rest := by
  induction rest generalizing r with
  | nil => rfl
  | cons next rest ih =>
    rw [runsFrom, mergeFrom]
    by_cases h : r.whole.Meets next
    · rw [dif_pos h, if_pos (by simpa [Meets] using h), ih, Run.whole_add]
      rfl
    · rw [dif_neg h, if_neg (by simpa [Meets] using h), map_cons, ih, Run.whole_single]

variable (spans : List SpanPair)

/-- Merging joins the runs. -/
theorem mergeTouching_eq_map_whole :
    mergeTouching spans = (merging.runsOf spans).map Run.whole := by
  cases spans with
  | nil => rfl
  | cons s rest => exact (map_whole_runsFrom (.single s) rest).symm

theorem mergeSpans_map_shown :
    mergeSpans (spans.map shown) = .ok ((mergeTouching spans).map shown) := by
  have hsides : (spans.map shown).mapM Display.twoSided = .ok spans := by
    rw [mapM_map]
    induction spans with
    | nil => rfl
    | cons s rest ih =>
      rw [mapM_cons, ih]
      rfl
  unfold mergeSpans
  by_cases hshort : (spans.map shown).length < 2
  · rw [if_pos hshort]
    rcases spans with _ | ⟨s, _ | ⟨t, rest⟩⟩
    · rfl
    · rfl
    · simp only [length_map, length_cons] at hshort
      omega
  · rw [if_neg hshort, hsides]
    rfl

end Merged

/-! ### Runs that merging does not form -/

/-- What comes in a run behind members of another run meets that one. -/
theorem meets_of_members_eq {r s : merging.Run} {first next : SpanPair}
    {tail back : List SpanPair} (hs : s.members = first :: tail ++ next :: back)
    (hr : first :: tail ⊆ r.members) : r.whole.Meets next := by
  rw [Run.members, cons_append, List.cons.injEq] at hs
  have hlinks := s.links
  rw [hs.1, hs.2, links_append] at hlinks
  have hpart : r.whole.Covers (⟨first, tail, hlinks.1⟩ : merging.Run).whole :=
    covers_whole_of_subset hr
  exact hpart.meets hlinks.2.1

/-- Every run of the pairs is part of one that merging forms. -/
theorem exists_run_of_infix {runs : List merging.Run} (hchain : runs.IsChain Run.Stops)
    {s : merging.Run} (h : s.members <:+: runs.flatMap Run.members) :
    ∃ r ∈ runs, s.members <:+: r.members := by
  induction runs with
  | nil => exact absurd (infix_nil.1 h) (cons_ne_nil _ _)
  | cons r runs ih =>
    have hlater : s.members <:+: runs.flatMap Run.members →
        ∃ r' ∈ r :: runs, s.members <:+: r'.members := by
      intro hinfix
      obtain ⟨r', hr', hpart⟩ := ih hchain.tail hinfix
      exact ⟨r', mem_cons_of_mem _ hr', hpart⟩
    obtain ⟨before, after, heq⟩ := h
    rw [flatMap_cons, append_assoc, append_eq_append_iff] at heq
    rcases heq with ⟨tail, hr, hs⟩ | ⟨more, -, hlist⟩
    · -- `s` starts in `r`; if it goes on behind it, what comes next meets the hull of `r`
      rcases append_eq_append_iff.1 hs with ⟨back, htail, -⟩ | ⟨back, hmembers, hback⟩
      · refine ⟨r, mem_cons_self, before, back, ?_⟩
        rw [hr, htail, append_assoc]
      · rcases tail with _ | ⟨first, tail⟩
        · exact hlater ⟨[], after, by rw [hback, hmembers]; rfl⟩
        · rcases back with _ | ⟨next, back⟩
          · exact ⟨r, mem_cons_self, before, [], by rw [hr, hmembers]; simp⟩
          · rcases runs with _ | ⟨r', runs⟩
            · cases hback
            · have hstops := (isChain_cons_cons.1 hchain).1
              rw [flatMap_cons, Run.members, cons_append, cons_append,
                List.cons.injEq] at hback
              rw [Run.Stops, hback.1] at hstops
              refine absurd (meets_of_members_eq hmembers ?_) hstops
              rw [hr]
              exact subset_append_right before _
    · exact hlater ⟨more, after, by rw [hlist, append_assoc]⟩

theorem spanPairLe_antisymm {s t : SpanPair} (h : spanPairLe s t = true)
    (h' : spanPairLe t s = true) : s = t := by
  obtain ⟨⟨a, b⟩, ⟨c, d⟩⟩ := s
  obtain ⟨⟨a', b'⟩, ⟨c', d'⟩⟩ := t
  simp only [spanPairLe, Bool.or_eq_true, Bool.and_eq_true, decide_eq_true_eq, beq_iff_eq] at h h'
  have hall : a = a' ∧ b = b' ∧ c = c' ∧ d = d' := by omega
  obtain ⟨rfl, rfl, rfl, rfl⟩ := hall
  rfl

/-- Where pairs are sorted, some pair that the earlier of two runs did not meet stands between
them. -/
theorem pairwise_stops {runs : List merging.Run} {R : SpanPair → SpanPair → Prop}
    (hrefl : ∀ s, R s s) (hchain : runs.IsChain Run.Stops)
    (hsorted : (runs.flatMap Run.members).Pairwise R)
    (hproper : ∀ s ∈ runs.flatMap Run.members, s.IsProper) :
    runs.Pairwise fun r r' => ∃ next : SpanPair, next.IsProper ∧ ¬ r.whole.Meets next ∧
      (∀ s ∈ r.members, R s next) ∧ ∀ s ∈ r'.members, R next s := by
  induction runs with
  | nil => exact .nil
  | cons r runs ih =>
    rw [flatMap_cons, pairwise_append] at hsorted
    rw [flatMap_cons, forall_mem_append] at hproper
    obtain ⟨-, hsorted', hbefore⟩ := hsorted
    refine pairwise_cons.2 ⟨fun r' hr' => ?_, ih hchain.tail hsorted' hproper.2⟩
    cases runs with
    | nil => cases hr'
    | cons next runs =>
      have hnext : next.first ∈ (next :: runs).flatMap Run.members :=
        mem_flatMap.2 ⟨next, mem_cons_self, next.first_mem⟩
      refine ⟨next.first, hproper.2 _ hnext, (isChain_cons_cons.1 hchain).1,
        fun s hs => hbefore s hs _ hnext, fun s hs => ?_⟩
      have hmem : s ∈ (next :: runs).flatMap Run.members := mem_flatMap.2 ⟨r', hr', hs⟩
      rw [flatMap_cons, Run.members, cons_append] at hmem hsorted'
      rcases mem_cons.1 hmem with rfl | hmem
      · exact hrefl _
      · exact rel_of_pairwise_cons hsorted' hmem

/-- No pair of a sorted list is in two runs: the pairs between two equal ones equal them. -/
theorem pairwise_disjoint_runs {runs : List merging.Run} (hchain : runs.IsChain Run.Stops)
    (hsorted : (runs.flatMap Run.members).Pairwise fun s t => spanPairLe s t)
    (hproper : ∀ s ∈ runs.flatMap Run.members, s.IsProper) :
    runs.Pairwise fun r r' => ∀ s ∈ r.members, s ∉ r'.members := by
  refine (pairwise_stops (fun s => by simp [spanPairLe]) hchain hsorted hproper).imp ?_
  rintro r r' ⟨next, hnext, hnot, hbefore, hafter⟩ s hs hs'
  obtain rfl := spanPairLe_antisymm (hbefore s hs) (hafter s hs')
  exact hnot (((isHullOf_whole r).covers s hs).meets hnext.meets_self)

/-! ### Pairs that are apart -/

def Apart (spans : List SpanPair) : Prop :=
  spans.Pairwise fun s t => ¬ s.Meets t

/-- Any two runs of neighbours whose hulls meet are parts of one run. -/
def Gathered (spans : List SpanPair) : Prop :=
  ∀ r r' : merging.Run, r.members <:+: spans → r'.members <:+: spans → r.whole.Meets r'.whole →
    ∃ whole : merging.Run, whole.members <:+: spans ∧ r.members <:+: whole.members ∧
      r'.members <:+: whole.members

theorem Apart.perm {spans spans' : List SpanPair} (h : Apart spans) (hperm : spans'.Perm spans) :
    Apart spans' :=
  (hperm.pairwise_iff fun hnot hmeets => hnot hmeets.symm).2 h

theorem mergeFrom_of_apart {s : SpanPair} {rest : List SpanPair} (h : Apart (s :: rest)) :
    mergeFrom s rest = s :: rest := by
  induction rest generalizing s with
  | nil => rfl
  | cons next rest ih =>
    have hnot : ¬ s.Meets next := rel_of_pairwise_cons h mem_cons_self
    rw [mergeFrom, if_neg (by simpa [Meets] using hnot), ih h.of_cons]

theorem mergeTouching_of_apart {spans : List SpanPair} (h : Apart spans) :
    mergeTouching spans = spans := by
  cases spans with
  | nil => rfl
  | cons s rest => exact mergeFrom_of_apart h

section Sorted

variable {spans : List SpanPair} {runs : List merging.Run}

/-- Hulls that lie apart gather what meets. -/
theorem gathered_of_apart (hchain : runs.IsChain Run.Stops) (h : Apart (runs.map Run.whole)) :
    Gathered (runs.flatMap Run.members) := by
  intro s s' hs hs' hmeets
  obtain ⟨r, hr, hpart⟩ := exists_run_of_infix hchain hs
  obtain ⟨r', hr', hpart'⟩ := exists_run_of_infix hchain hs'
  have hmeets' : r.whole.Meets r'.whole := by
    have hfirst := (covers_whole_of_subset hpart.subset).meets hmeets
    exact ((covers_whole_of_subset hpart'.subset).meets hfirst.symm).symm
  by_cases heq : r = r'
  · subst heq
    exact ⟨r, infix_of_mem_runs hr, hpart, hpart'⟩
  · have hapart : runs.Pairwise fun r r' => ¬ r.whole.Meets r'.whole := pairwise_map.1 h
    have : Std.Symm fun r r' : merging.Run => ¬ r.whole.Meets r'.whole :=
      ⟨fun _ _ hnot hmeets => hnot hmeets.symm⟩
    exact absurd hmeets' (hapart.forall hr hr' heq)

theorem apart_of_gathered (hchain : runs.IsChain Run.Stops)
    (hdisjoint : runs.Pairwise fun r r' => ∀ s ∈ r.members, s ∉ r'.members)
    (h : Gathered (runs.flatMap Run.members)) : Apart (runs.map Run.whole) := by
  have hsame : ∀ {r r' s}, r ∈ runs → r' ∈ runs → s ∈ r.members → s ∈ r'.members → r = r' := by
    intro r r' s hr hr' hs hs'
    by_contra hne
    have : Std.Symm fun r r' : merging.Run => ∀ s ∈ r.members, s ∉ r'.members :=
      ⟨fun _ _ hnot t ht ht' => hnot t ht' ht⟩
    exact hdisjoint.forall hr hr' hne s hs hs'
  refine pairwise_map.2 (hdisjoint.imp_of_mem fun hr hr' hnot hmeets => ?_)
  obtain ⟨whole, hwhole, hpart, hpart'⟩ :=
    h _ _ (infix_of_mem_runs hr) (infix_of_mem_runs hr') hmeets
  obtain ⟨big, hbig, hinside⟩ := exists_run_of_infix hchain hwhole
  have heq := hsame hr hbig (Run.first_mem _) (hinside.subset (hpart.subset (Run.first_mem _)))
  have heq' := hsame hr' hbig (Run.first_mem _) (hinside.subset (hpart'.subset (Run.first_mem _)))
  rw [← heq'] at heq
  rw [heq] at hnot
  exact hnot _ (Run.first_mem _) (Run.first_mem _)

/-- Where all pairs of a run start no earlier than some pair, neither does its hull. -/
theorem Run.le_start {r : merging.Run} {low : SpanPair}
    (h : ∀ s ∈ r.members, low.left.start ≤ s.left.start ∧ low.right.start ≤ s.right.start) :
    low.left.start ≤ r.whole.left.start ∧ low.right.start ≤ r.whole.right.start := by
  have hleast := (isHullOf_whole r).least
    ⟨⟨low.left.start, r.whole.left.stop⟩, ⟨low.right.start, r.whole.right.stop⟩⟩ fun s hs => by
      have hcovers := (isHullOf_whole r).covers s hs
      have hlow := h s hs
      unfold Covers at hcovers ⊢
      simp only
      omega
  exact ⟨hleast.1.1, hleast.2.1⟩

/-- Where the starts ascend on both sides, a run that was left behind is not met again. -/
theorem apart_of_ascending (hchain : runs.IsChain Run.Stops)
    (hproper : ∀ s ∈ runs.flatMap Run.members, s.IsProper)
    (hascending : (runs.flatMap Run.members).Pairwise fun s t =>
      s.left.start ≤ t.left.start ∧ s.right.start ≤ t.right.start) :
    Apart (runs.map Run.whole) := by
  refine pairwise_map.2 ((pairwise_stops (fun s => ?_) hchain hascending hproper).imp ?_)
  · exact ⟨Int.le_refl _, Int.le_refl _⟩
  · rintro r r' ⟨next, ⟨hleft, hright⟩, hnot, hbefore, hafter⟩ hmeets
    have hfirst := hbefore r.first r.first_mem
    have hcovers := (isHullOf_whole r).covers r.first r.first_mem
    have hstart := Run.le_start hafter
    apply hnot
    rw [meets_iff] at hmeets ⊢
    unfold Covers at hcovers
    omega

/-- Sorted pairs are merged into the hulls of their runs, which cover all of them. No two results
meet just when any two runs that meet are parts of one; merging the sorted results then changes
nothing. It is so where the starts ascend on both sides. -/
theorem mergeSpans_apart_iff (hsorted : spans.Pairwise fun s t => spanPairLe s t)
    (hproper : ∀ s ∈ spans, s.IsProper) :
    ∃ runs : List merging.Run, runs.flatMap Run.members = spans ∧
      mergeSpans (spans.map shown) = .ok ((runs.map Run.whole).map shown) ∧
      (∀ r ∈ runs, r.whole.IsHullOf r.members) ∧
      (∀ s ∈ spans, ∃ r ∈ runs, s ∈ r.members ∧ r.whole.Covers s) ∧
      (Apart (runs.map Run.whole) ↔ Gathered spans) ∧
      (Apart (runs.map Run.whole) →
        mergeSpans (((runs.map Run.whole).mergeSort spanPairLe).map shown) =
          .ok (((runs.map Run.whole).mergeSort spanPairLe).map shown)) ∧
      ((spans.Pairwise fun s t => s.right.start ≤ t.right.start) →
        Apart (runs.map Run.whole)) := by
  have hchain := merging.isChain_runsOf spans
  have hpairs := merging.flatMap_members_runsOf spans
  have hdisjoint : (merging.runsOf spans).Pairwise fun r r' => ∀ s ∈ r.members, s ∉ r'.members := by
    apply pairwise_disjoint_runs hchain
    · rwa [hpairs]
    · rwa [hpairs]
  refine ⟨merging.runsOf spans, hpairs, ?_, fun r _ => isHullOf_whole r, fun s hs => ?_, ⟨?_, ?_⟩,
    ?_, ?_⟩
  · rw [mergeSpans_map_shown, mergeTouching_eq_map_whole]
  · rw [← hpairs] at hs
    obtain ⟨r, hr, hmem⟩ := List.mem_flatMap.1 hs
    exact ⟨r, hr, hmem, (isHullOf_whole r).covers s hmem⟩
  · intro h
    have hgathered := gathered_of_apart hchain h
    rwa [hpairs] at hgathered
  · intro h
    apply apart_of_gathered hchain hdisjoint
    rwa [hpairs]
  · intro h
    rw [mergeSpans_map_shown, mergeTouching_of_apart (h.perm (List.mergeSort_perm _ _))]
  · intro hright
    apply apart_of_ascending hchain
    · rwa [hpairs]
    · rw [hpairs]
      refine hsorted.imp₂ (fun s t hle hstart => ⟨?_, hstart⟩) hright
      simp only [spanPairLe, Bool.or_eq_true, Bool.and_eq_true, decide_eq_true_eq,
        beq_iff_eq] at hle
      omega

end Sorted

/-- Three pairs in a chain, of which the outer two do not touch, and one further on. -/
def chainedSpans : List SpanPair :=
  [⟨⟨0, 2⟩, ⟨0, 1⟩⟩, ⟨⟨1, 4⟩, ⟨1, 3⟩⟩, ⟨⟨4, 5⟩, ⟨2, 6⟩⟩, ⟨⟨9, 10⟩, ⟨20, 21⟩⟩]

theorem mergeSpans_chainedSpans :
    (chainedSpans.Pairwise fun s t => spanPairLe s t) ∧ (∀ s ∈ chainedSpans, s.IsProper) ∧
      mergeSpans (chainedSpans.map shown) =
        .ok ([⟨⟨0, 5⟩, ⟨0, 6⟩⟩, ⟨⟨9, 10⟩, ⟨20, 21⟩⟩].map shown) ∧
      Gathered chainedSpans ∧
      ∃ runs : List merging.Run,
        runs.flatMap Run.members = chainedSpans ∧ Apart (runs.map Run.whole) := by
  have hsorted : chainedSpans.Pairwise fun s t => spanPairLe s t := by decide
  have hproper : ∀ s ∈ chainedSpans, s.IsProper := by decide
  have hright : chainedSpans.Pairwise fun s t => s.right.start ≤ t.right.start := by decide
  obtain ⟨runs, hpairs, -, -, -, hiff, -, hascending⟩ := mergeSpans_apart_iff hsorted hproper
  have hapart := hascending hright
  exact ⟨hsorted, hproper, by rfl, hiff.1 hapart, runs, hpairs, hapart⟩

/-- On the right the second pair lies behind the first, and the third reaches back to it. -/
def reachingSpans : List SpanPair :=
  [⟨⟨0, 10⟩, ⟨0, 2⟩⟩, ⟨⟨1, 2⟩, ⟨5, 6⟩⟩, ⟨⟨2, 3⟩, ⟨1, 5⟩⟩]

def reachingMerged : List SpanPair :=
  [⟨⟨0, 10⟩, ⟨0, 2⟩⟩, ⟨⟨1, 3⟩, ⟨1, 6⟩⟩]

/-- The two results meet, and merging them again makes one of them. -/
theorem mergeSpans_reachingSpans :
    (reachingSpans.Pairwise fun s t => spanPairLe s t) ∧ (∀ s ∈ reachingSpans, s.IsProper) ∧
      mergeSpans (reachingSpans.map shown) = .ok (reachingMerged.map shown) ∧
      ¬ Apart reachingMerged ∧ (reachingMerged.Pairwise fun s t => spanPairLe s t) ∧
      mergeSpans (reachingMerged.map shown) = .ok ([⟨⟨0, 10⟩, ⟨0, 6⟩⟩].map shown) := by
  refine ⟨by decide, by decide, by rfl, ?_, by decide, by rfl⟩
  intro h
  exact List.rel_of_pairwise_cons h List.mem_cons_self (by decide)

end MovieDiff
