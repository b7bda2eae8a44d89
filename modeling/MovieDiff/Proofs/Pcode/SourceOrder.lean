import Mathlib.Logic.Relation
import MovieDiff.Proofs.Pcode.Extent

/-!
The order of source lines. A text is read line by line, and every step towards the normal form
keeps a line, drops it, repeats one that was just read, or puts neighbours together. Main statement:
whatever the steps do, every line stands for source lines of its own block, these increase within
the line, and no later line goes back behind an earlier one.
-/
namespace MovieDiff.Pcode

open List

variable {lines : List Line} {text : String} (line : Line) {sources before after : List (List Int)}

/-- The sources of lines in a row: every line has some, they increase, and those of a later line
come no earlier than those of the lines before it. -/
structure SourcesInOrder (sources : List (List Int)) : Prop where
  nonempty : ∀ numbers ∈ sources, numbers ≠ []
  increasing : ∀ numbers ∈ sources, numbers.Pairwise (· < ·)
  forward : sources.Pairwise fun first second => ∀ m ∈ first, ∀ n ∈ second, m ≤ n

/-! ### Merged sources -/

variable {n : Int}

theorem mem_mergeSources :
    n ∈ mergeSources sources ↔ n ∈ sources.flatten := by
  rw [mergeSources, mem_eraseReps, mem_mergeSort]

theorem mergeSources_of_pairwise
    (h : sources.flatten.Pairwise (· ≤ ·)) : mergeSources sources = sources.flatten.eraseReps := by
  rw [mergeSources, mergeSort_of_pairwise (h.imp fun hle => decide_eq_true hle)]

theorem eraseReps_sublist {α : Type} [BEq α] [LawfulBEq α] (xs : List α) :
    xs.eraseReps.Sublist xs := by
  induction xs with
  | nil => exact .refl _
  | cons x xs ih =>
    cases xs with
    | nil => exact .refl _
    | cons y ys =>
      rw [eraseReps_cons_cons]
      split
      · exact ih.cons x
      · exact ih.cons_cons x

/-- Merged sources ascend strictly. -/
theorem pairwise_mergeSources (sources : List (List Int)) :
    (mergeSources sources).Pairwise (· < ·) := by
  have hsorted : (sources.flatten.mergeSort (· ≤ ·)).Pairwise fun m n => decide (m ≤ n) := by
    apply pairwise_mergeSort
    · intro a b c
      simpa using Int.le_trans
    · intro a b
      simpa using Int.le_total a b
  have hnodup : (mergeSources sources).Nodup :=
    nodup_eraseReps hsorted fun x _ y _ hxy hyx =>
      Int.le_antisymm (of_decide_eq_true hxy) (of_decide_eq_true hyx)
  refine (hsorted.sublist (eraseReps_sublist _)).imp₂ (fun m n hle hne => ?_) hnodup
  exact Int.lt_iff_le_and_ne.2 ⟨of_decide_eq_true hle, hne⟩

/-! ### What a step does to the sources -/

/-- What a step may do to the sources of lines: keep a line, drop it, repeat a line of one source,
or put neighbours together. -/
inductive Regroups : List (List Int) → List (List Int) → Prop where
  | nil : Regroups [] []
  | keep {before after : List (List Int)} (numbers : List Int) :
    Regroups before after → Regroups (numbers :: before) (numbers :: after)
  | drop {before after : List (List Int)} (numbers : List Int) :
    Regroups before after → Regroups (numbers :: before) after
  | copies {before after : List (List Int)} (n : Int) (count : Nat) :
    Regroups before after → Regroups ([n] :: before) (List.replicate count [n] ++ after)
  | merge {before after : List (List Int)} (group : List (List Int)) (hgroup : group ≠ []) :
    Regroups before after → Regroups (group ++ before) (mergeSources group :: after)

theorem eq_of_mem_copies {m : Int} {count : Nat} (h : m ∈ (List.replicate count [n]).flatten) :
    m = n := by
  obtain ⟨numbers, hnumbers, hm⟩ := mem_flatten.1 h
  rw [eq_of_mem_replicate hnumbers] at hm
  exact mem_singleton.1 hm

theorem Regroups.of_sublist (h : after.Sublist before) :
    Regroups before after := by
  induction h with
  | slnil => exact .nil
  | cons numbers _ ih => exact .drop numbers ih
  | cons_cons numbers _ ih => exact .keep numbers ih

/-- Regrouping adds no source. -/
theorem Regroups.subset (h : Regroups before after) :
    after.flatten ⊆ before.flatten := by
  induction h with
  | nil => exact List.Subset.refl _
  | keep numbers _ ih =>
    rw [flatten_cons, flatten_cons]
    exact append_subset.2
      ⟨subset_append_left _ _, subset_append_of_subset_right _ ih⟩
  | drop numbers _ ih => exact subset_append_of_subset_right _ ih
  | copies n count _ ih =>
    rw [flatten_append, flatten_cons]
    refine append_subset.2 ⟨fun m hm => ?_, subset_append_of_subset_right _ ih⟩
    rw [eq_of_mem_copies hm]
    exact mem_cons_self
  | merge group _ _ ih =>
    rw [flatten_cons, flatten_append]
    refine append_subset.2 ⟨fun m hm => ?_, subset_append_of_subset_right _ ih⟩
    exact mem_append_left _ (mem_mergeSources.1 hm)

namespace SourcesInOrder

variable {numbers : List Int}

theorem nil : SourcesInOrder [] :=
  ⟨forall_mem_nil _, forall_mem_nil _, .nil⟩

theorem singleton (n : Int) : SourcesInOrder [[n]] :=
  ⟨forall_mem_singleton.2 (cons_ne_nil _ _),
    forall_mem_singleton.2 (pairwise_singleton _ _), pairwise_singleton _ _⟩

theorem append_iff : SourcesInOrder (before ++ after) ↔
    SourcesInOrder before ∧ SourcesInOrder after ∧
      ∀ m ∈ before.flatten, ∀ n ∈ after.flatten, m ≤ n := by
  constructor
  · intro h
    obtain ⟨hbefore, hafter, hacross⟩ := pairwise_append.1 h.forward
    obtain ⟨hnonempty, hnonempty'⟩ := forall_mem_append.1 h.nonempty
    obtain ⟨hincreasing, hincreasing'⟩ := forall_mem_append.1 h.increasing
    refine ⟨⟨hnonempty, hincreasing, hbefore⟩, ⟨hnonempty', hincreasing', hafter⟩, ?_⟩
    intro m hm n hn
    obtain ⟨first, hfirst, hm⟩ := mem_flatten.1 hm
    obtain ⟨second, hsecond, hn⟩ := mem_flatten.1 hn
    exact hacross first hfirst second hsecond m hm n hn
  · rintro ⟨h, h', hacross⟩
    refine ⟨forall_mem_append.2 ⟨h.nonempty, h'.nonempty⟩,
      forall_mem_append.2 ⟨h.increasing, h'.increasing⟩,
      pairwise_append.2 ⟨h.forward, h'.forward, ?_⟩⟩
    intro first hfirst second hsecond m hm n hn
    exact hacross m (mem_flatten.2 ⟨first, hfirst, hm⟩) n
      (mem_flatten.2 ⟨second, hsecond, hn⟩)

theorem cons_iff : SourcesInOrder (numbers :: after) ↔
    SourcesInOrder [numbers] ∧ SourcesInOrder after ∧
      ∀ m ∈ numbers, ∀ n ∈ after.flatten, m ≤ n := by
  rw [← singleton_append, append_iff, flatten_singleton]

theorem replicate (n : Int) (count : Nat) : SourcesInOrder (List.replicate count [n]) := by
  induction count with
  | zero => exact nil
  | succ count ih =>
    rw [replicate_succ, cons_iff]
    refine ⟨singleton n, ih, fun m hm m' hm' => Int.le_of_eq ?_⟩
    rw [mem_singleton.1 hm, eq_of_mem_copies hm']

theorem mergeSources (h : SourcesInOrder sources) (hne : sources ≠ []) :
    SourcesInOrder [Pcode.mergeSources sources] := by
  obtain ⟨numbers, hnumbers⟩ := exists_mem_of_ne_nil sources hne
  exact ⟨forall_mem_singleton.2 (mergeSources_ne_nil hnumbers (h.nonempty numbers hnumbers)),
    forall_mem_singleton.2 (pairwise_mergeSources sources), pairwise_singleton _ _⟩

end SourcesInOrder

/-- A step keeps the order. What it puts together or repeats takes the place of what was there, so
only the lines after it have to be compared with it. -/
theorem Regroups.inOrder (h : Regroups before after)
    (horder : SourcesInOrder before) : SourcesInOrder after := by
  induction h with
  | nil => exact horder
  | keep numbers hrest ih =>
    obtain ⟨hfirst, hafter, hacross⟩ := SourcesInOrder.cons_iff.1 horder
    exact SourcesInOrder.cons_iff.2
      ⟨hfirst, ih hafter, fun m hm n hn => hacross m hm n (hrest.subset hn)⟩
  | drop numbers _ ih => exact ih (SourcesInOrder.cons_iff.1 horder).2.1
  | copies n count hrest ih =>
    obtain ⟨-, hafter, hacross⟩ := SourcesInOrder.cons_iff.1 horder
    refine SourcesInOrder.append_iff.2 ⟨.replicate n count, ih hafter, fun m hm k hk => ?_⟩
    rw [eq_of_mem_copies hm]
    exact hacross n mem_cons_self k (hrest.subset hk)
  | merge group hgroup hrest ih =>
    obtain ⟨hmerged, hafter, hacross⟩ := SourcesInOrder.append_iff.1 horder
    exact SourcesInOrder.cons_iff.2 ⟨hmerged.mergeSources hgroup, ih hafter,
      fun m hm n hn => hacross m (mem_mergeSources.1 hm) n (hrest.subset hn)⟩

/-! ### The steps -/

def sourcesOf (lines : List Line) : List (List Int) :=
  lines.map Line.sources

theorem sourcesOf_map {f : Line → Line} (h : ∀ line, (f line).sources = line.sources)
    (lines : List Line) : sourcesOf (lines.map f) = sourcesOf lines := by
  simp [sourcesOf, h]

theorem sources_plainHeader : (plainHeader line).sources = line.sources := by
  unfold plainHeader
  split <;> rfl

theorem sources_emptyConstantPool : (emptyConstantPool line).sources = line.sources := by
  unfold emptyConstantPool
  split
  · exact sources_withOperands _
  · rfl

theorem sources_zeroUrlMethod : (zeroUrlMethod line).sources = line.sources := by
  unfold zeroUrlMethod
  split
  · split
    · exact sources_withOperands _
    · rfl
  · rfl

variable {out : List Line}

theorem sourcesOf_renumberRegisters (h : renumberRegisters lines = .ok out) :
    sourcesOf out = sourcesOf lines := by
  have hall := forall₂_renumberRegisters h
  clear h
  induction hall with
  | nil => rfl
  | cons hfirst _ ih =>
    obtain ⟨operands, rfl⟩ := hfirst.exists_withOperands
    exact congrArg₂ List.cons (sources_withOperands operands) ih

theorem sourcesOf_renumberLabels (lines : List Line) :
    sourcesOf (renumberLabels lines) = sourcesOf lines := by
  rw [renumberLabels_eq]
  exact sourcesOf_map (f := Line.nameLabels _) (fun _ => rfl) lines

theorem sourcesOf_splitPush :
    ∃ count, sourcesOf (splitPush line) = List.replicate count line.sources := by
  refine ⟨(splitPush line).length, eq_replicate_iff.2 ⟨by simp [sourcesOf], ?_⟩⟩
  unfold splitPush
  split
  · intro numbers hnumbers
    simp only [sourcesOf, map_cons, map_map, mem_cons, mem_map] at hnumbers
    rcases hnumbers with rfl | rfl | ⟨operand, -, rfl⟩ <;> exact sources_withOperands _
  · intro numbers hnumbers
    exact mem_singleton.1 hnumbers

/-- Lines that were just read stand for one source line each, so that their copies are in order. -/
theorem regroups_splitPushes (h : ∀ line ∈ lines, ∃ n, line.sources = [n]) :
    Regroups (sourcesOf lines) (sourcesOf (splitPushes lines)) := by
  induction lines with
  | nil => exact .nil
  | cons line rest ih =>
    obtain ⟨⟨n, hn⟩, hrest⟩ := forall_mem_cons.1 h
    obtain ⟨count, hcount⟩ := sourcesOf_splitPush line
    have hsplit : sourcesOf (splitPushes (line :: rest)) =
        List.replicate count [n] ++ sourcesOf (splitPushes rest) := by
      rw [← hn, ← hcount]
      exact map_append
    rw [hsplit, sourcesOf, map_cons, hn]
    exact .copies n count (ih hrest)

theorem regroups_dropUnusedLabels (lines : List Line) :
    Regroups (sourcesOf lines) (sourcesOf (dropUnusedLabels lines)) := by
  unfold dropUnusedLabels
  generalize labelReferences lines = references
  induction lines with
  | nil => exact .nil
  | cons line rest ih =>
    rcases dropLabelUnless_cases references line with hline | ⟨hline, -⟩ | ⟨hline, -⟩
    · rw [filterMap_cons_some hline]
      exact .keep line.sources ih
    · rw [filterMap_cons_none hline]
      exact .drop line.sources ih
    · rw [filterMap_cons_some hline]
      exact .keep line.sources ih

theorem regroups_of_rewrites (h : Rewrites lines out) :
    Regroups (sourcesOf lines) (sourcesOf out) := by
  induction h with
  | nil => exact .nil
  | keep line _ ih => exact .keep _ ih
  | negation _ _ _ ih => exact .drop _ ih
  | @unitStep one step _ _ _ _ ih =>
    exact .merge [one.sources, step.sources] (cons_ne_nil _ _) ih
  | @join first second add joined _ out hjoined _ ih =>
    obtain ⟨-, -, -, -, -, -, -, hsources, -, -⟩ := exists_of_joinedPush? hjoined
    rw [sourcesOf, sourcesOf, map_cons (l := out), hsources]
    exact .merge [first.sources, second.sources, add.sources] (cons_ne_nil _ _) ih

/-- All steps together, one after the other. -/
theorem regroups_normalizeLines (h : ∀ line ∈ lines, ∃ n, line.sources = [n])
    (hout : normalizeLines lines = .ok out) :
    Relation.ReflTransGen Regroups (sourcesOf lines) (sourcesOf out) := by
  obtain ⟨numbered, hnumbered, rfl⟩ := exists_of_normalizeLines hout
  have hsplit : Regroups (sourcesOf lines) (sourcesOf numbered) := by
    rw [sourcesOf_renumberRegisters hnumbered, plainHeaders, sourcesOf_map sources_plainHeader,
      plainLiterals, sourcesOf_map fun _ => sources_withOperands _]
    exact regroups_splitPushes h
  have hlabels := regroups_dropUnusedLabels numbered
  rw [← sourcesOf_renumberLabels (dropUnusedLabels numbered)] at hlabels
  have hsteps := regroups_of_rewrites
    (rewrites_foldUnitSteps (dropDoubleNots (renumberLabels (dropUnusedLabels numbered))))
  rw [← sourcesOf_map sources_emptyConstantPool (foldUnitSteps _)] at hsteps
  rw [zeroUrlMethods, sourcesOf_map sources_zeroUrlMethod]
  exact ((((Relation.ReflTransGen.single hsplit).tail hlabels).tail
    (regroups_of_rewrites (rewrites_dropDoubleNots _))).tail hsteps).tail
      (regroups_of_rewrites (rewrites_joinStrings _))

theorem inOrder_of_reflTransGen
    (h : Relation.ReflTransGen Regroups before after) (horder : SourcesInOrder before) :
    SourcesInOrder after ∧ after.flatten ⊆ before.flatten := by
  induction h with
  | refl => exact ⟨horder, List.Subset.refl _⟩
  | tail _ hstep ih => exact ⟨hstep.inOrder ih.1, List.Subset.trans hstep.subset ih.2⟩

/-! ### Lines that were read -/

variable {index : Int}

/-- Lines are read in order. -/
theorem inOrder_readLinesFrom {texts : List String} (h : readLinesFrom index texts = .ok lines) :
    SourcesInOrder (sourcesOf lines) ∧ (∀ n ∈ (sourcesOf lines).flatten, index ≤ n) ∧
      ∀ line ∈ lines, ∃ n, line.sources = [n] := by
  induction texts generalizing index lines with
  | nil =>
    cases h
    exact ⟨.nil, forall_mem_nil _, forall_mem_nil _⟩
  | cons text texts ih =>
    obtain ⟨first, hfirst, h⟩ := exists_of_bind_eq_ok h
    obtain ⟨others, hothers, h⟩ := exists_of_bind_eq_ok h
    cases h
    obtain ⟨horder, hlater, hsingle⟩ := ih hothers
    have hlater' : ∀ n ∈ (sourcesOf others).flatten, index ≤ n := fun n hn => by
      have := hlater n hn
      omega
    obtain ⟨-, rfl⟩ | ⟨-, line, rfl, hread⟩ := readLine_cases hfirst
    · exact ⟨horder, hlater', hsingle⟩
    · have hsources := (sources_readBody hread).1
      have hlines : sourcesOf ((some line).toList ++ others) = [index] :: sourcesOf others := by
        rw [← hsources]
        rfl
      rw [hlines]
      refine ⟨SourcesInOrder.cons_iff.2 ⟨.singleton index, horder, ?_⟩, ?_,
        forall_mem_cons.2 ⟨⟨index, hsources⟩, hsingle⟩⟩
      · exact forall_mem_singleton.2 hlater'
      · exact forall_mem_cons.2 ⟨Int.le_refl _, hlater'⟩

variable {blocks : List Block} {block : Block}

/-- The blocks of a text before they are normalised. -/
theorem inOrder_of_mem_splitBlocks (hlines : readText text = .ok lines)
    (hblocks : splitBlocks lines = .ok blocks) (hblock : block ∈ blocks) :
    SourcesInOrder (sourcesOf block.lines) ∧ ∀ line ∈ block.lines, ∃ n, line.sources = [n] := by
  have hsublist := sublist_of_mem_splitBlocks hblocks hblock
  obtain ⟨horder, -, hsingle⟩ := inOrder_readLinesFrom hlines
  exact ⟨(Regroups.of_sublist (hsublist.map Line.sources)).inOrder horder,
    fun line hline => hsingle line (hsublist.subset hline)⟩

/-- Normal forms keep the order. -/
theorem inOrder_normalizeBlock (hlines : readText text = .ok lines)
    (hblocks : splitBlocks lines = .ok blocks) {normal : Block} (hblock : block ∈ blocks)
    (hnormal : normalizeBlock block = .ok normal) :
    SourcesInOrder (sourcesOf normal.lines) ∧
      (sourcesOf normal.lines).flatten ⊆ (sourcesOf block.lines).flatten := by
  obtain ⟨horder, hsingle⟩ := inOrder_of_mem_splitBlocks hlines hblocks hblock
  exact inOrder_of_reflTransGen (regroups_normalizeLines hsingle (normalizeBlock_eq_ok hnormal))
    horder

end MovieDiff.Pcode
