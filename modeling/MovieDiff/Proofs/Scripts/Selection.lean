import MovieDiff.Proofs.Scripts.Pairing
import MovieDiff.Proofs.Scripts.Table

/-!
The blocks to show. A diff set is made of sets that have no order of their own, so that the order of
what is shown rests on the sort keys alone. Main statement: every differing block that the filter
lets through is selected once, in each of the orders. Where scripts and blocks are told by their
sort keys, every diff set with the same differing blocks gives the same lists.
-/
namespace MovieDiff

open List

variable {diff : ScriptDiff} {set : DiffSet} {filter : Filter} {script : Script} {block : BlockDiff}
  {pair : Script × BlockDiff}

/-! ### Well-formed diff sets -/

def Sides.toList {α : Type} : Sides α → List α
  | left a => [a]
  | right b => [b]
  | both a b => [a, b]

def ScriptDiff.blocks (diff : ScriptDiff) : List BlockDiff :=
  diff.paired ++ (diff.onlyLeft ++ diff.onlyRight)

/-- Blocks are told by their names, and those that differ have places. -/
structure ScriptDiff.WellFormed (diff : ScriptDiff) : Prop where
  distinct : (diff.blocks.map BlockDiff.names).Nodup
  placed : ∀ block ∈ diff.differingBlocks, block.position.isSome

instance (diff : ScriptDiff) : Decidable diff.WellFormed :=
  decidable_of_iff ((diff.blocks.map BlockDiff.names).Nodup ∧
      ∀ block ∈ diff.differingBlocks, block.position.isSome)
    ⟨fun h => ⟨h.1, h.2⟩, fun h => ⟨h.distinct, h.placed⟩⟩

/-- Every script has one entry. -/
structure DiffSet.WellFormed (set : DiffSet) : Prop where
  distinct : (set.blockDiffs.map Prod.fst).Nodup
  diffs : ∀ entry ∈ set.blockDiffs, entry.2.WellFormed

instance (set : DiffSet) : Decidable set.WellFormed :=
  decidable_of_iff ((set.blockDiffs.map Prod.fst).Nodup ∧
      ∀ entry ∈ set.blockDiffs, entry.2.WellFormed)
    ⟨fun h => ⟨h.1, h.2⟩, fun h => ⟨h.distinct, h.diffs⟩⟩

/-- Whether a block is on one side only or has changed. -/
def ScriptDiff.Differs (diff : ScriptDiff) (block : BlockDiff) : Prop :=
  block ∈ diff.onlyLeft ∨ block ∈ diff.onlyRight ∨ block ∈ diff.paired ∧ 0 < block.changed

def DiffSet.Differs (set : DiffSet) (pair : Script × BlockDiff) : Prop :=
  (set.diffOf pair.1).Differs pair.2

/-- Blocks of different names are all added. -/
theorem foldl_addBlock_of_nodup {known blocks : List BlockDiff}
    (h : ((known ++ blocks).map BlockDiff.names).Nodup) :
    blocks.foldl addBlock known = known ++ blocks := by
  induction blocks generalizing known with
  | nil => simp
  | cons block blocks ih =>
    have hnew : addBlock known block = known ++ [block] := by
      rw [map_append, nodup_append] at h
      refine if_neg fun hknown => ?_
      obtain ⟨other, hother, heq⟩ := any_eq_true.1 hknown
      exact h.2.2 _ (mem_map_of_mem hother) _ (mem_map_of_mem mem_cons_self) (beq_iff_eq.1 heq)
    rw [append_cons] at h
    rw [foldl_cons, hnew, ih h, ← append_cons]

namespace ScriptDiff

/-- A script differs in some block. -/
theorem hasDifferences_iff : diff.hasDifferences ↔ ∃ block, diff.Differs block := by
  simp only [hasDifferences, Bool.or_eq_true, any_eq_true, decide_eq_true_eq, Bool.not_eq_true',
    isEmpty_eq_false_iff_exists_mem, Differs, exists_or]
  rw [or_assoc, or_comm, or_assoc]

namespace WellFormed

variable (h : diff.WellFormed)
include h

theorem differingBlocks_eq : diff.differingBlocks =
    diff.paired.filter (0 < ·.changed) ++ (diff.onlyLeft ++ diff.onlyRight) :=
  foldl_addBlock_of_nodup (h.distinct.sublist ((filter_sublist.append_right _).map _))

/-- No differing block hides another. -/
theorem mem_differingBlocks : block ∈ diff.differingBlocks ↔ diff.Differs block := by
  rw [h.differingBlocks_eq]
  simp only [mem_append, mem_filter, decide_eq_true_eq, Differs]
  tauto

theorem nodup_differingBlocks : diff.differingBlocks.Nodup := by
  rw [h.differingBlocks_eq]
  exact .of_map _ (h.distinct.sublist ((filter_sublist.append_right _).map _))

end WellFormed

end ScriptDiff

namespace DiffSet.WellFormed

variable (h : set.WellFormed)
include h

theorem diffOf (script : Script) : (set.diffOf script).WellFormed := by
  unfold DiffSet.diffOf DiffSet.blockDiff?
  cases hdiff : set.blockDiffs.lookup script with
  | none => exact ⟨nodup_nil, by simp [ScriptDiff.differingBlocks]⟩
  | some diff => exact h.diffs _ ((lookup_eq_some_iff_mem h.distinct).1 hdiff)

theorem differs_iff :
    set.Differs pair ↔ ∃ diff, (pair.1, diff) ∈ set.blockDiffs ∧ diff.Differs pair.2 := by
  simp only [← lookup_eq_some_iff_mem h.distinct, Differs, DiffSet.diffOf, DiffSet.blockDiff?]
  cases set.blockDiffs.lookup pair.1 <;> simp [ScriptDiff.Differs]

theorem mem_scriptsWithDifferences :
    script ∈ set.scriptsWithDifferences ↔ (set.diffOf script).hasDifferences := by
  simp only [scriptsWithDifferences, mem_map, mem_filter, Prod.exists, exists_and_right,
    exists_eq_right, ← lookup_eq_some_iff_mem h.distinct, DiffSet.diffOf, DiffSet.blockDiff?]
  cases set.blockDiffs.lookup script <;> simp [ScriptDiff.hasDifferences]

theorem nodup_scriptsWithDifferences : set.scriptsWithDifferences.Nodup :=
  h.distinct.sublist (filter_sublist.map _)

end DiffSet.WellFormed

namespace Scripts

/-! ### Filters -/

/-- A part that is looked for is found in small letters on some side. -/
def Finds {α : Type} (part : Option String) (text : α → String) (sides : Sides α) : Prop :=
  ∀ p ∈ part, ∃ a ∈ sides.toList, p.toList <:+: (Text.lowercase (text a)).toList

theorem isInfix_iff {part cs : List Char} : isInfix part cs ↔ part <:+: cs := by
  induction cs with
  | nil => simp [isInfix]
  | cons c cs ih => rw [isInfix, Bool.or_eq_true, ih, isPrefixOf_iff_prefix, infix_cons_iff]

theorem acceptsScript_iff :
    Filter.acceptsScript filter script ↔ Finds filter.script Path.text script := by
  unfold Filter.acceptsScript Finds
  cases filter.script with
  | none => simp
  | some part =>
    cases script <;> simp [Sides.left?, Sides.right?, Sides.toList, nameHas, isInfix_iff]

theorem acceptsBlock_iff :
    Filter.acceptsBlock filter block ↔ Finds filter.block id block.names := by
  unfold Filter.acceptsBlock sidesHave Finds
  cases filter.block with
  | none => simp
  | some part =>
    cases block.names <;> simp [Sides.left?, Sides.right?, Sides.toList, nameHas, isInfix_iff]

/-- What is to be shown: the differing blocks that the filter lets through. -/
def IsWanted (set : DiffSet) (filter : Filter) (pair : Script × BlockDiff) : Prop :=
  set.Differs pair ∧ Finds filter.script Path.text pair.1 ∧ Finds filter.block id pair.2.names

/-! ### Natural order -/

/-- The key of a block by its place, with its parts compared one after the other. -/
def placeKey (block : BlockDiff) : Int ×ₗ String ×ₗ String :=
  toLex ((positionKey block).1, toLex (positionKey block).2)

def selectedOf (filter : Filter) (script : Script) (diff : ScriptDiff) :
    List (Script × BlockDiff) :=
  ((diff.differingBlocks.mergeSort fun x y => numberedLe (positionKey x) (positionKey y)).filter
    (Filter.acceptsBlock filter)).map fun block => (script, block)

def selectedScripts (set : DiffSet) (filter : Filter) : List Script :=
  (set.scriptsWithDifferences.filter (Filter.acceptsScript filter)).mergeSort
    fun x y => keyLe x.key y.key

def selected (set : DiffSet) (filter : Filter) : List (Script × BlockDiff) :=
  (selectedScripts set filter).flatMap fun script => selectedOf filter script (set.diffOf script)

theorem mem_selectedOf (h : diff.WellFormed) : pair ∈ selectedOf filter script diff ↔
    script = pair.1 ∧ diff.Differs pair.2 ∧ Finds filter.block id pair.2.names := by
  obtain ⟨other, block⟩ := pair
  simp [selectedOf, h.mem_differingBlocks, acceptsBlock_iff, and_comm]

/-- The order of blocks rests on the keys alone, where these tell the blocks apart. -/
theorem selectedOf_congr {diff' : ScriptDiff} (h : diff.WellFormed) (h' : diff'.WellFormed)
    (hsame : ∀ block, diff'.Differs block ↔ diff.Differs block)
    (hkeys : (diff.differingBlocks.map positionKey).Nodup) :
    selectedOf filter script diff' = selectedOf filter script diff := by
  have hperm : diff'.differingBlocks.Perm diff.differingBlocks := by
    refine (perm_ext_iff_of_nodup h'.nodup_differingBlocks
      h.nodup_differingBlocks).2 fun block => ?_
    rw [h'.mem_differingBlocks, h.mem_differingBlocks, hsame]
  have hplaces : (diff.differingBlocks.map placeKey).Nodup := by
    refine .of_map (fun key => ((ofLex key).1, ofLex (ofLex key).2)) ?_
    rw [map_map]
    exact hkeys
  rw [selectedOf, selectedOf, mergeSort_eq_of_perm placeKey
    (fun x y => by simp [numberedLe, keyLe, placeKey, Prod.Lex.toLex_le_toLex]) hperm hplaces]

section Selected

variable (h : set.WellFormed)
include h

theorem selectInOrder_eq : selectInOrder set filter = .ok (selected set filter) := by
  have hall : ∀ script ∈ selectedScripts set filter, (do
      let blocks ← sortByPosition (((set.blockDiff? script).getD {}).differingBlocks)
      return (blocks.filter (Filter.acceptsBlock filter)).map fun block => (script, block) :
        Except Fault (List (Script × BlockDiff))) =
      .ok (selectedOf filter script (set.diffOf script)) := by
    intro script _
    have hplaced : comparable (set.diffOf script).differingBlocks :=
      Bool.or_eq_true_iff.2 (.inl (all_eq_true.2 (h.diffOf script).placed))
    rw [← DiffSet.diffOf, sortByPosition, if_pos hplaced]
    rfl
  unfold selectInOrder
  dsimp only
  rw [← selectedScripts, mapM_eq_ok hall]
  rfl

/-- Just what is wanted is selected. -/
theorem mem_selected : pair ∈ selected set filter ↔ IsWanted set filter pair := by
  simp only [selected, selectedScripts, mem_flatMap, mem_mergeSort, mem_filter, acceptsScript_iff,
    h.mem_scriptsWithDifferences, mem_selectedOf (h.diffOf _), IsWanted, DiffSet.Differs]
  constructor
  · rintro ⟨script, ⟨-, hscript⟩, rfl, hdiffers, hblock⟩
    exact ⟨hdiffers, hscript, hblock⟩
  · rintro ⟨hdiffers, hscript, hblock⟩
    have hany := ScriptDiff.hasDifferences_iff.2 ⟨_, hdiffers⟩
    exact ⟨pair.1, ⟨hany, hscript⟩, rfl, hdiffers, hblock⟩

/-- Nothing is selected twice. -/
theorem nodup_selected : (selected set filter).Nodup := by
  have hscripts : (selectedScripts set filter).Nodup :=
    (mergeSort_perm _ _).nodup_iff.2 (h.nodup_scriptsWithDifferences.filter _)
  refine nodup_flatMap.2 ⟨fun script _ => ?_, hscripts.imp fun hne pair hx hy => hne ?_⟩
  · refine ((Perm.nodup_iff (mergeSort_perm _ _)).2 ?_).filter _ |>.map
      fun x y heq => (Prod.ext_iff.1 heq).2
    exact (h.diffOf script).nodup_differingBlocks
  · rw [((mem_selectedOf (h.diffOf _)).1 hx).1, ((mem_selectedOf (h.diffOf _)).1 hy).1]

/-- What is selected does not depend on the order of the scripts or of their blocks. -/
theorem selected_congr {set' : DiffSet} (h' : set'.WellFormed)
    (hsame : ∀ pair, set'.Differs pair ↔ set.Differs pair) (hkeyed : set.IsKeyed .natural) :
    selected set' filter = selected set filter := by
  have hdiffering : ∀ script ∈ set.scriptsWithDifferences, script ∈ set.differingScripts :=
    fun script hscript => mem_foldl_addScript.2 (.inl hscript)
  have hperm : set'.scriptsWithDifferences.Perm set.scriptsWithDifferences := by
    refine (perm_ext_iff_of_nodup h'.nodup_scriptsWithDifferences
      h.nodup_scriptsWithDifferences).2 fun script => ?_
    rw [h'.mem_scriptsWithDifferences, h.mem_scriptsWithDifferences,
      ScriptDiff.hasDifferences_iff, ScriptDiff.hasDifferences_iff]
    exact exists_congr fun block => hsame (script, block)
  have hkeys : ((set.scriptsWithDifferences.filter (Filter.acceptsScript filter)).map
      fun script : Script => toLex script.key).Nodup := by
    refine (h.nodup_scriptsWithDifferences.filter _).map_on fun x hx y hy hkey => ?_
    exact inj_on_of_nodup_map hkeyed.scripts (hdiffering x (mem_of_mem_filter hx))
      (hdiffering y (mem_of_mem_filter hy)) hkey
  have hscripts : selectedScripts set' filter = selectedScripts set filter :=
    mergeSort_eq_of_perm _ (fun x y => by simp [keyLe, Prod.Lex.toLex_le_toLex])
      (hperm.filter _) hkeys
  rw [selected, selected, hscripts]
  refine flatMap_congr fun script hscript => ?_
  have hblocks := hkeyed.blocks script
    (hdiffering script (mem_of_mem_filter (mem_mergeSort.1 hscript)))
  refine selectedOf_congr (h.diffOf script) (h'.diffOf script)
    (fun block => hsame (script, block)) ?_
  refine .of_map (fun key => ((2 : Nat), key)) ?_
  rw [map_map]
  exact hblocks

end Selected

/-- What was found in natural order, in the order that was asked for. -/
def inOrder (order : SortOrder) (found : List (Script × BlockDiff)) : List (Script × BlockDiff) :=
  match order with
  | .natural => found
  | _ => found.mergeSort (changesLe order)

theorem inOrder_perm (order : SortOrder) (found : List (Script × BlockDiff)) :
    (inOrder order found).Perm found := by
  cases order with
  | natural => exact .refl _
  | changesDescending | changesAscending => exact mergeSort_perm _ _

theorem select_eq (h : set.WellFormed) (order : SortOrder) :
    select set order filter = .ok (inOrder order (selected set filter)) := by
  rw [select, selectInOrder_eq h]
  cases order <;> rfl

/-- The blocks to show. In each order every differing block that the filter lets through is
selected, once, and nothing else, and the orders differ by a permutation. Where scripts and blocks
are told by their sort keys, the lists are the same for every diff set with the same differing
blocks, in whatever order it is stored. -/
theorem select_isDetermined (set : DiffSet) (hset : set.WellFormed) (filter : Filter) :
    ∃ found : SortOrder → List (Script × BlockDiff),
      (∀ order, select set order filter = .ok (found order)) ∧
      (∀ order pair, pair ∈ found order ↔ IsWanted set filter pair) ∧
      (∀ order, (found order).Nodup) ∧
      (∀ order order', (found order).Perm (found order')) ∧
      (set.IsKeyed .natural → ∀ set', set'.WellFormed →
        (∀ pair, set'.Differs pair ↔ set.Differs pair) →
        ∀ order, select set' order filter = .ok (found order)) := by
  refine ⟨fun order => inOrder order (selected set filter), select_eq hset, fun order pair => ?_,
    fun order => (inOrder_perm order _).nodup_iff.2 (nodup_selected hset),
    fun order order' => (inOrder_perm order _).trans (inOrder_perm order' _).symm,
    fun hkeyed set' hset' hsame order => ?_⟩
  · exact (inOrder_perm order _).mem_iff.trans (mem_selected hset)
  · rw [select_eq hset', selected_congr hset hset' hsame hkeyed]

def reversed (set : DiffSet) : DiffSet where
  blockDiffs := (set.blockDiffs.map fun (script, diff) =>
    (script, ⟨diff.paired.reverse, diff.onlyLeft.reverse, diff.onlyRight.reverse⟩)).reverse

theorem differs_reversed (h : set.WellFormed) (h' : (reversed set).WellFormed) :
    (reversed set).Differs pair ↔ set.Differs pair := by
  rw [h'.differs_iff, h.differs_iff]
  simp only [reversed, mem_reverse, mem_map, Prod.exists, Prod.mk.injEq]
  constructor
  · rintro ⟨_, ⟨script, diff, hmem, rfl, rfl⟩, hdiffers⟩
    exact ⟨diff, hmem, by simpa [ScriptDiff.Differs] using hdiffers⟩
  · rintro ⟨diff, hmem, hdiffers⟩
    exact ⟨_, ⟨_, diff, hmem, rfl, rfl⟩, by simpa [ScriptDiff.Differs] using hdiffers⟩

theorem select_menuSet_isDetermined : menuSet.WellFormed ∧ menuSet.IsKeyed .natural ∧
    (reversed menuSet).WellFormed ∧
    ∀ filter, ∃ found : SortOrder → List (Script × BlockDiff),
      (∀ order pair, pair ∈ found order ↔ IsWanted menuSet filter pair) ∧
      ∀ order, select menuSet order filter = .ok (found order) ∧
        select (reversed menuSet) order filter = .ok (found order) := by
  have hmenu : menuSet.WellFormed := by decide +kernel
  have hkeyed : menuSet.IsKeyed .natural := by decide +kernel
  have hreversed : (reversed menuSet).WellFormed := by decide +kernel
  refine ⟨hmenu, hkeyed, hreversed, fun filter => ?_⟩
  obtain ⟨found, hselect, hmem, -, -, hsame⟩ := select_isDetermined menuSet hmenu filter
  exact ⟨found, hmem, fun order => ⟨hselect order,
    hsame hkeyed _ hreversed (fun _ => differs_reversed hmenu hreversed) order⟩⟩

/-- Two blocks with one key are selected in the order they had, so that two orders of one set give
two lists. A part in capital letters is not found in the name that has it, which is searched in
small letters. -/
theorem select_alikeBlocks :
    (loneSet { paired := alikeBlocks }).WellFormed ∧
    (loneSet { paired := alikeBlocks.reverse }).WellFormed ∧
    (∀ pair, (loneSet { paired := alikeBlocks.reverse }).Differs pair ↔
      (loneSet { paired := alikeBlocks }).Differs pair) ∧
    (∀ order, select (loneSet { paired := alikeBlocks.reverse }) order {} ≠
      select (loneSet { paired := alikeBlocks }) order {}) ∧
    select (loneSet { paired := [{ names := .both "F" "F", position := some 0, changed := 1 }] })
      .natural { block := some "F" } = .ok [] := by
  have hset : (loneSet { paired := alikeBlocks }).WellFormed := by decide +kernel
  have hreversed : (loneSet { paired := alikeBlocks.reverse }).WellFormed := by decide +kernel
  refine ⟨hset, hreversed, fun pair => differs_reversed hset hreversed, fun order heq => ?_, ?_⟩
  · cases order <;> exact absurd (congrArg Except.toOption heq) (by cbv; decide)
  · exact eq_ok_of_toOption (by decide +kernel)

end Scripts

end MovieDiff
