import Mathlib
import MovieDiff.Proofs.Display.Groups
import MovieDiff.Proofs.Files.Listing
import MovieDiff.Proofs.Scripts.Tree
import MovieDiff.Scripts.Table

/-!
The rows of the tree of differences. Each node below the root has one row, which comes after the row
of its parent and before those of the parent's next child. Where siblings are told by their keys,
the rows do not depend on the order in which the children of a node are stored.
-/
namespace MovieDiff

open List

variable {block : BlockDiff} {order : SortOrder} {trees : List DiffTree} {tree : DiffTree}
  {set : DiffSet}

namespace Scripts

open DiffTree

variable {above : List NodeLabel}
  {last : NodeLabel}

/-! ### Order -/

def sortKey (order : SortOrder) (tree : DiffTree) : Nat ×ₗ Int ×ₗ String ×ₗ String :=
  let key := nodeKey order tree.label
  toLex (key.1, toLex (key.2.1, toLex key.2.2))

theorem nodeLe_iff (x y : DiffTree) : nodeLe order x y ↔ sortKey order x ≤ sortKey order y := by
  simp [nodeLe, numberedLe, keyLe, sortKey, Prod.Lex.toLex_le_toLex]

@[simp] theorem label_sortTree (order : SortOrder) (tree : DiffTree) :
    (sortTree order tree).label = tree.label := by
  cases tree
  rw [sortTree]
  rfl

/-- Sorting keeps all nodes. -/
theorem inner_sortTree_perm (order : SortOrder) (tree : DiffTree) :
    (sortTree order tree).inner.Perm tree.inner := by
  induction tree using nodes.induct with
  | case1 label children ih =>
    rw [sortTree, inner_node, inner_node]
    refine ((mergeSort_perm _ _).flatMap_right nodes).trans ?_
    rw [flatMap_map]
    refine .flatMap_left children fun tree htree => ?_
    rw [nodes_eq, nodes_eq, label_sortTree]
    exact .cons _ ((ih tree htree).map _)

theorem mem_flatMap_nodes_cons (h : (trees.map label).Nodup) (htree : tree ∈ trees) :
    (tree.label :: above, last) ∈ trees.flatMap nodes ↔ (above, last) ∈ tree.inner := by
  rw [mem_flatMap]
  constructor
  · rintro ⟨other, hother, hmem⟩
    obtain ⟨hlabel, hinner⟩ := mem_nodes_cons.1 hmem
    rwa [inj_on_of_nodup_map h htree hother hlabel]
  · exact fun hinner => ⟨tree, htree, mem_nodes_cons.2 ⟨rfl, hinner⟩⟩

/-- Trees of the same nodes are sorted into the same tree. -/
theorem children_sortTree_eq {other : DiffTree} (h : tree.inner.Nodup) (h' : other.inner.Nodup)
    (hmem : ∀ above last, (above, last) ∈ tree.inner ↔ (above, last) ∈ other.inner)
    (hkeys : ∀ above x y, (above, x) ∈ tree.inner → (above, y) ∈ tree.inner →
      nodeKey order x = nodeKey order y → x = y) :
    (sortTree order tree).children = (sortTree order other).children := by
  induction tree using nodes.induct generalizing other with
  | case1 label trees ih =>
    obtain ⟨label', others⟩ := other
    rw [inner_node, nodup_flatMap_nodes] at h h'
    simp only [inner_node] at hmem hkeys
    have hchild : ∀ x ∈ trees, ∀ y ∈ others, x.label = y.label →
        sortTree order x = sortTree order y := by
      intro x hx y hy hlabel
      have hinner := ih x hx (h.2 x hx) (h'.2 y hy)
        (fun above last => by
          rw [← mem_flatMap_nodes_cons h.1 hx, hmem, hlabel, mem_flatMap_nodes_cons h'.1 hy])
        fun above a b ha hb => hkeys (x.label :: above) a b
          ((mem_flatMap_nodes_cons h.1 hx).2 ha) ((mem_flatMap_nodes_cons h.1 hx).2 hb)
      rw [← label_sortTree order x, ← label_sortTree order y] at hlabel
      generalize sortTree order x = x, sortTree order y = y at hinner hlabel
      cases x
      cases y
      exact congrArg₂ node hlabel hinner
    have hlabels : ∀ last, (∃ x ∈ trees, last = x.label) ↔ ∃ y ∈ others, last = y.label := by
      simpa using hmem []
    have hnodup : ∀ {trees : List DiffTree}, (trees.map DiffTree.label).Nodup →
        (trees.map (sortTree order)).Nodup := by
      intro trees hlabels
      refine .of_map DiffTree.label ?_
      rwa [map_map, (funext (label_sortTree order) : DiffTree.label ∘ sortTree order = _)]
    have hperm : (trees.map (sortTree order)).Perm (others.map (sortTree order)) := by
      refine (perm_ext_iff_of_nodup (hnodup h.1) (hnodup h'.1)).2 fun sorted => ?_
      rw [mem_map, mem_map]
      constructor
      · rintro ⟨x, hx, rfl⟩
        obtain ⟨y, hy, hlabel⟩ := (hlabels x.label).1 ⟨x, hx, rfl⟩
        exact ⟨y, hy, (hchild x hx y hy hlabel).symm⟩
      · rintro ⟨y, hy, rfl⟩
        obtain ⟨x, hx, hlabel⟩ := (hlabels y.label).2 ⟨y, hy, rfl⟩
        exact ⟨x, hx, hchild x hx y hy hlabel.symm⟩
    rw [sortTree, sortTree]
    refine (mergeSort_eq_of_perm _ nodeLe_iff hperm.symm ?_).symm
    rw [map_map]
    refine .map_on (fun x hx y hy hkey => ?_) (.of_map _ h.1)
    have hlabel : x.label = y.label :=
      hkeys [] _ _ (mem_flatMap.2 ⟨x, hx, mem_nodes_nil.2 rfl⟩)
        (mem_flatMap.2 ⟨y, hy, mem_nodes_nil.2 rfl⟩)
        (by simpa [sortKey, Prod.ext_iff] using hkey)
    exact inj_on_of_nodup_map h.1 hx hy hlabel

end Scripts

/-! ### Diff sets that can be shown -/

open Scripts

theorem mem_of_mem_foldl_addBlock {blocks known : List BlockDiff}
    (h : block ∈ blocks.foldl addBlock known) : block ∈ known ∨ block ∈ blocks := by
  induction blocks generalizing known with
  | nil => exact .inl h
  | cons first rest ih =>
    rcases ih h with hknown | hrest
    · unfold addBlock at hknown
      split at hknown
      · exact .inl hknown
      · exact (mem_append.1 hknown).imp_right fun hfirst =>
          mem_cons.2 (.inl (mem_singleton.1 hfirst))
    · exact .inr (mem_cons_of_mem first hrest)

/-- A block on the left side only has a name, and those on one side only are not paired. In natural
order all have a place or none has one. -/
structure ScriptDiff.FitsTable (diff : ScriptDiff) (order : SortOrder) : Prop where
  named : ∀ block ∈ diff.differingBlocks, block.names ≠ .left ""
  unpaired : ∀ block ∈ diff.onlyLeft ++ diff.onlyRight, ¬ block.names.isPaired
  placed : order = .natural → comparable diff.differingBlocks

instance (diff : ScriptDiff) (order : SortOrder) : Decidable (diff.FitsTable order) :=
  decidable_of_iff ((∀ block ∈ diff.differingBlocks, block.names ≠ .left "") ∧
      (∀ block ∈ diff.onlyLeft ++ diff.onlyRight, ¬ block.names.isPaired) ∧
      (order = .natural → comparable diff.differingBlocks))
    ⟨fun h => ⟨h.1, h.2.1, h.2.2⟩, fun h => ⟨h.named, h.unpaired, h.placed⟩⟩

def DiffSet.FitsTable (set : DiffSet) (order : SortOrder) : Prop :=
  ∀ script ∈ set.differingScripts, (set.diffOf script).FitsTable order

instance (set : DiffSet) (order : SortOrder) : Decidable (set.FitsTable order) :=
  inferInstanceAs (Decidable (∀ script ∈ set.differingScripts, _))

/-- Scripts, and the blocks of each, are told by the keys that they are sorted by. -/
structure DiffSet.IsKeyed (set : DiffSet) (order : SortOrder) : Prop where
  scripts : (set.differingScripts.map Script.key).Nodup
  blocks : ∀ script ∈ set.differingScripts,
    ((set.blocksOf script).map fun block => nodeKey order (.block block)).Nodup

instance (set : DiffSet) (order : SortOrder) : Decidable (set.IsKeyed order) :=
  decidable_of_iff ((set.differingScripts.map Script.key).Nodup ∧
      ∀ script ∈ set.differingScripts,
        ((set.blocksOf script).map fun block => nodeKey order (.block block)).Nodup)
    ⟨fun h => ⟨h.1, h.2⟩, fun h => ⟨h.scripts, h.blocks⟩⟩

/-- No differing block divides by zero, nor is one without a title. -/
theorem ScriptDiff.FitsTable.exists_nodeCells {diff : ScriptDiff}
    (h : diff.FitsTable order) (hblock : block ∈ diff.differingBlocks) :
    ∃ cells, nodeCells (.block block) = .ok cells := by
  have hnamed := h.named block hblock
  have hchanged : block.names.isPaired → block.changed ≠ 0 := by
    intro hpaired
    rcases mem_of_mem_foldl_addBlock hblock with hchanged | hone
    · exact Nat.ne_of_gt (of_decide_eq_true (mem_filter.1 hchanged).2)
    · exact absurd hpaired (h.unpaired block hone)
  unfold nodeCells changeCells
  cases hnames : block.names with
  | left name =>
    have hname : name.isEmpty = false := by simpa [hnames, String.isEmpty_iff] using hnamed
    simp [hnames, namesTitle, hname, bind, Except.bind, pure, Except.pure]
  | right name => simp [hnames, namesTitle, bind, Except.bind, pure, Except.pure]
  | both left right =>
    have hne : block.changed ≠ 0 := hchanged (by rw [hnames, Sides.isPaired])
    simp [hnames, namesTitle, hne, bind, Except.bind, pure, Except.pure]

/-- What is shown below certain labels is told by its key. -/
theorem DiffSet.IsKeyed.eq_of_key_eq (h : set.IsKeyed order) {above : List NodeLabel}
    {x y : NodeLabel} (hx : set.Shows above x) (hy : set.Shows above y)
    (hkey : nodeKey order x = nodeKey order y) : x = y := by
  obtain ⟨script, hscript, hx⟩ := hx
  obtain ⟨other, hother, hy⟩ := hy
  rcases hx.cases with ⟨name, rfl⟩ | rfl | ⟨rfl, block, hblock, rfl⟩ <;>
    rcases hy.cases with ⟨name', rfl⟩ | rfl | ⟨htrail, block', hblock', rfl⟩ <;>
    simp only [nodeKey] at hkey
  · simpa using hkey
  · simp at hkey
  · cases order <;> simp at hkey
  · simp at hkey
  · rw [inj_on_of_nodup_map h.scripts hscript hother (by simpa using hkey)]
  · cases order <;> simp at hkey
  · cases order <;> simp at hkey
  · cases order <;> simp at hkey
  · obtain rfl := Script.trail_injective htrail
    rw [inj_on_of_nodup_map (h.blocks script hscript) hblock hblock' hkey]

namespace DiffSet.FitsTable

variable (h : set.FitsTable order)
  {above : List NodeLabel} {last : NodeLabel}
include h

/-- Every node that is shown has its cells. -/
theorem exists_cells (hlast : set.Shows above last) :
    last ≠ .root ∧ ∃ cells, nodeCells last = .ok cells := by
  obtain ⟨script, hscript, hlast⟩ := hlast
  rcases hlast.cases with ⟨name, rfl⟩ | rfl | ⟨-, block, hblock, rfl⟩
  · exact ⟨NodeLabel.noConfusion, _, rfl⟩
  · exact ⟨NodeLabel.noConfusion, _, rfl⟩
  · exact ⟨NodeLabel.noConfusion, (h script hscript).exists_nodeCells hblock⟩

theorem checkSiblings_eq_ok (htrees : ∀ tree ∈ trees, set.Shows above tree.label) :
    checkSiblings order trees = .ok () := by
  have hroot : (trees.any fun tree => tree.label == .root) = false := by
    rw [any_eq_false]
    intro tree htree hlabel
    exact (h.exists_cells (htrees tree htree)).1 (beq_iff_eq.1 hlabel)
  have hblocks : ∀ block ∈ Scripts.blocksOf trees, ∃ script ∈ set.differingScripts,
      above = script.trail ∧ block ∈ set.blocksOf script := by
    intro block hblock
    obtain ⟨tree, htree, hlabel⟩ := mem_filterMap.1 hblock
    obtain ⟨script, hscript, hbranch⟩ := htrees tree htree
    refine ⟨script, hscript, ?_⟩
    split at hlabel
    next heq => simpa [heq, Option.some.inj hlabel] using hbranch.cases
    · cases hlabel
  have hplaced : order = .natural → comparable (Scripts.blocksOf trees) := by
    intro horder
    cases hfound : Scripts.blocksOf trees with
    | nil => rfl
    | cons first rest =>
      rw [hfound] at hblocks
      obtain ⟨script, hscript, rfl, -⟩ := hblocks first mem_cons_self
      have hsub : first :: rest ⊆ set.blocksOf script := by
        intro block hblock
        obtain ⟨other, -, htrail, hmem⟩ := hblocks block hblock
        rwa [Script.trail_injective htrail]
      have hplaced := (h script hscript).placed horder
      rw [comparable, Bool.or_eq_true, all_eq_true, all_eq_true] at hplaced ⊢
      exact hplaced.imp (fun hall block hblock => hall block (hsub hblock))
        fun hall block hblock => hall block (hsub hblock)
  unfold checkSiblings
  rw [hroot, if_neg Bool.false_ne_true, if_neg]
  simpa using hplaced

end DiffSet.FitsTable

namespace Scripts

open DiffTree

/-! ### Rows -/

/-- Whether a row tells of a node: after the line art its title, its state and its further cells. -/
def IsRow (found : List NodeLabel × NodeLabel) (row : Row) : Prop :=
  ∃ art title state cells, nodeCells found.2 = .ok (title, state, cells) ∧
    row = [art ++ title, s!"[italic]{state}[/italic]"] ++ cells

section Rows

variable (h : set.FitsTable order)
include h

/-- A tree that can be shown has a row for each node, in the order of the nodes. -/
theorem exists_rowsOf (above : List NodeLabel)
    (htree : ∀ n ∈ tree.nodes, set.Shows (above ++ n.1) n.2) (branch : Branch) :
    ∃ rows, rowsOf order branch tree = .ok rows ∧ Forall₂ IsRow tree.nodes rows := by
  induction tree using nodes.induct generalizing above branch with
  | case1 label children ih =>
    rw [nodes] at htree ⊢
    rw [forall_mem_cons, forall_mem_map] at htree
    have hchild : ∀ tree ∈ children, ∀ n ∈ tree.nodes, set.Shows (above ++ [label] ++ n.1) n.2 := by
      intro tree hmem n hn
      rw [append_assoc]
      exact htree.2 n (mem_flatMap.2 ⟨tree, hmem, hn⟩)
    have hall : ∀ trees, trees ⊆ children → ∃ rows, rowsOfAll order branch trees = .ok rows ∧
        Forall₂ IsRow (trees.flatMap nodes) rows := by
      intro trees htrees
      induction trees with
      | nil => exact ⟨[], rfl, .nil⟩
      | cons tree trees ih' =>
        obtain ⟨hmem, hrest⟩ := cons_subset.1 htrees
        obtain ⟨rows, hrows, hare⟩ := ih tree hmem _ (hchild tree hmem) (branch.child trees.isEmpty)
        obtain ⟨others, hothers, hare'⟩ := ih' hrest
        refine ⟨rows ++ others, ?_, rel_append hare hare'⟩
        rw [rowsOfAll, hrows, hothers]
        rfl
    have hsiblings : checkSiblings order children = .ok () :=
      h.checkSiblings_eq_ok fun tree hmem => by
        simpa using hchild tree hmem ([], tree.label) (mem_nodes_nil.2 rfl)
    obtain ⟨-, ⟨title, state, cells⟩, hcells⟩ := h.exists_cells htree.1
    obtain ⟨rows, hrows, hare⟩ := hall children (List.Subset.refl _)
    refine ⟨([branch.own ++ title, s!"[italic]{state}[/italic]"] ++ cells) :: rows, ?_,
      .cons ⟨_, _, _, _, hcells, rfl⟩ (forall₂_map_left_iff.2 hare)⟩
    rw [rowsOf, hcells, hsiblings, hrows]
    rfl

/-- A sorted tree gives a row for each node. -/
theorem exists_tableRows (htree : (sortTree order tree).Summarizes set) :
    ∃ rows, tableRows order tree = .ok rows ∧
      Forall₂ IsRow (sortTree order tree).inner rows := by
  unfold tableRows
  have hshown : ∀ child ∈ (sortTree order tree).children, ∀ n ∈ child.nodes, set.Shows n.1 n.2 :=
    fun child hchild n hn => (htree.mem_iff _ _).1 (mem_flatMap.2 ⟨child, hchild, hn⟩)
  have hsiblings : checkSiblings order (sortTree order tree).children = .ok () :=
    h.checkSiblings_eq_ok fun child hchild => hshown child hchild ([], _) (mem_nodes_nil.2 rfl)
  unfold DiffTree.inner
  generalize (sortTree order tree).children = trees at hshown hsiblings ⊢
  have hall : ∀ child ∈ trees, ∃ rows, rowsOf order .top child = .ok rows ∧
      Forall₂ IsRow child.nodes rows :=
    fun child hchild => exists_rowsOf h [] (hshown child hchild) _
  choose! rows hrows hare using hall
  refine ⟨trees.flatMap rows, ?_, ?_⟩
  · simp only [hsiblings, mapM_eq_ok hrows]
    rfl
  · have hsame : Forall₂ (fun x y => x = y ∧ x ∈ trees) trees trees :=
      forall₂_same.2 fun tree htree => ⟨rfl, htree⟩
    exact rel_flatMap hsame fun tree _ heq => heq.1 ▸ hare tree heq.2

end Rows

/-- The tree of a diff set has each directory, script and block that is to be shown once. Where the
table can be filled, the rows of every such tree tell of these nodes, each parent before its
children and child after child. Where siblings are told by their keys, all such trees give the same
rows. -/
theorem tableRows_summarizes {set : DiffSet} (hscripts : set.differingScripts.Nodup)
    (hblocks : ∀ script ∈ set.differingScripts, (set.blocksOf script).Nodup) :
    (ofDiffSet set).Summarizes set ∧ ∀ order, set.FitsTable order →
      (∀ tree : DiffTree, tree.Summarizes set → ∃ sorted rows, Summarizes sorted set ∧
        Forall₂ IsRow sorted.inner rows ∧ tableRows order tree = .ok rows) ∧
      (set.IsKeyed order → ∀ tree tree' : DiffTree, tree.Summarizes set → tree'.Summarizes set →
        tableRows order tree = tableRows order tree') := by
  have hfold := foldl_insertAt hscripts hblocks rfl
  refine ⟨⟨hfold.1, hfold.2⟩, fun order hfits => ⟨fun tree htree => ?_, ?_⟩⟩
  · have hperm := inner_sortTree_perm order tree
    have hsorted : (sortTree order tree).Summarizes set := ⟨hperm.nodup_iff.2 htree.nodup,
      fun above last => hperm.mem_iff.trans (htree.mem_iff above last)⟩
    obtain ⟨rows, hrows, hare⟩ := exists_tableRows hfits hsorted
    exact ⟨_, rows, hsorted, hare, hrows⟩
  · intro hkeyed tree tree' htree htree'
    rw [tableRows, tableRows, children_sortTree_eq htree.nodup htree'.nodup]
    · intro above last
      rw [htree.mem_iff, htree'.mem_iff]
    · intro above x y hx hy
      exact hkeyed.eq_of_key_eq ((htree.mem_iff _ _).1 hx) ((htree.mem_iff _ _).1 hy)

def scriptAt (path : String) : Script :=
  .both (Path.ofString path) (Path.ofString path)

/-- Two scripts in one directory, and another one on the left side only. -/
def menuSet : DiffSet where
  onlyLeft := [.left (Path.ofString "ui/Map")]
  blockDiffs := [
    (scriptAt "ui/hud/Bar", { onlyRight := [{ names := .right "g", position := some 0 }] }),
    (scriptAt "ui/hud/Menu", {
      paired := [{ names := .both "f" "g", position := some 1, changed := 2 },
        { names := .both "h" "h", position := some 2 }]
      onlyLeft := [{ names := .left "g", position := some 0 }]
      onlyRight := [{ names := .right "g", position := some 0 }] })]

theorem tableRows_menuSet : (ofDiffSet menuSet).Summarizes menuSet ∧ menuSet.FitsTable .natural ∧
    menuSet.IsKeyed .natural ∧ ∃ sorted rows, Summarizes sorted menuSet ∧
      Forall₂ IsRow sorted.inner rows ∧
      ∀ tree : DiffTree, tree.Summarizes menuSet → tableRows .natural tree = .ok rows := by
  have hfits : menuSet.FitsTable .natural := by decide +kernel
  have hkeyed : menuSet.IsKeyed .natural := by decide +kernel
  obtain ⟨hset, htable⟩ := tableRows_summarizes (.of_map _ hkeyed.scripts) fun script hscript =>
    .of_map _ (hkeyed.blocks script hscript)
  obtain ⟨hrows, hsame⟩ := htable .natural hfits
  obtain ⟨sorted, rows, hsorted, hare, hfilled⟩ := hrows _ hset
  exact ⟨hset, hfits, hkeyed, sorted, rows, hsorted, hare, fun tree htree =>
    (hsame hkeyed tree _ htree hset).trans hfilled⟩

def loneSet (diff : ScriptDiff) : DiffSet where
  blockDiffs := [(scriptAt "A", diff)]

/-- Two blocks of one place with one key, in which a missing name counts as an empty one. -/
def alikeBlocks : List BlockDiff :=
  [{ names := .left "f", position := some 0, changed := 1, refined := 1 },
    { names := .both "f" "", position := some 0, changed := 1, refined := 1 }]

def loneTree (blocks : List BlockDiff) : DiffTree :=
  .node .root [.node (.script (scriptAt "A")) (blocks.map fun block => .node (.block block) [])]

/-- A table cannot be filled with two blocks of which one has a place, in natural order, nor with a
block on the left side that has no name. Two blocks with one key come in the order they had. -/
theorem tableRows_loneSet :
    tableRows .natural (ofDiffSet (loneSet { paired := [
      { names := .both "f" "f", position := some 0, changed := 2 },
      { names := .both "g" "g", changed := 1 }] })) = .error .incomparablePositions ∧
    (∀ order, tableRows order (ofDiffSet (loneSet { onlyLeft := [{ names := .left "" }] })) =
      .error .untitledBlock) ∧
    (loneSet { paired := alikeBlocks }).FitsTable .natural ∧
    ofDiffSet (loneSet { paired := alikeBlocks }) = loneTree alikeBlocks ∧
    (loneTree alikeBlocks.reverse).inner.Perm (loneTree alikeBlocks).inner ∧
    tableRows .natural (loneTree alikeBlocks.reverse) ≠
      tableRows .natural (loneTree alikeBlocks) := by
  have hkept : sortTree .natural (loneTree alikeBlocks) = loneTree alikeBlocks := by cbv
  have hkept' : sortTree .natural (loneTree alikeBlocks.reverse) =
      loneTree alikeBlocks.reverse := by cbv
  refine ⟨by cbv, fun order => ?_, by decide +kernel, by cbv, ?_, fun heq => ?_⟩
  · cases order <;> cbv
  · cbv
    decide
  · rw [tableRows, tableRows, hkept, hkept'] at heq
    exact absurd (congrArg Except.toOption heq) (by decide +kernel)

end Scripts

end MovieDiff
