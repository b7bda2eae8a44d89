import Mathlib.Data.List.Induction
import Mathlib.Data.List.Nodup
import MovieDiff.Scripts.Tree

/-!
The nodes of the tree of differences. Each script that is put in makes a branch: the directories of
its path, then the script, then its differing blocks. Branches share directories, so the tree of a
diff set has every node of every branch once.
-/
namespace MovieDiff

open List

/-- The labels from below the root to a script: the directories of its path and the script. -/
def Script.trail (script : Script) : List NodeLabel :=
  script.first.parent.parts.map .directory ++ [.script script]

/-- Scripts are told by their trails. -/
theorem Script.trail_injective {script other : Script} (h : script.trail = other.trail) :
    script = other := by
  simpa [trail] using congrArg List.getLast? h

namespace DiffSet

def diffOf (set : DiffSet) (script : Script) : ScriptDiff :=
  (set.blockDiff? script).getD {}

def blocksOf (set : DiffSet) (script : Script) : List BlockDiff :=
  (set.diffOf script).differingBlocks

/-- Whether a node below certain labels is on the way to a script, or a differing block of it. -/
def OnBranch (set : DiffSet) (script : Script) (above : List NodeLabel) (last : NodeLabel) : Prop :=
  above ++ [last] <+: script.trail ∨
    above = script.trail ∧ ∃ block ∈ set.blocksOf script, last = .block block

def Shows (set : DiffSet) (above : List NodeLabel) (last : NodeLabel) : Prop :=
  ∃ script ∈ set.differingScripts, set.OnBranch script above last

variable {set : DiffSet} {script : Script} {above : List NodeLabel} {last : NodeLabel}

theorem OnBranch.cases (h : set.OnBranch script above last) : (∃ name, last = .directory name) ∨
    last = .script script ∨
      above = script.trail ∧ ∃ block ∈ set.blocksOf script, last = .block block := by
  rcases h with h | h
  · have hlast := h.subset (mem_append_right above (mem_singleton_self last))
    rw [Script.trail, mem_append, mem_map, mem_singleton] at hlast
    exact hlast.imp (fun ⟨name, _, hname⟩ => ⟨name, hname.symm⟩) .inl
  · exact .inr (.inr h)

end DiffSet

namespace DiffTree

/-- The nodes of a tree, each with the labels above it; a node comes before those below it. -/
def nodes : DiffTree → List (List NodeLabel × NodeLabel)
  | node label children =>
    ([], label) :: (children.flatMap nodes).map fun found => (label :: found.1, found.2)

def inner (tree : DiffTree) : List (List NodeLabel × NodeLabel) :=
  tree.children.flatMap nodes

/-- Whether a tree has the nodes that are to be shown, each once. -/
structure Summarizes (tree : DiffTree) (set : DiffSet) : Prop where
  nodup : tree.inner.Nodup
  mem_iff : ∀ above last, (above, last) ∈ tree.inner ↔ set.Shows above last

variable {tree leaf : DiffTree} {trees children : List DiffTree} {above : List NodeLabel}
  {first last : NodeLabel}

@[simp] theorem label_node : (node first children).label = first := rfl

@[simp] theorem inner_node : (node first children).inner = children.flatMap nodes := rfl

theorem nodes_eq : tree.nodes =
    ([], tree.label) :: tree.inner.map fun found => (tree.label :: found.1, found.2) := by
  cases tree
  rw [nodes]
  rfl

@[simp] theorem mem_nodes_nil : ([], last) ∈ tree.nodes ↔ last = tree.label := by
  simp [nodes_eq]

@[simp] theorem mem_nodes_cons :
    (first :: above, last) ∈ tree.nodes ↔ first = tree.label ∧ (above, last) ∈ tree.inner := by
  simp [nodes_eq, and_comm, eq_comm]

theorem isDirectory_iff {dir : String} : tree.isDirectory dir ↔ tree.label = .directory dir :=
  beq_iff_eq

theorem nodup_nodes : tree.nodes.Nodup ↔ tree.inner.Nodup := by
  have hinj : Function.Injective fun found : List NodeLabel × NodeLabel =>
      (tree.label :: found.1, found.2) := by
    rintro ⟨_, _⟩ ⟨_, _⟩ h
    simpa using h
  simp [nodes_eq, nodup_map_iff hinj]

theorem disjoint_nodes {other : DiffTree} :
    tree.nodes.Disjoint other.nodes ↔ tree.label ≠ other.label := by
  constructor
  · intro h heq
    exact h (mem_nodes_nil.2 rfl) (mem_nodes_nil.2 heq)
  · rintro hne ⟨above, last⟩ h h'
    cases above with
    | nil => exact hne ((mem_nodes_nil.1 h).symm.trans (mem_nodes_nil.1 h'))
    | cons first above => exact hne ((mem_nodes_cons.1 h).1.symm.trans (mem_nodes_cons.1 h').1)

/-- Nodes are there once when no two siblings have one label. -/
theorem nodup_flatMap_nodes : (trees.flatMap nodes).Nodup ↔
    (trees.map label).Nodup ∧ ∀ tree ∈ trees, tree.inner.Nodup := by
  have hlabels : (trees.map label).Nodup ↔ trees.Pairwise fun x y => x.label ≠ y.label :=
    pairwise_map
  rw [nodup_flatMap, and_comm, hlabels]
  exact and_congr (List.Pairwise.iff fun _ _ => disjoint_nodes)
    (forall₂_congr fun _ _ => nodup_nodes)

/-! ### Insertion -/

theorem nodup_append (h : (trees.flatMap nodes).Nodup) (htree : tree.inner.Nodup)
    (hnew : tree.label ∉ trees.map label) : ((trees ++ [tree]).flatMap nodes).Nodup := by
  rw [nodup_flatMap_nodes] at h ⊢
  rw [map_append, map_singleton, ← concat_eq_append, nodup_concat,
    forall_mem_append, forall_mem_singleton]
  exact ⟨⟨hnew, h.1⟩, h.2, htree⟩

theorem insertAt_nil (dir : String) (dirs : List String) :
    insertAt leaf (dir :: dirs) [] = [node (.directory dir) (insertAt leaf dirs [])] := by
  simp [insertAt]

/-- What is put below directories is added to what is there. -/
theorem mem_insertAt (dirs : List String) :
    (above, last) ∈ (insertAt leaf dirs trees).flatMap nodes ↔
      (above, last) ∈ trees.flatMap nodes ∨
        (above, last) ∈ (insertAt leaf dirs []).flatMap nodes := by
  induction dirs generalizing trees above with
  | nil => simp [insertAt]
  | cons dir dirs ih =>
    rw [insertAt_nil, insertAt]
    split
    next hany =>
      have hone : ∀ tree : DiffTree, (above, last) ∈ (if tree.isDirectory dir then
            node tree.label (insertAt leaf dirs tree.children) else tree).nodes ↔
          (above, last) ∈ tree.nodes ∨ tree.isDirectory dir ∧
            (above, last) ∈ (node (.directory dir) (insertAt leaf dirs [])).nodes := by
        rintro ⟨label, children⟩
        split
        next hdir =>
          obtain rfl : label = _ := isDirectory_iff.1 hdir
          cases above with
          | nil => simp
          | cons first above =>
            rw [mem_nodes_cons, mem_nodes_cons, mem_nodes_cons, inner_node, inner_node, inner_node]
            rw [DiffTree.children, ih]
            simp [hdir, and_or_left]
        next hdir => simp [hdir]
      obtain ⟨known, hknown, hdir⟩ := any_eq_true.1 hany
      simp only [flatMap_map, mem_flatMap, hone, mem_singleton, exists_eq_left,
        and_or_left, exists_or]
      refine or_congr_right ⟨?_, fun h => ⟨known, hknown, hdir, h⟩⟩
      rintro ⟨_, _, _, h⟩
      exact h
    · simp

/-- Inserting a leaf repeats no node. -/
theorem nodup_insertAt (dirs : List String) (h : (trees.flatMap nodes).Nodup)
    (hleaf : leaf.inner.Nodup)
    (hnew : (dirs.map .directory, leaf.label) ∉ trees.flatMap nodes) :
    ((insertAt leaf dirs trees).flatMap nodes).Nodup := by
  induction dirs generalizing trees with
  | nil => exact nodup_append h hleaf fun hmem => hnew (by simpa [eq_comm] using hmem)
  | cons dir dirs ih =>
    rw [insertAt]
    split
    · rw [nodup_flatMap_nodes] at h ⊢
      constructor
      · rw [map_map]
        convert h.1 using 2
        funext tree
        dsimp only [Function.comp]
        split <;> rfl
      · rw [forall_mem_map]
        intro tree htree
        split
        next hdir =>
          refine ih (h.2 tree htree) fun hmem => hnew (mem_flatMap.2 ⟨tree, htree, ?_⟩)
          exact mem_nodes_cons.2 ⟨(isDirectory_iff.1 hdir).symm, hmem⟩
        · exact h.2 tree htree
    next hnone =>
      refine nodup_append h (ih nodup_nil (by simp)) fun hmem => hnone ?_
      simpa [isDirectory] using hmem

/-- A script that is put below the directories of its path makes a branch. -/
theorem mem_insertAt_ofScript (set : DiffSet) (script : Script) :
    (above, last) ∈ (insertAt (ofScript set script) script.first.parent.parts []).flatMap nodes ↔
      set.OnBranch script above last := by
  unfold DiffSet.OnBranch Script.trail
  induction script.first.parent.parts generalizing above with
  | nil =>
    cases above with
    | nil => simp [insertAt, ofScript]
    | cons first above =>
      cases above <;> simp [insertAt, ofScript, DiffSet.blocksOf, DiffSet.diffOf, flatMap_map]
  | cons dir dirs ih =>
    rw [insertAt_nil]
    cases above with
    | nil => simp
    | cons first above => simp [ih, and_or_left, and_assoc]

/-- Scripts that are put in one after the other. -/
theorem foldl_insertAt {set : DiffSet} {scripts : List Script} (hscripts : scripts.Nodup)
    (hblocks : ∀ script ∈ scripts, (set.blocksOf script).Nodup) {trees : List DiffTree}
    (htrees : scripts.foldl (fun trees script =>
      insertAt (ofScript set script) script.first.parent.parts trees) [] = trees) :
    (trees.flatMap nodes).Nodup ∧ ∀ above last, (above, last) ∈ trees.flatMap nodes ↔
      ∃ script ∈ scripts, set.OnBranch script above last := by
  induction scripts using List.reverseRecOn generalizing trees with
  | nil => simp [← htrees]
  | append_singleton scripts script ih =>
    rw [← concat_eq_append, nodup_concat] at hscripts
    rw [forall_mem_append, forall_mem_singleton] at hblocks
    rw [foldl_append, foldl_cons, foldl_nil] at htrees
    obtain ⟨hnodup, hmem⟩ := ih hscripts.2 hblocks.1 rfl
    subst htrees
    refine ⟨nodup_insertAt _ hnodup ?_ fun hold => ?_, fun above last => ?_⟩
    · unfold ofScript
      rw [inner_node, nodup_flatMap_nodes, map_map, forall_mem_map]
      exact ⟨hblocks.2.map fun _ _ => NodeLabel.block.inj, fun _ _ => nodup_nil⟩
    · obtain ⟨other, hother, hbranch⟩ := (hmem _ _).1 hold
      obtain rfl : script = other := by simpa [ofScript] using hbranch.cases
      exact hscripts.1 hother
    · rw [mem_insertAt, hmem, mem_insertAt_ofScript]
      simp [or_and_right, exists_or]

end DiffTree

end MovieDiff
