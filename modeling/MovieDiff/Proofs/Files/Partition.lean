import MovieDiff.Proofs.Files.FileTree
import MovieDiff.Proofs.Files.Listing

/-!
A comparison divides the files of both directories. Every file that is selected on one side stands
once in the answer: in a change, alone or as equal. A change without a new path has changed lines;
one with a new path is between paths that the other directory lacks. All of it tells of the lines
that are read from the two directories, in whatever order the search goes through the files.
-/
namespace MovieDiff

open List

variable {change : FileChange} {pair : FilePair} {path : Path} {scope : List Path}
  {file : Path × Bytes}

def FileChange.target (change : FileChange) : Path :=
  change.newPath.getD change.path

/-- The files of a directory that are compared: those of a pattern, and of a scope if there is
one. -/
def FileSystem.Selects (fs : FileSystem) (dir : Path) (glob : Glob) (scope : List Path)
    (path : Path) : Prop :=
  path ∈ fs.listFiles dir glob ∧ (scope = [] ∨ ∃ top ∈ scope, path.isWithin top)

structure ListsOnce (paths : List Path) (p : Path → Prop) : Prop where
  nodup : paths.Nodup
  mem_iff : ∀ path, path ∈ paths ↔ p path

/-- What a comparison of two directories says. -/
structure TreeDiff.Divides (diff : TreeDiff) (fs : FileSystem) (left right : Path) (glob : Glob)
    (scope : List Path) : Prop where
  leftFiles : ListsOnce (diff.changes.map FileChange.path ++ diff.onlyLeft ++ diff.equal)
    (fs.Selects left glob scope)
  rightFiles : ListsOnce (diff.changes.map FileChange.target ++ diff.onlyRight ++ diff.equal)
    (fs.Selects right glob scope)
  kept : ∀ change ∈ diff.changes, change.newPath = none → 0 < change.changed ∧
    fs.Selects left glob scope change.path ∧ fs.Selects right glob scope change.path
  moved : ∀ change ∈ diff.changes, ∀ newPath, change.newPath = some newPath →
    change.path ≠ newPath ∧ change.path ∉ fs.listFiles right glob ∧
      newPath ∉ fs.listFiles left glob
  lines : ∀ change ∈ diff.changes, ∃ xs ys, fs.readLines (left ++ change.path) = .ok xs ∧
    fs.readLines (right ++ change.target) = .ok ys ∧
      TextDiff.of xs ys = ⟨change.spans, change.changed⟩
  equal : ∀ path ∈ diff.equal, ∃ lines, fs.readLines (left ++ path) = .ok lines ∧
    fs.readLines (right ++ path) = .ok lines
  onlyLeft : ∀ path ∈ diff.onlyLeft, path ∉ fs.listFiles right glob
  onlyRight : ∀ path ∈ diff.onlyRight, path ∉ fs.listFiles left glob
  unequal : ∀ path ∈ diff.onlyLeft, ∀ other ∈ diff.onlyRight,
    fs.read (left ++ path) ≠ fs.read (right ++ other)

/-! ### Two trees -/

namespace TreeDiff

variable {left right : FileTree} {order : SearchOrder}

/-- Files of one path are changed or equal. -/
theorem commonChanges_append_equalPaths (left right : FileTree) :
    ((commonChanges left right).map FileChange.path ++ equalPaths left right).Perm
      ((FileTree.shared left right).map (·.1.1)) := by
  unfold commonChanges equalPaths FileTree.shared
  induction FileTree.common left right with
  | nil => exact .nil
  | cons file files ih =>
    obtain ⟨path, x, y⟩ := file
    by_cases hchanged : (commonDiff x y).changed = 0
    · rw [filterMap_cons_none (by simp [hchanged]),
        filterMap_cons_some (b := path) (by simp [hchanged])]
      exact perm_middle.trans (ih.cons path)
    · rw [filterMap_cons_some (by simp only [hchanged, ↓reduceIte]; rfl),
        filterMap_cons_none (by simp [hchanged])]
      exact ih.cons path

theorem map_target_commonChanges (left right : FileTree) :
    (commonChanges left right).map FileChange.target =
      (commonChanges left right).map FileChange.path :=
  map_congr_left fun change hchange => by
    obtain ⟨pair, -, rfl, -⟩ := exists_shared_of_mem_commonChanges hchange
    rfl

theorem perm_of_parts {changed moved only equal shared alone all : List Path}
    (hshared : (changed ++ equal).Perm shared) (honly : only.Perm alone)
    (hall : (shared ++ (moved ++ alone)).Perm all) :
    (changed ++ moved ++ only ++ equal).Perm all := by
  have hlast : (changed ++ (moved ++ only ++ equal)).Perm (changed ++ (equal ++ (moved ++ only))) :=
    perm_append_comm.append_left changed
  rw [append_assoc, append_assoc, ← append_assoc moved]
  refine hlast.trans ?_
  rw [← append_assoc]
  exact (hshared.append (honly.append_left moved)).trans hall

/-- Each path is reported once, on either side. -/
theorem paths_perm (order : SearchOrder) (hleft : left.paths.Nodup) (hright : right.paths.Nodup) :
    ((inOrder order left right).changes.map FileChange.path ++ (inOrder order left right).onlyLeft ++
        (inOrder order left right).equal).Perm left.paths ∧
      ((inOrder order left right).changes.map FileChange.target ++
        (inOrder order left right).onlyRight ++ (inOrder order left right).equal).Perm
          right.paths := by
  obtain ⟨pairing, hreports⟩ := exists_reports_inOrder order hleft hright
  obtain ⟨moves, hchanges, hmoves⟩ := hreports.changes
  obtain ⟨hpath, htarget⟩ := map_path_of_tellsMove hmoves
  have hshared := commonChanges_append_equalPaths left right
  have hall := pairing.left_perm.map Prod.fst
  have hall' := pairing.right_perm.map Prod.fst
  have hpaths : (FileTree.shared left right).map (Prod.fst ∘ Prod.snd) =
      (FileTree.shared left right).map (·.1.1) :=
    map_congr_left fun pair hpair => (FileTree.path_eq_of_mem_shared hpair).symm
  rw [hreports.shared, map_append, map_append, map_map, map_map] at hall hall'
  rw [hpaths] at hall'
  rw [hchanges, map_append, map_append, map_target_commonChanges, hpath]
  exact ⟨perm_of_parts hshared hreports.onlyLeft hall,
    perm_of_parts hshared hreports.onlyRight (htarget ▸ hall')⟩

/-- No path is left or reached twice. -/
theorem nodup_changes (order : SearchOrder) (hleft : left.paths.Nodup) (hright : right.paths.Nodup) :
    ((inOrder order left right).changes.map FileChange.path).Nodup ∧
      ((inOrder order left right).changes.map FileChange.target).Nodup := by
  have hpaths := (paths_perm order hleft hright).1.nodup_iff.2 hleft
  have htargets := (paths_perm order hleft hright).2.nodup_iff.2 hright
  rw [append_assoc] at hpaths htargets
  exact ⟨hpaths.sublist (sublist_append_left _ _), htargets.sublist (sublist_append_left _ _)⟩

/-- A change tells what differs between a file of each side, and of what kind it is. -/
structure Explains (left right : FileTree) (change : FileChange) (pair : FilePair) : Prop where
  left_mem : pair.1 ∈ left
  right_mem : pair.2 ∈ right
  path : change.path = pair.1.1
  target : change.target = pair.2.1
  diff : pair.textDiff = ⟨change.spans, change.changed⟩
  kept : change.newPath = none → 0 < change.changed
  moved : ∀ newPath, change.newPath = some newPath → change.path ∉ right.paths ∧
    newPath ∉ left.paths

theorem Explains.path_mem (h : Explains left right change pair) : change.path ∈ left.paths :=
  h.path ▸ mem_map_of_mem h.left_mem

theorem Explains.target_mem (h : Explains left right change pair) : change.target ∈ right.paths :=
  h.target ▸ mem_map_of_mem h.right_mem

/-- Each change is that of two files. -/
theorem exists_explains (hleft : left.paths.Nodup) (hright : right.paths.Nodup)
    (h : change ∈ (inOrder order left right).changes) :
    ∃ pair, Explains left right change pair := by
  obtain ⟨pairing, hreports⟩ := exists_reports_inOrder order hleft hright
  obtain ⟨moves, hchanges, hmoves⟩ := hreports.changes
  rw [hchanges] at h
  rcases mem_append.1 h with h | h
  · obtain ⟨pair, hpair, rfl, hchanged⟩ := exists_shared_of_mem_commonChanges h
    obtain ⟨hmem, hmem'⟩ := FileTree.mem_of_mem_shared hpair
    exact ⟨pair, hmem, hmem', rfl, FileTree.path_eq_of_mem_shared hpair, rfl, fun _ => hchanged,
      fun _ hnone => nomatch hnone⟩
  · obtain ⟨pair, hpair, htells⟩ := exists_of_mem_forall₂ hmoves h
    refine ⟨pair, pairing.subset_left (mem_map_of_mem hpair),
      pairing.subset_right (mem_map_of_mem hpair), htells.path, ?_, htells.diff, ?_, ?_⟩
    · rw [FileChange.target, htells.newPath]
      rfl
    · intro hnone
      cases hnone.symm.trans htells.newPath
    · intro newPath hnew
      cases hnew.symm.trans htells.newPath
      rw [htells.path]
      exact ⟨pairing.moved_left pair hpair, pairing.moved_right pair hpair⟩

theorem exists_shared_of_mem_equalPaths (h : path ∈ equalPaths left right) :
    ∃ pair ∈ FileTree.shared left right, pair.1.1 = path ∧ pair.SameLines := by
  obtain ⟨⟨found, x, y⟩, hfile, hequal⟩ := mem_filterMap.1 h
  dsimp only at hequal
  split at hequal
  next hzero =>
    rw [commonDiff_eq] at hzero
    exact ⟨((found, x), (found, y)), mem_map.2 ⟨(found, x, y), hfile, rfl⟩,
      Option.some.inj hequal, eq_of_changed_eq_zero hzero⟩
  · cases hequal

/-! #### What is left -/

theorem Search.mem_foldl_rename (pairs : List FilePair) (s : Search) :
    (file ∈ (pairs.foldl Search.rename s).left ↔
        file ∈ s.left ∧ file.1 ∉ pairs.map (·.1.1)) ∧
      (file ∈ (pairs.foldl Search.rename s).right ↔
        file ∈ s.right ∧ file.1 ∉ pairs.map (·.2.1)) := by
  induction pairs generalizing s with
  | nil => simp
  | cons pair pairs ih =>
    rw [foldl_cons, (ih _).1, (ih _).2]
    simp [Search.rename, Search.move, FileTree.erasePath, and_assoc]

theorem Search.subset_of_isStep {step : Search → Path × Bytes → Search} (hstep : IsStep step)
    (files : FileTree) (s : Search) :
    (files.foldl step s).left ⊆ s.left ∧ (files.foldl step s).right ⊆ s.right := by
  induction files generalizing s with
  | nil => exact ⟨List.Subset.refl _, List.Subset.refl _⟩
  | cons file files ih =>
    rw [foldl_cons]
    obtain ⟨hleft, hright⟩ := ih (step s file)
    rcases hstep s file with heq | ⟨other, -, heq⟩
    · rw [heq] at hleft hright ⊢
      exact ⟨hleft, hright⟩
    · rw [heq] at hleft hright ⊢
      exact ⟨List.Subset.trans hleft filter_sublist.subset,
        List.Subset.trans hright filter_sublist.subset⟩

theorem search_subset (order : SearchOrder) (left right : FileTree) :
    (search order left right).left ⊆ left.without right ∧
      (search order left right).right ⊆ right.without left := by
  obtain ⟨hleft, hright⟩ := Search.subset_of_isStep (Search.isStep_matchAlike order) _ _
  exact ⟨fun _ hfile => ((Search.mem_foldl_rename _ _).1.1 (hleft hfile)).1,
    fun _ hfile => ((Search.mem_foldl_rename _ _).2.1 (hright hfile)).1⟩

/-- A file that is left alone has its path on its own side only. -/
theorem mem_of_mem_onlyLeft (h : path ∈ (inOrder order left right).onlyLeft) :
    path ∈ left.paths ∧ path ∉ right.paths := by
  obtain ⟨file, hfile, rfl⟩ := mem_map.1 (mem_mergeSort.1 h)
  have hmem := (search_subset order left right).1 hfile
  exact ⟨mem_map_of_mem (mem_of_mem_filter hmem), FileTree.not_mem_of_mem_without hmem⟩

/-- A right file alone has no left one of its path. -/
theorem mem_of_mem_onlyRight (h : path ∈ (inOrder order left right).onlyRight) :
    path ∈ right.paths ∧ path ∉ left.paths := by
  obtain ⟨file, hfile, rfl⟩ := mem_map.1 (mem_mergeSort.1 h)
  have hmem := (search_subset order left right).2 hfile
  exact ⟨mem_map_of_mem (mem_of_mem_filter hmem), FileTree.not_mem_of_mem_without hmem⟩

variable {other : Path × Bytes}

/-- Of two equal files one is renamed, as long as both sides have one. -/
theorem mem_renames_of_equal (order : SearchOrder) (hfile : file ∈ left) (hother : other ∈ right)
    (hequal : file.2 = other.2) :
    file.1 ∈ (renames order left right).map (·.1.1) ∨
      other.1 ∈ (renames order left right).map (·.2.1) := by
  have hcontent : file.2 ∈ order.contents (sharedContents left right) := by
    rw [(order.contents_perm _).mem_iff, sharedContents, mem_filter, mem_eraseDups,
      any_eq_true]
    exact ⟨mem_map_of_mem hfile, other, hother, beq_iff_eq.2 hequal.symm⟩
  have hlisted : file ∈ (order.left left).filter (·.2 == file.2) :=
    mem_filter.2 ⟨(order.left_perm left).mem_iff.2 hfile, beq_self_eq_true _⟩
  have hlisted' : other ∈ (order.right right).filter (·.2 == file.2) :=
    mem_filter.2 ⟨(order.right_perm right).mem_iff.2 hother, beq_iff_eq.2 hequal.symm⟩
  -- The shorter of the two lists is paired as a whole.
  rcases Nat.le_total ((order.left left).filter (·.2 == file.2)).length
    ((order.right right).filter (·.2 == file.2)).length with hle | hle
  · rw [← map_fst_zip hle] at hlisted
    obtain ⟨pair, hpair, hfirst⟩ := mem_map.1 hlisted
    exact .inl (mem_map.2 ⟨pair, mem_flatMap.2 ⟨file.2, hcontent, hpair⟩,
      congrArg Prod.fst hfirst⟩)
  · rw [← map_snd_zip hle] at hlisted'
    obtain ⟨pair, hpair, hsecond⟩ := mem_map.1 hlisted'
    exact .inr (mem_map.2 ⟨pair, mem_flatMap.2 ⟨file.2, hcontent, hpair⟩,
      congrArg Prod.fst hsecond⟩)

/-- No equal files are left on both sides. -/
theorem ne_of_mem_search (hfile : file ∈ (search order left right).left)
    (hother : other ∈ (search order left right).right) : file.2 ≠ other.2 := by
  intro hequal
  obtain ⟨hleft, hright⟩ := Search.subset_of_isStep (Search.isStep_matchAlike order) _ _
  obtain ⟨hfile, hnotRenamed⟩ := (Search.mem_foldl_rename _ _).1.1 (hleft hfile)
  obtain ⟨hother, hnotRenamed'⟩ := (Search.mem_foldl_rename _ _).2.1 (hright hother)
  rcases mem_renames_of_equal order hfile hother hequal with hrenamed | hrenamed
  · exact hnotRenamed hrenamed
  · exact hnotRenamed' hrenamed

end TreeDiff

/-! ### Two directories -/

theorem FileTree.mem_restrict {tree : FileTree} :
    file ∈ tree.restrict scope ↔
      file ∈ tree ∧ (scope = [] ∨ ∃ top ∈ scope, file.1.isWithin top) := by
  unfold restrict
  split
  next hempty => simp [List.isEmpty_iff.1 hempty]
  next hempty =>
    have hne : scope ≠ [] := fun heq => hempty (List.isEmpty_iff.2 heq)
    simp [hne]

theorem FileTree.restrict_sublist (tree : FileTree) (scope : List Path) :
    (tree.restrict scope).Sublist tree := by
  unfold restrict
  split
  · exact List.Sublist.refl tree
  · exact filter_sublist

namespace FileSystem

variable {fs : FileSystem} {dir : Path} {glob : Glob}

theorem nodup_paths_tree : (fs.tree dir glob).paths.Nodup := by
  rw [paths_tree]
  exact nodup_listFiles fs dir glob

theorem nodup_paths_restrict : ((fs.tree dir glob).restrict scope).paths.Nodup :=
  nodup_paths_tree.sublist ((FileTree.restrict_sublist (fs.tree dir glob) scope).map Prod.fst)

theorem mem_paths_restrict :
    path ∈ ((fs.tree dir glob).restrict scope).paths ↔ fs.Selects dir glob scope path := by
  rw [Selects, ← paths_tree, FileTree.mem_paths, FileTree.mem_paths]
  simp only [FileTree.mem_restrict]
  exact exists_and_right

theorem read_of_mem_restrict (h : file ∈ (fs.tree dir glob).restrict scope) :
    fs.read (dir ++ file.1) = .ok file.2 :=
  read_of_mem_tree (FileTree.mem_restrict.1 h).1

theorem readLines_of_mem_restrict (h : file ∈ (fs.tree dir glob).restrict scope) :
    fs.readLines (dir ++ file.1) = .ok file.2.lines :=
  mem_tree (FileTree.mem_restrict.1 h).1

variable {other : Path}

/-- A path that is selected on one side and not on the other is missing there. -/
theorem notMem_listFiles (h : fs.Selects dir glob scope path)
    (hother : path ∉ ((fs.tree other glob).restrict scope).paths) :
    path ∉ fs.listFiles other glob :=
  fun hmem => hother (mem_paths_restrict.2 ⟨hmem, h.2⟩)

theorem listsOnce_of_perm {paths : List Path}
    (h : paths.Perm ((fs.tree dir glob).restrict scope).paths) :
    ListsOnce paths (fs.Selects dir glob scope) :=
  ⟨h.nodup_iff.2 nodup_paths_restrict, fun _ => h.mem_iff.trans mem_paths_restrict⟩

section Explained

variable {left right : Path}
  (h : TreeDiff.Explains ((fs.tree left glob).restrict scope) ((fs.tree right glob).restrict scope)
    change pair)
include h

theorem selects_of_explains :
    fs.Selects left glob scope change.path ∧ fs.Selects right glob scope change.target :=
  ⟨mem_paths_restrict.1 h.path_mem, mem_paths_restrict.1 h.target_mem⟩

theorem missing_of_explains {newPath : Path} (hnew : change.newPath = some newPath) :
    change.path ≠ newPath ∧ change.path ∉ fs.listFiles right glob ∧
      newPath ∉ fs.listFiles left glob := by
  obtain ⟨hselected, hselected'⟩ := selects_of_explains h
  have htarget : change.target = newPath := by rw [FileChange.target, hnew]; rfl
  rw [htarget] at hselected'
  obtain ⟨hpath, hnewPath⟩ := h.moved newPath hnew
  refine ⟨?_, ?_, ?_⟩
  · intro heq
    exact hpath (mem_paths_restrict.2 (heq ▸ hselected'))
  · exact notMem_listFiles hselected hpath
  · exact notMem_listFiles hselected' hnewPath

/-- A change tells how the lines differ. -/
theorem readLines_of_explains :
    ∃ xs ys, fs.readLines (left ++ change.path) = .ok xs ∧
      fs.readLines (right ++ change.target) = .ok ys ∧
        TextDiff.of xs ys = ⟨change.spans, change.changed⟩ := by
  refine ⟨_, _, ?_, ?_, h.diff⟩
  · rw [h.path]
    exact readLines_of_mem_restrict h.left_mem
  · rw [h.target]
    exact readLines_of_mem_restrict h.right_mem

end Explained

theorem readLines_of_mem_equalPaths {left right : Path}
    (h : path ∈ TreeDiff.equalPaths ((fs.tree left glob).restrict scope)
      ((fs.tree right glob).restrict scope)) :
    ∃ lines, fs.readLines (left ++ path) = .ok lines ∧ fs.readLines (right ++ path) = .ok lines := by
  obtain ⟨pair, hpair, rfl, hlines⟩ := TreeDiff.exists_shared_of_mem_equalPaths h
  obtain ⟨hmem, hmem'⟩ := FileTree.mem_of_mem_shared hpair
  refine ⟨_, readLines_of_mem_restrict hmem, ?_⟩
  rw [FileTree.path_eq_of_mem_shared hpair, readLines_of_mem_restrict hmem', hlines]

/-- Files left alone have different contents. -/
theorem read_ne_of_left_alone {order : TreeDiff.SearchOrder} {left right : Path}
    (h : path ∈ (TreeDiff.inOrder order ((fs.tree left glob).restrict scope)
      ((fs.tree right glob).restrict scope)).onlyLeft)
    (h' : other ∈ (TreeDiff.inOrder order ((fs.tree left glob).restrict scope)
      ((fs.tree right glob).restrict scope)).onlyRight) :
    fs.read (left ++ path) ≠ fs.read (right ++ other) := by
  obtain ⟨file, hfile, rfl⟩ := mem_map.1 (mem_mergeSort.1 h)
  obtain ⟨partner, hpartner, rfl⟩ := mem_map.1 (mem_mergeSort.1 h')
  obtain ⟨hleft, hright⟩ := TreeDiff.search_subset order ((fs.tree left glob).restrict scope)
    ((fs.tree right glob).restrict scope)
  rw [read_of_mem_restrict (mem_of_mem_filter (hleft hfile)),
    read_of_mem_restrict (mem_of_mem_filter (hright hpartner))]
  intro hread
  exact TreeDiff.ne_of_mem_search hfile hpartner (Except.ok.inj hread)

/-- Every file of the two directories is accounted for once, for every order of the search, the
listed one of `TreeDiff.of` among them. -/
theorem divides_inOrder (fs : FileSystem) (left right : Path) (glob : Glob) (scope : List Path)
    (order : TreeDiff.SearchOrder) :
    (TreeDiff.inOrder order ((fs.tree left glob).restrict scope)
      ((fs.tree right glob).restrict scope)).Divides fs left right glob scope := by
  have hleft : ((fs.tree left glob).restrict scope).paths.Nodup := nodup_paths_restrict
  have hright : ((fs.tree right glob).restrict scope).paths.Nodup := nodup_paths_restrict
  refine ⟨?_, ?_, ?_, ?_, ?_, ?_, ?_, ?_, ?_⟩
  · exact listsOnce_of_perm (TreeDiff.paths_perm order hleft hright).1
  · exact listsOnce_of_perm (TreeDiff.paths_perm order hleft hright).2
  · intro change hchange hnone
    obtain ⟨pair, hpair⟩ := TreeDiff.exists_explains hleft hright hchange
    have hselected := selects_of_explains hpair
    rw [FileChange.target, hnone] at hselected
    exact ⟨hpair.kept hnone, hselected⟩
  · intro change hchange newPath hnew
    obtain ⟨pair, hpair⟩ := TreeDiff.exists_explains hleft hright hchange
    exact missing_of_explains hpair hnew
  · intro change hchange
    obtain ⟨pair, hpair⟩ := TreeDiff.exists_explains hleft hright hchange
    exact readLines_of_explains hpair
  · exact fun path => readLines_of_mem_equalPaths
  · intro path hpath
    obtain ⟨hmem, hmissing⟩ := TreeDiff.mem_of_mem_onlyLeft hpath
    exact notMem_listFiles (mem_paths_restrict.1 hmem) hmissing
  · intro path hpath
    obtain ⟨hmem, hmissing⟩ := TreeDiff.mem_of_mem_onlyRight hpath
    exact notMem_listFiles (mem_paths_restrict.1 hmem) hmissing
  · exact fun path hpath other hother => read_ne_of_left_alone hpath hother

end FileSystem

end MovieDiff
