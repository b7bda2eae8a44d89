import Mathlib.Data.List.Nodup
import Mathlib.Data.List.Zip
import MovieDiff.Files.FileTree
import MovieDiff.Proofs.Matching.EditScript
import MovieDiff.Proofs.Results

/-!
Comparing two trees of files. Main statement: the comparison pairs files of the two trees one to
one, files of one path first and then files that moved, and what it reports is that pairing; no
file of either tree is lost, and a pair that is reported without a changed line has the same lines
on both sides. This holds for every order of the search.
-/
namespace MovieDiff

open List

variable {α β : Type} {path : Path} {file : Path × Bytes} {files left right : FileTree}
  {pair : FilePair} {y : Bytes} {moved : List FilePair}

/-- Where each key occurs once, every entry is the one found for its key. -/
theorem lookup_eq_some_iff_mem [BEq α] [LawfulBEq α] {entries : List (α × β)}
    (h : (entries.map Prod.fst).Nodup) {key : α} {value : β} :
    entries.lookup key = some value ↔ (key, value) ∈ entries := by
  induction entries with
  | nil => simp
  | cons entry entries ih =>
    obtain ⟨first, found⟩ := entry
    rw [map_cons, nodup_cons] at h
    by_cases heq : key = first
    · subst heq
      have hnone : (key, value) ∉ entries := fun hmem =>
        h.1 (mem_map.2 ⟨(key, value), hmem, rfl⟩)
      simp [hnone, eq_comm]
    · have hbeq : (key == first) = false := by simpa using heq
      simp [lookup_cons, hbeq, heq, ih h.2]

namespace FilePair

def SameLines (pair : FilePair) : Prop :=
  pair.1.2.lines = pair.2.2.lines

def textDiff (pair : FilePair) : TextDiff :=
  TextDiff.of pair.1.2.lines pair.2.2.lines

end FilePair

namespace FileTree

theorem mem_paths : path ∈ files.paths ↔ ∃ content, (path, content) ∈ files := by
  simp [paths]

theorem isSome_lookup (files : FileTree) (path : Path) :
    (files.lookup path).isSome = files.paths.contains path := by
  rw [Bool.eq_iff_iff, lookup_isSome_iff]
  simp [paths]

theorem nodup_of_paths (h : files.paths.Nodup) : files.Nodup :=
  h.of_map _

/-- Only one file goes when the path of a file is taken away. -/
theorem cons_erasePath_perm (h : files.paths.Nodup) (hmem : file ∈ files) :
    (file :: files.erasePath file.1).Perm files := by
  have herase : files.erasePath file.1 = files.erase file := by
    rw [(nodup_of_paths h).erase_eq_filter]
    refine filter_congr fun other hother => ?_
    have hpath : other.1 = file.1 ↔ other = file :=
      ⟨fun heq => inj_on_of_nodup_map h hother hmem heq, congrArg Prod.fst⟩
    rw [Bool.eq_iff_iff, decide_eq_true_iff, bne_iff_ne, ne_eq, ne_eq, hpath]
  rw [herase]
  exact (perm_cons_erase hmem).symm

/-! ### Files of one path -/

def shared (left right : FileTree) : List FilePair :=
  (common left right).map fun file => ((file.1, file.2.1), (file.1, file.2.2))

theorem path_eq_of_mem_shared (h : pair ∈ shared left right) : pair.1.1 = pair.2.1 := by
  obtain ⟨file, -, rfl⟩ := mem_map.1 h
  rfl

theorem mem_of_mem_shared (h : pair ∈ shared left right) : pair.1 ∈ left ∧ pair.2 ∈ right := by
  obtain ⟨file, hfile, rfl⟩ := mem_map.1 h
  obtain ⟨⟨path, x⟩, hmem, hother⟩ := mem_filterMap.1 hfile
  obtain ⟨y, hy, rfl⟩ := Option.map_eq_some_iff.1 hother
  obtain ⟨before, after, hentries, -⟩ := lookup_eq_some_iff.1 hy
  exact ⟨mem_mergeSort.1 hmem, by simp [hentries]⟩

theorem map_fst_shared (left right : FileTree) :
    (shared left right).map Prod.fst = left.sort.filter fun file => right.paths.contains file.1 := by
  unfold shared common
  induction left.sort with
  | nil => rfl
  | cons file files ih =>
    obtain ⟨path, content⟩ := file
    have hsome := isSome_lookup right path
    cases hlookup : right.lookup path with
    | none =>
      rw [hlookup] at hsome
      rw [filterMap_cons_none (by simp [hlookup]), filter_cons_of_neg (by simpa using hsome)]
      exact ih
    | some other =>
      rw [hlookup] at hsome
      rw [filterMap_cons_some (b := (path, content, other)) (by simp [hlookup]),
        filter_cons_of_pos (by simpa using hsome)]
      exact congrArg ((path, content) :: ·) ih

/-- A left file is shared or alone. -/
theorem shared_left_perm (left right : FileTree) :
    ((shared left right).map Prod.fst ++ left.without right).Perm left := by
  rw [map_fst_shared]
  exact (((mergeSort_perm left _).filter _).append_right _).trans
    (filter_append_perm _ left)

theorem mem_shared_snd (hright : right.paths.Nodup) :
    file ∈ (shared left right).map Prod.snd ↔ file ∈ right ∧ file.1 ∈ left.paths := by
  obtain ⟨path, content⟩ := file
  simp only [shared, common, map_map, mem_map, mem_filterMap, mem_paths]
  constructor
  · rintro ⟨found, ⟨⟨path', bytes⟩, hmem, hfound⟩, heq⟩
    obtain ⟨other, hother, rfl⟩ := Option.map_eq_some_iff.1 hfound
    simp only [Function.comp_apply, Prod.mk.injEq] at heq
    obtain ⟨rfl, rfl⟩ := heq
    exact ⟨(lookup_eq_some_iff_mem hright).1 hother, bytes, mem_mergeSort.1 hmem⟩
  · rintro ⟨hmem, bytes, hbytes⟩
    refine ⟨(path, bytes, content), ⟨(path, bytes), mem_mergeSort.2 hbytes, ?_⟩, rfl⟩
    simp [(lookup_eq_some_iff_mem hright).2 hmem]

theorem nodup_map_snd_shared (hleft : left.paths.Nodup) :
    ((shared left right).map Prod.snd).Nodup := by
  -- Both sides of a shared pair have one path, so the paths on the left tell the files apart.
  have hpaths : ((shared left right).map Prod.snd).map Prod.fst =
      ((shared left right).map Prod.fst).map Prod.fst := by
    simp only [map_map]
    exact map_congr_left fun pair hpair => (path_eq_of_mem_shared hpair).symm
  have hsorted : (left.sort.map Prod.fst).Nodup :=
    (((mergeSort_perm left _).map Prod.fst).nodup_iff).2 hleft
  apply List.Nodup.of_map Prod.fst
  rw [hpaths, map_fst_shared]
  exact hsorted.sublist (filter_sublist.map Prod.fst)

/-- A right file is shared or alone. -/
theorem shared_right_perm (hleft : left.paths.Nodup) (hright : right.paths.Nodup) :
    ((shared left right).map Prod.snd ++ right.without left).Perm right := by
  have hshared : ((shared left right).map Prod.snd).Perm
      (right.filter fun file => left.paths.contains file.1) := by
    rw [perm_ext_iff_of_nodup (nodup_map_snd_shared hleft) ((nodup_of_paths hright).filter _)]
    intro file
    simp [mem_shared_snd hright, mem_filter]
  exact (hshared.append_right _).trans (filter_append_perm _ right)

end FileTree

/-! ### Files that moved -/

/-- A change that tells of a file found at another path. -/
structure FileChange.TellsMove (change : FileChange) (pair : FilePair) : Prop where
  path : change.path = pair.1.1
  newPath : change.newPath = some pair.2.1
  diff : pair.textDiff = ⟨change.spans, change.changed⟩

variable {change : FileChange}

theorem FileChange.TellsMove.lines (h : change.TellsMove pair) (hchanged : change.changed = 0) :
    pair.SameLines :=
  eq_of_changed_eq_zero ((congrArg TextDiff.changed h.diff).trans hchanged)

namespace TreeDiff.Search

/-- The state of the search: which files have found each other, and that all others are left. -/
structure Tracks (left right : FileTree) (moved : List FilePair) (s : Search) : Prop where
  left : (moved.map Prod.fst ++ s.left).Perm left
  right : (moved.map Prod.snd ++ s.right).Perm right
  moves : Forall₂ FileChange.TellsMove s.moves moved

variable {s : Search}

theorem Tracks.nodup_left (h : Tracks left right moved s) (hleft : left.paths.Nodup) :
    s.left.paths.Nodup :=
  ((h.left.map Prod.fst).nodup_iff.2 hleft).sublist
    ((sublist_append_right _ _).map Prod.fst)

theorem Tracks.nodup_right (h : Tracks left right moved s) (hright : right.paths.Nodup) :
    s.right.paths.Nodup :=
  ((h.right.map Prod.fst).nodup_iff.2 hright).sublist
    ((sublist_append_right _ _).map Prod.fst)

/-- A pair that is found stays tracked. -/
theorem Tracks.move (h : Tracks left right moved s) (hleft : left.paths.Nodup)
    (hright : right.paths.Nodup) (hfile : pair.1 ∈ s.left) (hother : pair.2 ∈ s.right) :
    Tracks left right (moved ++ [pair]) (s.move pair.1.1 pair.2.1 pair.textDiff) where
  left := by
    have hperm := FileTree.cons_erasePath_perm (h.nodup_left hleft) hfile
    simpa [Search.move] using (hperm.append_left _).trans h.left
  right := by
    have hperm := FileTree.cons_erasePath_perm (h.nodup_right hright) hother
    simpa [Search.move] using (hperm.append_left _).trans h.right
  moves := rel_append h.moves (.cons ⟨rfl, rfl, rfl⟩ .nil)

variable {newPath : Path}

theorem mem_left_move (h : file ∈ s.left) (hne : file.1 ≠ path)
    (diff : TextDiff) : file ∈ (s.move path newPath diff).left := by
  simpa [Search.move, FileTree.erasePath, hne] using h

theorem mem_right_move (h : file ∈ s.right) (hne : file.1 ≠ newPath)
    (diff : TextDiff) : file ∈ (s.move path newPath diff).right := by
  simpa [Search.move, FileTree.erasePath, hne] using h

/-! #### Equal files -/

theorem rename_eq (h : pair.1.2 = pair.2.2) :
    s.rename pair = s.move pair.1.1 pair.2.1 pair.textDiff := by
  rw [Search.rename, FilePair.textDiff, h, TextDiff.of_self]

/-- A run over pairs of equal files without a file twice. -/
theorem Tracks.foldl_rename (h : Tracks left right moved s) (hleft : left.paths.Nodup)
    (hright : right.paths.Nodup) {pairs : List FilePair} (hfirst : (pairs.map (·.1.1)).Nodup)
    (hsecond : (pairs.map (·.2.1)).Nodup)
    (hpairs : ∀ pair ∈ pairs, pair.1 ∈ s.left ∧ pair.2 ∈ s.right ∧ pair.1.2 = pair.2.2) :
    Tracks left right (moved ++ pairs) (pairs.foldl Search.rename s) := by
  induction pairs generalizing s moved with
  | nil => simpa using h
  | cons pair pairs ih =>
    rw [map_cons, nodup_cons] at hfirst hsecond
    obtain ⟨⟨hfile, hother, hequal⟩, hlater⟩ := forall_mem_cons.1 hpairs
    rw [foldl_cons, rename_eq hequal, ← singleton_append, ← append_assoc]
    refine ih (h.move hleft hright hfile hother) hfirst.2 hsecond.2 fun later hmem => ?_
    obtain ⟨hfile', hother', hequal'⟩ := hlater later hmem
    have hne : later.1.1 ≠ pair.1.1 := fun heq =>
      hfirst.1 (heq ▸ mem_map_of_mem (f := (·.1.1)) hmem)
    have hne' : later.2.1 ≠ pair.2.1 := fun heq =>
      hsecond.1 (heq ▸ mem_map_of_mem (f := (·.2.1)) hmem)
    exact ⟨mem_left_move hfile' hne _, mem_right_move hother' hne' _, hequal'⟩

/-! #### Files that are alike -/

/-- What a step of the search may do with a file: leave it, or pair it with one of the other
side. -/
def IsStep (step : Search → Path × Bytes → Search) : Prop :=
  ∀ s file, step s file = s ∨ ∃ other ∈ s.right,
    step s file = s.move file.1 other.1 (FilePair.textDiff (file, other))

/-- A run over files that are all still without a partner. -/
theorem Tracks.foldl {step : Search → Path × Bytes → Search} (hstep : IsStep step)
    (hleft : left.paths.Nodup) (hright : right.paths.Nodup)
    (hfiles : files.paths.Nodup) (hmem : ∀ file ∈ files, file ∈ s.left)
    (h : Tracks left right moved s) : ∃ moved', Tracks left right moved' (files.foldl step s) := by
  induction files generalizing s moved with
  | nil => exact ⟨moved, h⟩
  | cons file files ih =>
    simp only [FileTree.paths, map_cons, nodup_cons] at hfiles
    obtain ⟨hfile, hothers⟩ := forall_mem_cons.1 hmem
    rw [foldl_cons]
    rcases hstep s file with heq | ⟨other, hother, heq⟩
    · rw [heq]
      exact ih hfiles.2 hothers h
    · rw [heq]
      have hmoved : Tracks left right (moved ++ [(file, other)])
          (s.move file.1 other.1 (FilePair.textDiff (file, other))) :=
        h.move hleft hright hfile hother
      refine ih hfiles.2 (fun later hlater => ?_) hmoved
      have hne : later.1 ≠ file.1 := fun hpath => hfiles.1 (hpath ▸ mem_map_of_mem hlater)
      exact mem_left_move (hothers later hlater) hne _

theorem mem_of_bestOf {α : Type} {scored : List (Similarity × α)} {best : Similarity × α}
    (h : bestOf scored = some best) : best ∈ scored := by
  cases scored with
  | nil => cases h
  | cons first rest =>
    have hfold : ∀ (xs : List (Similarity × α)) (kept : Similarity × α),
        xs.foldl (fun best x => if best.1.lt x.1 then x else best) kept ∈ kept :: xs := by
      intro xs
      induction xs with
      | nil => simp
      | cons x xs ih =>
        intro kept
        rw [foldl_cons]
        split
        · exact mem_cons_of_mem _ (ih x)
        · rcases mem_cons.1 (ih kept) with hkept | hmem
          · simp [hkept]
          · simp [hmem]
    simp only [bestOf, Option.some.injEq] at h
    exact h ▸ hfold rest first

theorem mem_of_mem_candidates (h : file ∈ candidates path files) : file ∈ files := by
  simp only [candidates, mem_map] at h
  obtain ⟨scored, hscored, rfl⟩ := h
  have hmem := mem_mergeSort.1 (mem_of_mem_take hscored)
  obtain ⟨other, hother, rfl⟩ := mem_map.1 hmem
  exact mem_mergeSort.1 hother

/-- Looking for a similar file is a step. -/
theorem isStep_matchAlike (order : SearchOrder) : IsStep (matchAlike order) := by
  intro s file
  unfold matchAlike
  dsimp only
  split
  next score other hbest =>
    split
    · obtain ⟨found, hfound, heq⟩ := mem_map.1 (mem_of_bestOf hbest)
      obtain ⟨-, rfl⟩ := Prod.mk.inj heq
      have hmem := (order.candidates_perm file.1 s.right).mem_iff.1 (mem_of_mem_candidates hfound)
      exact .inr ⟨found, hmem, rfl⟩
    · exact .inl rfl
  · exact .inl rfl

end TreeDiff.Search

/-! ### Pairs of equal files -/

theorem nodup_eraseDups [BEq α] [LawfulBEq α] (xs : List α) : xs.eraseDups.Nodup := by
  induction hlength : xs.length using Nat.strongRecOn generalizing xs with
  | _ n ih =>
    cases xs with
    | nil => exact nodup_nil
    | cons x xs =>
      rw [eraseDups_cons, nodup_cons, mem_eraseDups]
      refine ⟨by simp, ih _ ?_ _ rfl⟩
      have hle := length_filter_le (fun y => !y == x) xs
      rw [length_cons] at hlength
      omega

theorem map_fst_zip_sublist (xs : List α) (ys : List β) :
    ((xs.zip ys).map Prod.fst).Sublist xs := by
  induction xs generalizing ys with
  | nil => exact .slnil
  | cons x xs ih =>
    cases ys with
    | nil => exact nil_sublist _
    | cons y ys => exact (ih ys).cons_cons x

theorem map_snd_zip_sublist (xs : List α) (ys : List β) :
    ((xs.zip ys).map Prod.snd).Sublist ys := by
  rw [← zip_swap ys xs, map_map]
  exact map_fst_zip_sublist ys xs

/-- Files taken content by content are taken once. -/
theorem FileTree.nodup_byContent {contents : List Bytes} {taken : Bytes → FileTree}
    (hfiles : files.paths.Nodup) (hcontents : contents.Nodup)
    (htaken : ∀ content, (taken content).Sublist (files.filter (·.2 == content))) :
    (contents.flatMap fun content => (taken content).map Prod.fst).Nodup := by
  have hmem : ∀ {content : Bytes} {file : Path × Bytes}, file ∈ taken content →
      file ∈ files ∧ file.2 = content := by
    intro content file hfile
    simpa using mem_filter.1 ((htaken content).subset hfile)
  rw [nodup_flatMap]
  constructor
  · intro content _
    exact hfiles.sublist (((htaken content).trans filter_sublist).map Prod.fst)
  · refine hcontents.imp fun {content other} hne => ?_
    intro path hpath hpath'
    obtain ⟨file, hfile, rfl⟩ := mem_map.1 hpath
    obtain ⟨file', hfile', heq⟩ := mem_map.1 hpath'
    have hsame := inj_on_of_nodup_map hfiles (hmem hfile').1 (hmem hfile).1 heq
    exact hne ((hmem hfile).2.symm.trans (hsame ▸ (hmem hfile').2))

namespace TreeDiff

variable (order : SearchOrder)

theorem nodup_contents (left right : FileTree) :
    (order.contents (sharedContents left right)).Nodup :=
  (order.contents_perm _).nodup_iff.2 ((nodup_eraseDups _).filter _)

theorem mem_renames (h : pair ∈ renames order left right) :
    pair.1 ∈ left ∧ pair.2 ∈ right ∧ pair.1.2 = pair.2.2 := by
  obtain ⟨content, -, hpair⟩ := mem_flatMap.1 h
  obtain ⟨hfirst, hsecond⟩ := of_mem_zip hpair
  simp only [mem_filter, beq_iff_eq] at hfirst hsecond
  exact ⟨(order.left_perm left).mem_iff.1 hfirst.1, (order.right_perm right).mem_iff.1 hsecond.1,
    hfirst.2.trans hsecond.2.symm⟩

theorem nodup_renames (hleft : left.paths.Nodup) (hright : right.paths.Nodup) :
    ((renames order left right).map (·.1.1)).Nodup ∧
      ((renames order left right).map (·.2.1)).Nodup := by
  have hcontents := nodup_contents order left right
  have hfirst := FileTree.nodup_byContent (((order.left_perm left).map Prod.fst).nodup_iff.2 hleft)
    hcontents fun content => map_fst_zip_sublist _ ((order.right right).filter (·.2 == content))
  have hsecond := FileTree.nodup_byContent
    (((order.right_perm right).map Prod.fst).nodup_iff.2 hright)
    hcontents fun content => map_snd_zip_sublist ((order.left left).filter (·.2 == content)) _
  simp only [renames, map_flatMap, map_map] at hfirst hsecond ⊢
  exact ⟨hfirst, hsecond⟩

/-- The whole search is tracked. -/
theorem exists_tracks_search (hleft : left.paths.Nodup) (hright : right.paths.Nodup) :
    ∃ moved, Search.Tracks (left.without right) (right.without left) moved
      (search order left right) := by
  have hleft' : (left.without right).paths.Nodup := hleft.sublist (filter_sublist.map _)
  have hright' : (right.without left).paths.Nodup := hright.sublist (filter_sublist.map _)
  have hstart : Search.Tracks (left.without right) (right.without left) []
      ⟨left.without right, right.without left, []⟩ := ⟨.refl _, .refl _, .nil⟩
  obtain ⟨hfirst, hsecond⟩ := nodup_renames order hleft' hright'
  have hrenamed := hstart.foldl_rename hleft' hright' hfirst hsecond fun pair => mem_renames order
  have hsorted := mergeSort_perm
    ((renames order (left.without right) (right.without left)).foldl Search.rename
      ⟨left.without right, right.without left, []⟩).left (fun x y => x.1.le y.1)
  exact hrenamed.foldl (Search.isStep_matchAlike order) hleft' hright'
    ((hsorted.map Prod.fst).nodup_iff.2 (hrenamed.nodup_left hleft'))
    fun file hfile => hsorted.mem_iff.1 hfile

end TreeDiff

/-! ### The comparison -/

/-- A pairing of the files of two trees that accounts for every file once. Files of one path are
paired with each other; a file that moved had its path on its own side only. -/
structure FilePairing (left right : FileTree) where
  shared : List FilePair
  moved : List FilePair
  onlyLeft : FileTree
  onlyRight : FileTree
  left_perm : (shared.map Prod.fst ++ (moved.map Prod.fst ++ onlyLeft)).Perm left
  right_perm : (shared.map Prod.snd ++ (moved.map Prod.snd ++ onlyRight)).Perm right
  shared_path : ∀ pair ∈ shared, pair.1.1 = pair.2.1
  moved_left : ∀ pair ∈ moved, pair.1.1 ∉ right.paths
  moved_right : ∀ pair ∈ moved, pair.2.1 ∉ left.paths

namespace FilePairing

variable (pairing : FilePairing left right)

theorem subset_left : pairing.moved.map Prod.fst ⊆ left := fun _ hfile =>
  pairing.left_perm.subset (mem_append_right _ (mem_append_left _ hfile))

theorem subset_right : pairing.moved.map Prod.snd ⊆ right := fun _ hfile =>
  pairing.right_perm.subset (mem_append_right _ (mem_append_left _ hfile))

end FilePairing

/-- What a comparison says of a pairing: the changes of files of one path, a change for every file
that moved, and the paths of the files without a partner. -/
structure TreeDiff.Reports {left right : FileTree} (diff : TreeDiff)
    (pairing : FilePairing left right) : Prop where
  shared : pairing.shared = FileTree.shared left right
  changes : ∃ moves, diff.changes = commonChanges left right ++ moves ∧
    Forall₂ FileChange.TellsMove moves pairing.moved
  onlyLeft : diff.onlyLeft.Perm pairing.onlyLeft.paths
  onlyRight : diff.onlyRight.Perm pairing.onlyRight.paths

theorem FileTree.not_mem_of_mem_without (h : file ∈ left.without right) : file.1 ∉ right.paths := by
  simpa [FileTree.without] using (mem_filter.1 h).2

/-- Every comparison reports a pairing of all files, whatever its order. -/
theorem TreeDiff.exists_reports_inOrder (order : SearchOrder)
    (hleft : left.paths.Nodup) (hright : right.paths.Nodup) :
    ∃ pairing : FilePairing left right, (TreeDiff.inOrder order left right).Reports pairing := by
  obtain ⟨moved, hmoved⟩ := exists_tracks_search order hleft hright
  have hmovedLeft : ∀ pair ∈ moved, pair.1 ∈ left.without right := fun pair hpair =>
    hmoved.left.subset (mem_append_left _ (mem_map_of_mem hpair))
  have hmovedRight : ∀ pair ∈ moved, pair.2 ∈ right.without left := fun pair hpair =>
    hmoved.right.subset (mem_append_left _ (mem_map_of_mem hpair))
  refine ⟨⟨FileTree.shared left right, moved, (search order left right).left,
    (search order left right).right,
    (hmoved.left.append_left _).trans (FileTree.shared_left_perm left right),
    (hmoved.right.append_left _).trans (FileTree.shared_right_perm hleft hright),
    fun pair => FileTree.path_eq_of_mem_shared,
    fun pair hpair => FileTree.not_mem_of_mem_without (hmovedLeft pair hpair),
    fun pair hpair => FileTree.not_mem_of_mem_without (hmovedRight pair hpair)⟩, ?_⟩
  exact ⟨rfl, ⟨_, rfl, hmoved.moves⟩, mergeSort_perm _ _, mergeSort_perm _ _⟩

/-- Files of one path are compared by their lines. -/
theorem TreeDiff.commonDiff_eq (x y : Bytes) : commonDiff x y = TextDiff.of x.lines y.lines := by
  by_cases heq : x = y
  · rw [heq, TextDiff.of_self]
    exact if_pos rfl
  · exact if_neg heq

/-- Files of one path whose lines differ are reported with what differs. -/
theorem TreeDiff.mem_commonChanges {x : Bytes}
    (h : (path, x, y) ∈ FileTree.common left right) (hlines : x.lines ≠ y.lines) :
    ⟨path, none, (TextDiff.of x.lines y.lines).changed, (TextDiff.of x.lines y.lines).spans⟩ ∈
      commonChanges left right ∧ 0 < (TextDiff.of x.lines y.lines).changed := by
  have hchanged : (TextDiff.of x.lines y.lines).changed ≠ 0 :=
    fun hzero => hlines (eq_of_changed_eq_zero hzero)
  refine ⟨mem_filterMap.2 ⟨(path, x, y), h, ?_⟩, Nat.pos_of_ne_zero hchanged⟩
  simp [commonDiff_eq, hchanged]

/-- A change of a file that both trees have at one path tells what differs. -/
theorem TreeDiff.exists_shared_of_mem_commonChanges
    (h : change ∈ commonChanges left right) : ∃ pair ∈ FileTree.shared left right,
      change = ⟨pair.1.1, none, pair.textDiff.changed, pair.textDiff.spans⟩ ∧
        0 < change.changed := by
  obtain ⟨⟨path, x, y⟩, hfile, hchange⟩ := mem_filterMap.1 h
  dsimp only at hchange
  rw [commonDiff_eq] at hchange
  split at hchange
  · cases hchange
  next hchanged =>
    cases hchange
    exact ⟨((path, x), (path, y)), mem_map.2 ⟨(path, x, y), hfile, rfl⟩, rfl,
      Nat.pos_of_ne_zero hchanged⟩

theorem map_path_of_tellsMove {moves : List FileChange}
    (h : Forall₂ FileChange.TellsMove moves moved) :
    moves.map FileChange.path = moved.map (·.1.1) ∧
      moves.map (fun change => change.newPath.getD change.path) = moved.map (·.2.1) := by
  induction h with
  | nil => exact ⟨rfl, rfl⟩
  | cons htells _ ih => simp [ih.1, ih.2, htells.path, htells.newPath]

/-- A comparison that reports no changed line and no file without partner pairs all files, and
only files of the same lines. -/
theorem TreeDiff.Reports.sameLines {diff : TreeDiff}
    {pairing : FilePairing left right} (h : diff.Reports pairing)
    (hchanges : ∀ change ∈ diff.changes, change.changed = 0) (hleft : diff.onlyLeft = [])
    (hright : diff.onlyRight = []) :
    ((pairing.shared ++ pairing.moved).map Prod.fst).Perm left ∧
      ((pairing.shared ++ pairing.moved).map Prod.snd).Perm right ∧
      ∀ pair ∈ pairing.shared ++ pairing.moved, pair.SameLines := by
  obtain ⟨moves, heq, hmoves⟩ := h.changes
  have honlyLeft : pairing.onlyLeft = [] := by
    simpa [hleft, FileTree.paths] using h.onlyLeft
  have honlyRight : pairing.onlyRight = [] := by
    simpa [hright, FileTree.paths] using h.onlyRight
  refine ⟨?_, ?_, fun pair hpair => ?_⟩
  · simpa [honlyLeft] using pairing.left_perm
  · simpa [honlyRight] using pairing.right_perm
  · rcases mem_append.1 hpair with hpair | hpair
    · rw [h.shared] at hpair
      by_contra hlines
      obtain ⟨file, hfile, rfl⟩ := mem_map.1 hpair
      obtain ⟨hchange, hpos⟩ := mem_commonChanges hfile hlines
      exact Nat.ne_of_gt hpos (hchanges _ (heq ▸ mem_append_left _ hchange))
    · obtain ⟨change, hchange, htells⟩ := exists_of_mem_forall₂ hmoves.flip hpair
      exact htells.lines (hchanges change (heq ▸ mem_append_right _ hchange))

theorem TreeDiff.mem_commonChanges_of_mem {x : Bytes} (hright : right.paths.Nodup)
    (hx : (path, x) ∈ left) (hy : (path, y) ∈ right) (hlines : x.lines ≠ y.lines) :
    ⟨path, none, (TextDiff.of x.lines y.lines).changed, (TextDiff.of x.lines y.lines).spans⟩ ∈
      commonChanges left right := by
  refine (mem_commonChanges (mem_filterMap.2 ⟨(path, x), mem_mergeSort.2 hx, ?_⟩) hlines).1
  simp [(lookup_eq_some_iff_mem hright).2 hy]

end MovieDiff
