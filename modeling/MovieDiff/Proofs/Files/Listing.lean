import Mathlib.Order.Lattice
import MovieDiff.Files.FileTree
import MovieDiff.Proofs.Files.FileSystem

/-!
What a listing of a directory shows. Main statements: a listing by a pattern of one name has the
files of the directory whose names match, each once, and the files of a directory stay listed while
files are only written and directories only made.
-/
namespace MovieDiff

open List

variable {p q : Path} {next names : List String} {w w' : Walk} {name : String}

/-! ### Sorting -/

section MergeSort

variable {α β : Type} [LinearOrder β] {le : α → α → Bool} (key : α → β)
  (hle : ∀ x y, le x y ↔ key x ≤ key y) {xs ys : List α}
include hle

/-- Different keys are sorted strictly. -/
theorem pairwise_lt_mergeSort (hnodup : (xs.map key).Nodup) :
    (xs.mergeSort le).Pairwise fun x y => key x < key y := by
  have hsorted : (xs.mergeSort le).Pairwise fun x y => le x y := by
    apply pairwise_mergeSort
    · intro x y z hxy hyz
      exact (hle x z).2 (((hle x y).1 hxy).trans ((hle y z).1 hyz))
    · intro x y
      rw [Bool.or_eq_true, hle, hle]
      exact le_total (key x) (key y)
  have hdistinct : (xs.mergeSort le).Pairwise fun x y => key x ≠ key y :=
    pairwise_map.1 (((mergeSort_perm xs le).map key).nodup_iff.2 hnodup)
  exact hsorted.imp₂ (fun x y hxy => lt_of_le_of_ne ((hle x y).1 hxy)) hdistinct

/-- Sorting by a key that tells all elements apart gives one list for all orders of them. -/
theorem mergeSort_eq_of_perm (hperm : xs.Perm ys) (hnodup : (ys.map key).Nodup) :
    xs.mergeSort le = ys.mergeSort le := by
  have hsame : (xs.mergeSort le).Perm (ys.mergeSort le) :=
    (mergeSort_perm xs le).trans (hperm.trans (mergeSort_perm ys le).symm)
  exact hsame.eq_of_pairwise (fun _ _ _ _ hxy hyx => absurd hxy (lt_asymm hyx))
    (pairwise_lt_mergeSort key hle ((hperm.map key).nodup_iff.2 hnodup))
    (pairwise_lt_mergeSort key hle hnodup)

end MergeSort

namespace Path

theorem le_trans {r : Path} (h : p.le q) (h' : q.le r) : p.le r := by
  simp only [le, Bool.not_eq_true', decide_eq_false_iff_not] at h h' ⊢
  exact List.le_trans h h'

theorem le_total (p q : Path) : p.le q || q.le p := by
  simp only [le, Bool.or_eq_true, Bool.not_eq_true', decide_eq_false_iff_not]
  exact List.le_total p.parts q.parts

theorem parts_eq_of_le (h : p.le q) (h' : q.le p) : p.parts = q.parts := by
  simp only [le, Bool.not_eq_true', decide_eq_false_iff_not] at h h'
  exact List.le_antisymm h h'

theorem pairwise_sort (paths : List Path) : (sort paths).Pairwise fun p q => p.le q := by
  apply pairwise_mergeSort
  · intro p q r
    exact le_trans
  · exact le_total

theorem sort_eq_self {paths : List Path} (h : paths.Pairwise fun p q => p.le q) :
    sort paths = paths :=
  mergeSort_of_pairwise h

end Path

section EraseReps

variable {α : Type} [BEq α] [LawfulBEq α]

theorem eraseReps_cons_cons (x y : α) (ys : List α) :
    (x :: y :: ys).eraseReps =
      if x == y then (y :: ys).eraseReps else x :: (y :: ys).eraseReps := by
  have hloop : ∀ (ys : List α) (x : α) (kept : List α),
      List.eraseRepsBy.loop (· == ·) x ys kept =
        kept.reverse ++ List.eraseRepsBy.loop (· == ·) x ys [] := by
    intro ys
    induction ys with
    | nil => simp [List.eraseRepsBy.loop]
    | cons y ys ih =>
      intro x kept
      rw [List.eraseRepsBy.loop, List.eraseRepsBy.loop]
      split
      · exact ih x kept
      · rw [ih y (x :: kept), ih y [x]]
        simp
  by_cases heq : x = y
  · subst heq
    simp [List.eraseReps, List.eraseRepsBy, List.eraseRepsBy.loop]
  · have hbeq : (x == y) = false := beq_eq_false_iff_ne.2 heq
    simp only [List.eraseReps, List.eraseRepsBy, List.eraseRepsBy.loop, hbeq]
    rw [hloop ys y [x]]
    rfl

theorem mem_eraseReps {x : α} {xs : List α} : x ∈ xs.eraseReps ↔ x ∈ xs := by
  induction xs with
  | nil => rfl
  | cons y ys ih =>
    cases ys with
    | nil => rfl
    | cons z zs =>
      rw [eraseReps_cons_cons]
      split
      next heq => simp [ih, beq_iff_eq.1 heq]
      · simp [ih]

/-- Where equal elements stand side by side, as in a sorted list, one of each is left. -/
theorem nodup_eraseReps {r : α → α → Prop} {xs : List α} (h : xs.Pairwise r)
    (hantisymm : ∀ x ∈ xs, ∀ y ∈ xs, r x y → r y x → x = y) : xs.eraseReps.Nodup := by
  induction xs with
  | nil => exact nodup_nil
  | cons x xs ih =>
    have hrest := ih h.of_cons fun y hy z hz =>
      hantisymm y (mem_cons_of_mem x hy) z (mem_cons_of_mem x hz)
    cases xs with
    | nil => exact nodup_singleton x
    | cons y ys =>
      rw [eraseReps_cons_cons]
      split
      · exact hrest
      next hne =>
        refine nodup_cons.2 ⟨fun hmem => hne (beq_iff_eq.2 ?_), hrest⟩
        have hxy : r x y := rel_of_pairwise_cons h mem_cons_self
        rcases mem_cons.1 (mem_eraseReps.1 hmem) with heq | hys
        · exact heq
        · exact hantisymm x mem_cons_self y (by simp) hxy
            (rel_of_pairwise_cons h.of_cons hys)

end EraseReps

namespace FileSystem

variable {place : List String} {content : Bytes} {glob : Glob}

variable {fs fs' : FileSystem} {dir : Path} {pattern : List GlobChar}

/-! ### Growing file systems -/

/-- Whether no directory and no file goes from one file system to another. -/
structure Grows (fs fs' : FileSystem) : Prop where
  directory : ∀ place, fs.entryAt? place = some .directory →
    fs'.entryAt? place = some .directory
  file : ∀ place content, fs.entryAt? place = some (.file content) →
    ∃ content', fs'.entryAt? place = some (.file content')

theorem Grows.refl (fs : FileSystem) : Grows fs fs where
  directory := fun _ hplace => hplace
  file := fun _ content hplace => ⟨content, hplace⟩

theorem Grows.trans {fs'' : FileSystem} (h : Grows fs fs') (h' : Grows fs' fs'') :
    Grows fs fs'' where
  directory := fun place hplace => h'.directory place (h.directory place hplace)
  file := by
    intro place content hplace
    obtain ⟨content', hplace'⟩ := h.file place content hplace
    exact h'.file place content' hplace'

theorem grows_put_file (h : fs.entryAt? place ≠ some .directory) (content : Bytes) :
    Grows fs (fs.put place (.file content)) where
  directory := by
    intro other hother
    have hne : other ≠ place := fun heq => h (heq ▸ hother)
    rwa [entryAt?_put_of_ne hne]
  file := by
    intro other bytes hother
    by_cases heq : other = place
    · subst heq
      have hne : other ≠ [] := fun hnil => h (by simp [hnil, entryAt?])
      exact ⟨content, entryAt?_put_self hne _⟩
    · exact ⟨bytes, by rwa [entryAt?_put_of_ne heq]⟩

theorem grows_put_directory (h : fs.entryAt? place = none) :
    Grows fs (fs.put place .directory) where
  directory := by
    intro other hother
    have hne : other ≠ place := fun heq => by simp [heq, h] at hother
    rwa [entryAt?_put_of_ne hne]
  file := by
    intro other content hother
    have hne : other ≠ place := fun heq => by simp [heq, h] at hother
    exact ⟨content, by rwa [entryAt?_put_of_ne hne]⟩

/-- A way that can be walked stays so; the path itself matters to errors only. -/
theorem Grows.foldlM_enter (h : Grows fs fs') (p q : Path)
    (hwalk : names.foldlM (fs.enter p) place = .ok next) :
    names.foldlM (fs'.enter q) place = .ok next := by
  induction names generalizing place with
  | nil => exact hwalk
  | cons name names ih =>
    rw [foldlM_cons] at hwalk ⊢
    obtain ⟨between, hfirst, hrest⟩ := exists_of_bind_eq_ok hwalk
    obtain ⟨hplace, hbetween⟩ := enter_eq_ok_iff.1 hfirst
    rw [enter_eq_ok_iff.2 ⟨h.directory place hplace, hbetween⟩]
    exact ih hrest

theorem isFile_iff : fs.isFile p ↔
    ∃ place content, fs.locate p = .ok place ∧ fs.entryAt? place = some (.file content) := by
  unfold isFile entry?
  cases fs.locate p with
  | error fault => simp
  | ok place =>
    cases hentry : fs.entryAt? place with
    | none => simp [hentry]
    | some entry => cases entry <;> simp [hentry]

theorem entryAt?_of_isFile_child (h : fs.HasDirectory dir.names) (hname : name ≠ "..")
    (hfile : fs.isFile (dir.child name)) :
    fits name ∧ ∃ content, fs.entryAt? (dir.names ++ [name]) = some (.file content) := by
  obtain ⟨place, content, hplace, hentry⟩ := isFile_iff.1 hfile
  obtain ⟨hfit, rfl⟩ := fits_of_locate_child h hname hplace
  exact ⟨hfit, content, hentry⟩

theorem Grows.isFile (h : Grows fs fs') (hfile : fs.isFile p) : fs'.isFile p := by
  obtain ⟨place, content, hplace, hentry⟩ := isFile_iff.1 hfile
  obtain ⟨content', hentry'⟩ := h.file place content hentry
  exact isFile_iff.2 ⟨place, content', h.foldlM_enter p p hplace, hentry'⟩

theorem grows_write (h : fs.write p content = .ok fs') : Grows fs fs' := by
  obtain ⟨place, -, hentry, rfl⟩ := write_eq_ok h
  exact grows_put_file hentry content

theorem isFile_write (h : fs.write p content = .ok fs') : fs'.isFile p := by
  have hgrows := grows_write h
  obtain ⟨place, hplace, hentry, rfl⟩ := write_eq_ok h
  have hne : place ≠ [] := fun hnil => hentry (by simp [hnil, entryAt?])
  exact isFile_iff.2 ⟨place, content, hgrows.foldlM_enter p p hplace, entryAt?_put_self hne _⟩

theorem grows_walk (h : Walk.enter p w name = .ok w') :
    Grows w.files w'.files := by
  unfold Walk.enter at h
  split at h
  · cases h
    exact .refl _
  · split at h
    · cases h
    · dsimp only at h
      split at h
      · cases h
        exact .refl _
      · cases h
      next hplace =>
        cases h
        exact grows_put_directory hplace

theorem grows_foldlM_walk
    (h : names.foldlM (Walk.enter p) w = .ok w') : Grows w.files w'.files := by
  induction names generalizing w with
  | nil =>
    cases h
    exact .refl _
  | cons name names ih =>
    rw [foldlM_cons] at h
    obtain ⟨between, hfirst, hrest⟩ := exists_of_bind_eq_ok h
    exact (grows_walk hfirst).trans (ih hrest)

theorem exists_of_makeDirectories (h : fs.makeDirectories p = .ok fs') :
    ∃ w, p.names.foldlM (Walk.enter p) ⟨fs, []⟩ = .ok w ∧ w.files = fs' := by
  unfold makeDirectories at h
  split at h
  · cases h
  · obtain ⟨w, hwalk, heq⟩ := exists_of_bind_eq_ok h
    exact ⟨w, hwalk, Except.ok.inj heq⟩

/-- Making directories removes nothing. -/
theorem grows_makeDirectories (h : fs.makeDirectories p = .ok fs') : Grows fs fs' := by
  obtain ⟨w, hwalk, rfl⟩ := exists_of_makeDirectories h
  exact grows_foldlM_walk hwalk

/-! ### The files of a directory -/

/-- A file of some name is in a directory, and the directory shows the name. -/
theorem isDirectory_of_isFile_child (hname : name ≠ "..") (h : fs.isFile (dir.child name)) :
    fs.isDirectory dir ∧ name ∈ fs.childNames dir := by
  obtain ⟨place, content, hplace, hentry⟩ := isFile_iff.1 h
  change (dir.names ++ [name]).foldlM (fs.enter (dir.child name)) [] = _ at hplace
  rw [foldlM_concat] at hplace
  obtain ⟨front, hfront, hlast⟩ := exists_of_bind_eq_ok hplace
  have hlocate : fs.locate dir = .ok front := (Grows.refl fs).foldlM_enter _ _ hfront
  obtain ⟨hdirectory, -, rfl⟩ := enter_eq_ok hlast hname
  constructor
  · simp [isDirectory, entry?, hlocate, hdirectory]
  · rw [childNames, hlocate]
    apply (fs.namesAt_perm front).mem_iff.2
    rw [entryAt?_of_ne_nil (by simp)] at hentry
    obtain ⟨before, after, hentries, -⟩ := lookup_eq_some_iff.1 hentry
    refine mem_filterMap.2 ⟨(front ++ [name], .file content), ?_, nameBelow?_eq_some_iff.2 rfl⟩
    simp [hentries]

theorem mem_listFiles_iff : p ∈ fs.listFiles dir glob ↔
    (fs.isDirectory dir ∧ glob.directoriesOnly = false) ∧
      p ∈ fs.select dir glob.steps .empty ∧ fs.isFile (dir ++ p) := by
  rw [listFiles, mem_ite_nil_right, mem_eraseReps, Path.sort, mem_mergeSort, mem_filter]
  simp

theorem mem_listFiles : p ∈ fs.listFiles dir ⟨[.matching pattern], false⟩ ↔
    fs.isDirectory dir ∧ ∃ name ∈ fs.childNames dir, Glob.matchesName pattern name.toList ∧
      fs.isFile (dir.child name) ∧ p = Path.empty.child name := by
  rw [mem_listFiles_iff, select_matching]
  simp only [mem_map, mem_filter, and_true]
  refine and_congr_right fun _ => ⟨?_, ?_⟩
  · rintro ⟨⟨name, ⟨hname, hmatches⟩, rfl⟩, hfile⟩
    exact ⟨name, hname, hmatches, hfile, rfl⟩
  · rintro ⟨name, hname, hmatches, hfile, rfl⟩
    exact ⟨⟨name, ⟨hname, hmatches⟩, rfl⟩, hfile⟩

/-- A path below a directory is relative, the end of a place where something stands. -/
theorem exists_of_mem_pathsBelow (h : q ∈ fs.pathsBelow p) :
    q.root = .none ∧ ∃ e ∈ fs.entries, ∃ n, q.names = e.1.drop n := by
  unfold pathsBelow at h
  split at h
  next place hplace =>
    obtain ⟨e, he, hbelow⟩ := mem_filterMap.1 (mem_mergeSort.1 h)
    split at hbelow
    · cases hbelow
      exact ⟨rfl, e, he, place.length, rfl⟩
    · cases hbelow
  · cases h

/-- What is selected is relative to the directory. -/
theorem root_of_mem_select {steps : List GlobStep} (hroot : p.root = .none)
    (h : q ∈ fs.select dir steps p) : q.root = .none := by
  induction steps generalizing p with
  | nil => exact mem_singleton.1 h ▸ hroot
  | cons step steps ih =>
    cases step with
    | exactly name =>
      exact ih (p := p.child name) hroot (mem_ite_nil_right.1 h).2
    | matching pattern =>
      obtain ⟨name, -, h⟩ := mem_flatMap.1 h
      exact ih (p := p.child name) hroot (mem_ite_nil_right.1 h).2
    | anyDepth =>
      obtain ⟨next, hnext, h⟩ := mem_flatMap.1 h
      refine ih ?_ h
      rcases mem_cons.1 hnext with rfl | hnext
      · exact hroot
      · obtain ⟨below, hbelow, rfl⟩ := mem_map.1 (mem_of_mem_filter hnext)
        change (Path.append p below).root = .none
        rw [Path.append, (exists_of_mem_pathsBelow hbelow).1]
        exact hroot

theorem root_of_mem_listFiles (h : p ∈ fs.listFiles dir glob) : p.root = .none :=
  root_of_mem_select (p := .empty) rfl (mem_listFiles_iff.1 h).2.1

theorem nodup_listFiles (fs : FileSystem) (dir : Path) (glob : Glob) :
    (fs.listFiles dir glob).Nodup := by
  have hroot : ∀ p ∈ fs.listFiles dir glob, p.root = .none := fun p => root_of_mem_listFiles
  unfold listFiles at hroot ⊢
  split at hroot
  next hdir =>
    rw [if_pos hdir]
    apply nodup_eraseReps (Path.pairwise_sort _)
    -- Paths without a root are told apart by their parts.
    intro p hp q hq hpq hqp
    have hparts := Path.parts_eq_of_le hpq hqp
    have hp' := hroot p (mem_eraseReps.2 hp)
    have hq' := hroot q (mem_eraseReps.2 hq)
    obtain ⟨root, names⟩ := p
    obtain ⟨root', names'⟩ := q
    subst hp' hq'
    exact congrArg (Path.mk .none) hparts
  next hdir =>
    rw [if_neg hdir]
    exact nodup_nil

/-- The files of a directory that a pattern of one name selects: when nothing but files is in the
directory, one of each name that matches. -/
theorem listFiles_perm (h : HasDirectory fs dir.names) (hnodup : (fs.namesBelow dir.names).Nodup)
    (hfiles : ∀ name ∈ fs.namesBelow dir.names, fs.isFile (dir.child name)) :
    (fs.listFiles dir ⟨[.matching pattern], false⟩).Perm
      (((fs.namesBelow dir.names).filter fun name => Glob.matchesName pattern name.toList).map
        Path.empty.child) := by
  have hdistinct : (((fs.namesBelow dir.names).filter fun name =>
      Glob.matchesName pattern name.toList).map Path.empty.child).Nodup := by
    refine (hnodup.filter _).map fun name other heq => ?_
    simpa [Path.child, Path.empty] using heq
  rw [perm_ext_iff_of_nodup (nodup_listFiles _ _ _) hdistinct]
  intro p
  rw [mem_listFiles, isDirectory_of_hasDirectory h, childNames_of_hasDirectory h]
  simp only [true_and, mem_map, mem_filter, (fs.namesAt_perm dir.names).mem_iff]
  constructor
  · rintro ⟨name, hname, hmatches, -, rfl⟩
    exact ⟨name, ⟨hname, hmatches⟩, rfl⟩
  · rintro ⟨name, ⟨hname, hmatches⟩, rfl⟩
    exact ⟨name, hname, hmatches, hfiles name hname, rfl⟩

/-! ### The tree of a directory -/

theorem isFile_of_mem_listFiles (h : p ∈ fs.listFiles dir glob) : fs.isFile (dir ++ p) :=
  (mem_listFiles_iff.1 h).2.2

theorem exists_read_of_isFile (h : fs.isFile p) : ∃ content, fs.read p = .ok content := by
  obtain ⟨place, content, hplace, hentry⟩ := isFile_iff.1 h
  exact ⟨content, by simp [read, hplace, hentry, bind, Except.bind, pure, Except.pure]⟩

/-- All files that are listed can be read. -/
theorem paths_tree (fs : FileSystem) (dir : Path) (glob : Glob) :
    (fs.tree dir glob).paths = fs.listFiles dir glob := by
  have hread : ∀ p ∈ fs.listFiles dir glob, ∃ content, fs.read (dir ++ p) = .ok content :=
    fun p hp => exists_read_of_isFile (isFile_of_mem_listFiles hp)
  unfold tree
  generalize fs.listFiles dir glob = paths at hread ⊢
  induction paths with
  | nil => rfl
  | cons p paths ih =>
    obtain ⟨⟨content, hcontent⟩, hrest⟩ := forall_mem_cons.1 hread
    rw [filterMap_cons_some (b := (p, content)) (by simp [hcontent])]
    exact congrArg (p :: ·) (ih hrest)

theorem read_of_mem_tree (h : (p, content) ∈ fs.tree dir glob) :
    fs.read (dir ++ p) = .ok content := by
  obtain ⟨q, -, hq⟩ := mem_filterMap.1 h
  split at hq
  next bytes hread =>
    cases hq
    exact hread
  · cases hq

theorem mem_tree (h : (p, content) ∈ fs.tree dir glob) :
    fs.readLines (dir ++ p) = .ok content.lines := by
  rw [readLines, read_of_mem_tree h]
  rfl

theorem readLines_of_mem_tree (h : (Path.empty.child name, content) ∈ fs.tree dir glob) :
    fs.readLines (dir.child name) = .ok content.lines := by
  have hpath : dir ++ Path.empty.child name = dir.child name := rfl
  rw [← hpath]
  exact mem_tree h

end FileSystem

end MovieDiff
