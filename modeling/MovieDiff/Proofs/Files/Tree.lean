import Mathlib.Data.List.Infix
import MovieDiff.Proofs.Files.Listing

/-!
The tree of a file system, seen through the entry at each place. Main statements: a directory that
is made empty turns the way to it into directories, has nothing below it and changes nothing else,
and look-ups depend on the places along their paths only.
-/
namespace MovieDiff.FileSystem

open List

variable {fs fs' : FileSystem} {p : Path} {names place dir : List String}

/-- Whether whatever lies somewhere lies in directories. -/
def IsTree (fs : FileSystem) : Prop :=
  ∀ place, fs.entryAt? place ≠ none →
    ∀ front, front <+: place → front ≠ place → fs.entryAt? front = some .directory

/-- Below nothing there is nothing. -/
theorem IsTree.nothing_below (h : fs.IsTree) {front : List String} (hfront : front <+: place)
    (hnone : fs.entryAt? front = none) : fs.entryAt? place = none := by
  by_contra hplace
  by_cases heq : front = place
  · exact hplace (heq ▸ hnone)
  · rw [h place hplace front hfront heq] at hnone
    cases hnone

/-- It is enough to look at the entries. -/
theorem isTree_of_entries (h : ∀ e ∈ fs.entries, ∀ front ∈ e.1.inits,
    front = e.1 ∨ fs.entryAt? front = some .directory) : fs.IsTree := by
  intro place hplace front hfront hne
  have hnil : place ≠ [] := fun heq => hne (by rw [heq] at hfront ⊢; exact prefix_nil.1 hfront)
  rw [entryAt?_of_ne_nil hnil] at hplace
  obtain ⟨entry, hentry⟩ := Option.ne_none_iff_exists'.1 hplace
  obtain ⟨before, after, hentries, -⟩ := lookup_eq_some_iff.1 hentry
  have hmem : (place, entry) ∈ fs.entries := by simp [hentries]
  exact (h _ hmem front ((mem_inits _ _).2 hfront)).resolve_left hne

/-! ### Walking without double dots -/

/-- Where a walk ends, and why it cannot go on for want of a file. -/
theorem foldlM_enter_cases (hdots : ".." ∉ names) :
    (∀ next, names.foldlM (fs.enter p) [] = .ok next → next = names) ∧
      ∀ path, names.foldlM (fs.enter p) [] = .error (.noSuchFile path) →
        ∃ front, front <+: names ∧ front ≠ names ∧ fs.entryAt? front = none := by
  induction names using List.reverseRecOn with
  | nil =>
    refine ⟨fun next h => ?_, fun path h => ?_⟩
    · cases h
      rfl
    · cases h
  | append_singleton names name ih =>
    rw [mem_append, not_or, mem_singleton] at hdots
    obtain ⟨hok, herror⟩ := ih hdots.1
    have hlonger : ∀ front, front <+: names →
        front <+: names ++ [name] ∧ front ≠ names ++ [name] := by
      intro front hfront
      exact ⟨hfront.trans (prefix_append _ _), ne_concat_of_above hfront name⟩
    rw [foldlM_concat]
    cases hfront : names.foldlM (fs.enter p) [] with
    | error fault =>
      refine ⟨fun next h => ?_, fun path h => ?_⟩
      · cases h
      · cases h
        obtain ⟨front, habove, -, hnone⟩ := herror path hfront
        exact ⟨front, (hlonger front habove).1, (hlonger front habove).2, hnone⟩
    | ok front =>
      obtain rfl := hok front hfront
      refine ⟨fun next h => (enter_eq_ok h (Ne.symm hdots.2)).2.2, fun path h => ?_⟩
      obtain ⟨hway, hne⟩ := hlonger front (prefix_refl _)
      refine ⟨front, hway, hne, ?_⟩
      change fs.enter p front name = _ at h
      unfold enter at h
      split at h
      · split at h
        · cases h
        · cases h
      · cases h
      · assumption

theorem locate_eq_ok (hdots : ".." ∉ p.names) (h : fs.locate p = .ok place) : place = p.names :=
  (foldlM_enter_cases hdots).1 place h

theorem walk_eq_ok {w w' : Walk} {name : String} (hname : name ≠ "..")
    (h : Walk.enter p w name = .ok w') :
    w'.place = w.place ++ [name] ∧ fits name ∧ ∀ place, w'.files.entryAt? place =
      if place = w.place ++ [name] then some .directory else w.files.entryAt? place := by
  unfold Walk.enter at h
  rw [if_neg hname] at h
  split at h
  · cases h
  next hfits =>
    have hfits : fits name := by simpa using hfits
    dsimp only at h
    split at h
    next hdirectory =>
      cases h
      refine ⟨rfl, hfits, fun place => ?_⟩
      split
      next heq => rw [heq, hdirectory]
      · rfl
    · cases h
    · cases h
      refine ⟨rfl, hfits, fun place => ?_⟩
      split
      next heq =>
        rw [heq]
        exact entryAt?_put_self (by simp) _
      next hne => exact entryAt?_put_of_ne hne _

theorem entryAt?_of_contains (hdots : ".." ∉ p.names) (h : fs.contains p) :
    fs.entryAt? p.names ≠ none := by
  unfold contains entry? at h
  cases hplace : fs.locate p with
  | error fault => simp [hplace] at h
  | ok place =>
    obtain rfl := locate_eq_ok hdots hplace
    rw [hplace] at h
    exact Option.isSome_iff_ne_none.1 h

/-- Directories that were made along a way. -/
theorem foldlM_walk_eq_ok {w : Walk} (hdots : ".." ∉ names)
    (h : names.foldlM (Walk.enter p) ⟨fs, []⟩ = .ok w) :
    w.place = names ∧ (∀ name ∈ names, fits name) ∧ ∀ place,
      w.files.entryAt? place = if place <+: names then some .directory else fs.entryAt? place := by
  induction names using List.reverseRecOn generalizing w with
  | nil =>
    cases h
    refine ⟨rfl, forall_mem_nil _, fun place => ?_⟩
    split
    next habove =>
      rw [prefix_nil.1 habove]
      rfl
    · rfl
  | append_singleton names name ih =>
    rw [mem_append, not_or, mem_singleton] at hdots
    rw [foldlM_concat] at h
    obtain ⟨between, hfront, h⟩ := exists_of_bind_eq_ok h
    obtain ⟨hplace, hfit, hentry⟩ := ih hdots.1 hfront
    obtain ⟨hnext, hfits, hlast⟩ := walk_eq_ok (Ne.symm hdots.2) h
    rw [hplace] at hnext hlast
    refine ⟨hnext, fun other hother => ?_, fun place => ?_⟩
    · rcases mem_append.1 hother with hother | hother
      · exact hfit other hother
      · rwa [mem_singleton.1 hother]
    · rw [hlast, hentry]
      by_cases heq : place = names ++ [name]
      · rw [if_pos heq, if_pos (heq ▸ prefix_refl _)]
      · simp only [prefix_concat_iff, heq, false_or, if_false]

/-- Just the path becomes directories. -/
theorem makeDirectories_eq_ok (hdots : ".." ∉ p.names) (h : fs.makeDirectories p = .ok fs') :
    (∀ name ∈ p.names, fits name) ∧ ∀ place, fs'.entryAt? place =
      if place <+: p.names then some .directory else fs.entryAt? place := by
  obtain ⟨w, hwalk, rfl⟩ := exists_of_makeDirectories h
  exact (foldlM_walk_eq_ok hdots hwalk).2

/-! ### Emptying a directory -/

/-- Erasing takes all below along. -/
theorem entryAt?_erase (fs : FileSystem) (dir place : List String) :
    (fs.erase dir).entryAt? place =
      if dir <+: place ∧ place ≠ [] then none else fs.entryAt? place := by
  by_cases hnil : place = []
  · rw [if_neg (fun h => h.2 hnil), hnil]
    rfl
  rw [entryAt?_of_ne_nil hnil, entryAt?_of_ne_nil hnil]
  refine (lookup_filter (fun place => !dir.isPrefixOf place) fs.entries place).trans ?_
  by_cases hbelow : dir <+: place
  · simp [hbelow, hnil]
  · simp [hbelow]

/-- What is cleared away before a directory is made: all at its place and below. -/
theorem entryAt?_cleared {cleared : FileSystem} (htree : fs.IsTree) (hdots : ".." ∉ p.names)
    (h : fs.orAbsent (if fs.isDirectory p then fs.removeTree p else fs.removeFile p) = .ok cleared)
    (place : List String) : cleared.entryAt? place =
      if p.names <+: place ∧ place ≠ [] then none else fs.entryAt? place := by
  -- Where nothing is removed, nothing was there.
  have habsent : fs.entryAt? p.names = none → fs.entryAt? place =
      if p.names <+: place ∧ place ≠ [] then none else fs.entryAt? place := by
    intro hnone
    split
    next hbelow => exact htree.nothing_below hbelow.1 hnone
    · rfl
  split at h
  next hdir =>
    have hdirectory := hasDirectory_of_isDirectory hdots hdir
    rw [removeTree, locate_of_hasDirectory hdirectory] at h
    simp only [bind, Except.bind, hdirectory.directory _ (prefix_refl _)] at h
    cases h
    exact entryAt?_erase fs p.names place
  next hdir =>
    unfold removeFile at h
    cases hlocate : fs.locate p with
    | error fault =>
      rw [hlocate] at h
      cases fault with
      | noSuchFile path =>
        cases h
        obtain ⟨front, hfront, -, hnone⟩ := (foldlM_enter_cases hdots).2 path hlocate
        exact habsent (htree.nothing_below hfront hnone)
      | _ => cases h
    | ok found =>
      obtain rfl := locate_eq_ok hdots hlocate
      simp only [hlocate, bind, Except.bind] at h
      cases hentry : fs.entryAt? p.names with
      | none =>
        rw [hentry] at h
        cases h
        exact habsent hentry
      | some entry =>
        rw [hentry] at h
        cases entry with
        | file content =>
          cases h
          exact entryAt?_erase fs p.names place
        | directory => cases h

/-- A directory that is made empty: the way to it, nothing below it, and all else as it was. -/
theorem makeEmptyDirectory_eq_ok (htree : fs.IsTree) (hdots : ".." ∉ p.names)
    (h : fs.makeEmptyDirectory p = .ok fs') :
    (∀ name ∈ p.names, fits name) ∧ ∀ place, fs'.entryAt? place =
      if place <+: p.names then some .directory
      else if p.names <+: place then none else fs.entryAt? place := by
  obtain ⟨cleared, hclear, hmake⟩ := exists_of_bind_eq_ok h
  obtain ⟨hfit, hmade⟩ := makeDirectories_eq_ok hdots hmake
  refine ⟨hfit, fun place => ?_⟩
  rw [hmade, entryAt?_cleared htree hdots hclear]
  by_cases hway : place <+: p.names
  · rw [if_pos hway, if_pos hway]
  · have hne : place ≠ [] := fun heq => hway (heq ▸ nil_prefix)
    simp only [if_neg hway, ne_eq, hne, not_false_eq_true, and_true]

/-! ### Files written into a directory -/

/-- What was written last to a place, when some files are written into a directory. -/
def lastWritten? (dir : List String) (files : List (String × Bytes)) (place : List String) :
    Option Bytes :=
  (files.reverse.find? fun file => dir ++ [file.1] == place).map Prod.snd

theorem lastWritten?_eq_some {files : List (String × Bytes)} {content : Bytes}
    (h : lastWritten? dir files place = some content) :
    ∃ name, (name, content) ∈ files ∧ place = dir ++ [name] := by
  obtain ⟨⟨name, written⟩, hfound, rfl⟩ := Option.map_eq_some_iff.1 h
  have hplace := find?_some hfound
  exact ⟨name, mem_reverse.1 (mem_of_find?_eq_some hfound), (beq_iff_eq.1 hplace).symm⟩

theorem entryAt?_written_eq (fs : FileSystem) (dir : List String) (files : List (String × Bytes))
    (place : List String) : (fs.written dir files).entryAt? place =
      ((lastWritten? dir files place).map Entry.file).or (fs.entryAt? place) := by
  induction files using List.reverseRecOn with
  | nil => rfl
  | append_singleton files file ih =>
    have hlast : fs.written dir (files ++ [file]) =
        (fs.written dir files).put (dir ++ [file.1]) (.file file.2) := by
      rw [written, foldl_append]
      rfl
    rw [hlast, lastWritten?, reverse_append, reverse_singleton, singleton_append]
    by_cases heq : place = dir ++ [file.1]
    · subst heq
      rw [entryAt?_put_self (by simp), find?_cons_of_pos (by simp)]
      rfl
    · rw [entryAt?_put_of_ne heq, find?_cons_of_neg (by simpa using Ne.symm heq)]
      exact ih

/-! ### Look-ups in two file systems -/

section Congr

variable (hdots : ".." ∉ p.names)
  (h : ∀ front, front <+: p.names → fs.entryAt? front = fs'.entryAt? front)
include hdots h

theorem locate_congr : fs.locate p = fs'.locate p := by
  have hwalk : ∀ names, names <+: p.names →
      names.foldlM (fs.enter p) [] = names.foldlM (fs'.enter p) [] := by
    intro names
    induction names using List.reverseRecOn with
    | nil => exact fun _ => rfl
    | append_singleton names name ih =>
      intro habove
      have hfront := (prefix_append names [name]).trans habove
      rw [foldlM_concat, foldlM_concat, ← ih hfront]
      cases hnames : names.foldlM (fs.enter p) [] with
      | error fault => rfl
      | ok place =>
        obtain rfl := (foldlM_enter_cases fun hmem => hdots (hfront.subset hmem)).1 place hnames
        change fs.enter p place name = fs'.enter p place name
        unfold enter
        rw [h place hfront]
  exact hwalk p.names (prefix_refl _)

theorem contains_congr : fs.contains p = fs'.contains p := by
  unfold contains entry?
  rw [← locate_congr hdots h]
  cases hplace : fs.locate p with
  | error fault => rfl
  | ok place =>
    obtain rfl := locate_eq_ok hdots hplace
    simp only [h p.names (prefix_refl _)]

theorem read_congr : fs.read p = fs'.read p := by
  unfold read
  rw [← locate_congr hdots h]
  cases hplace : fs.locate p with
  | error fault => rfl
  | ok place =>
    obtain rfl := locate_eq_ok hdots hplace
    simp only [bind, Except.bind, h p.names (prefix_refl _)]

end Congr

end MovieDiff.FileSystem
