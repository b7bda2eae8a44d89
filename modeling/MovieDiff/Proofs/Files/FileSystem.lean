import Mathlib.Data.List.Induction
import Mathlib.Data.List.Nodup
import MovieDiff.Files.FileSystem
import MovieDiff.Proofs.Results

/-!
Files written into a directory. A directory that is reached without double dots stays where it is
when files are written into it; each file is read back, and a listing of the directory shows the
files that were written, those of a pattern each once.
-/
namespace MovieDiff.FileSystem

open List

variable {place names other : List String} {p : Path} {content : Bytes}
  {files : List (String × Bytes)} {name : String}

variable {fs : FileSystem}

/-! ### Entries -/

theorem entryAt?_of_ne_nil (h : place ≠ []) : fs.entryAt? place = fs.entries.lookup place := by
  unfold entryAt?
  split
  · exact absurd rfl h
  · rfl

theorem entryAt?_put_self (h : place ≠ []) (entry : Entry) :
    (fs.put place entry).entryAt? place = some entry := by
  rw [entryAt?_of_ne_nil h]
  simp [put]

/-- Entries that are kept by their places are found as before. -/
theorem lookup_filter (keep : List String → Bool) (entries : List (List String × Entry))
    (place : List String) : (entries.filter fun e => keep e.1).lookup place =
      if keep place then entries.lookup place else none := by
  induction entries with
  | nil => simp
  | cons e entries ih =>
    obtain ⟨first, entry⟩ := e
    by_cases heq : place = first
    · subst heq
      cases hkeep : keep place with
      | true => simp [hkeep]
      | false => simpa [hkeep] using ih
    · rw [lookup_cons, beq_false_of_ne heq, ← ih, filter_cons]
      split
      · rw [lookup_cons, beq_false_of_ne heq]
      · rfl

theorem entryAt?_put_of_ne (h : other ≠ place) (entry : Entry) :
    (fs.put place entry).entryAt? other = fs.entryAt? other := by
  by_cases hnil : other = []
  · rw [hnil]
    rfl
  · rw [entryAt?_of_ne_nil hnil, entryAt?_of_ne_nil hnil, put, lookup_cons, beq_false_of_ne h]
    exact (lookup_filter (· ≠ place) _ _).trans (if_pos (by simpa using h))

/-! ### Directories -/

/-- A directory that is reached from the root down, name by name. -/
structure HasDirectory (fs : FileSystem) (names : List String) : Prop where
  directory : ∀ front, front <+: names → fs.entryAt? front = some .directory
  fit : ∀ name ∈ names, fits name
  dots : ".." ∉ names

theorem HasDirectory.above {front : List String} (h : HasDirectory fs names)
    (hfront : front <+: names) : HasDirectory fs front where
  directory := fun other hother => h.directory other (hother.trans hfront)
  fit := fun name hname => h.fit name (hfront.subset hname)
  dots := fun hname => h.dots (hfront.subset hname)

theorem ne_concat_of_above {front : List String} (h : front <+: names) (name : String) :
    front ≠ names ++ [name] := by
  rintro rfl
  have hlength := h.length_le
  rw [length_append, length_singleton] at hlength
  omega

theorem enter_directory (h : fs.entryAt? place = some .directory) (p : Path)
    (hfits : fits name) (hname : name ≠ "..") :
    fs.enter p place name = .ok (place ++ [name]) := by
  simp [enter, h, hfits, hname]

theorem foldlM_enter (h : HasDirectory fs names) (p : Path) :
    names.foldlM (fs.enter p) [] = .ok names := by
  induction names using List.reverseRecOn with
  | nil => rfl
  | append_singleton names name ih =>
    have habove : HasDirectory fs names := h.above (prefix_append names [name])
    have hlast : name ∈ names ++ [name] := mem_append_right names mem_cons_self
    rw [foldlM_concat, ih habove]
    exact enter_directory (habove.directory names (prefix_refl names)) p (h.fit name hlast)
      fun heq => h.dots (heq ▸ hlast)

theorem locate_of_hasDirectory (h : HasDirectory fs p.names) : fs.locate p = .ok p.names :=
  foldlM_enter h p

theorem enter_eq_ok_iff {next : List String} : fs.enter p place name = .ok next ↔
    fs.entryAt? place = some .directory ∧ fits name ∧
      next = if name = ".." then place.dropLast else place ++ [name] := by
  unfold enter
  split
  next hplace =>
    cases hfits : fits name with
    | false => simp
    | true => simp [hplace, eq_comm]
  next hplace => simp [hplace]
  next hplace => simp [hplace]

theorem enter_eq_ok {next : List String} (h : fs.enter p place name = .ok next)
    (hname : name ≠ "..") :
    fs.entryAt? place = some .directory ∧ fits name ∧ next = place ++ [name] := by
  have hparts := enter_eq_ok_iff.1 h
  rwa [if_neg hname] at hparts

theorem HasDirectory.below (h : HasDirectory fs names) (hfits : fits name)
    (hname : name ≠ "..") (hplace : fs.entryAt? (names ++ [name]) = some .directory) :
    HasDirectory fs (names ++ [name]) where
  directory := by
    intro front hfront
    rcases prefix_concat_iff.1 hfront with rfl | hfront
    · exact hplace
    · exact h.directory front hfront
  fit := by
    intro other hother
    rcases mem_append.1 hother with hother | hother
    · exact h.fit other hother
    · rwa [mem_singleton.1 hother]
  dots := by
    intro hother
    rcases mem_append.1 hother with hother | hother
    · exact h.dots hother
    · exact hname (mem_singleton.1 hother).symm

theorem hasDirectory_nil : HasDirectory fs [] where
  directory := fun front hfront => by
    rw [prefix_nil.1 hfront]
    rfl
  fit := forall_mem_nil _
  dots := not_mem_nil

theorem hasDirectory_of_foldlM_enter (hdots : ".." ∉ names)
    (h : names.foldlM (fs.enter p) [] = .ok place) (hplace : fs.entryAt? place = some .directory) :
    place = names ∧ HasDirectory fs names := by
  induction names using List.reverseRecOn generalizing place with
  | nil =>
    cases h
    exact ⟨rfl, hasDirectory_nil⟩
  | append_singleton names name ih =>
    rw [mem_append, not_or, mem_singleton] at hdots
    rw [foldlM_concat] at h
    obtain ⟨front, hfront, henter⟩ := exists_of_bind_eq_ok h
    obtain ⟨hdirectory, hfits, hnext⟩ := enter_eq_ok henter (Ne.symm hdots.2)
    obtain ⟨rfl, habove⟩ := ih hdots.1 hfront hdirectory
    rw [hnext] at hplace ⊢
    exact ⟨rfl, habove.below hfits (Ne.symm hdots.2) hplace⟩

/-- A directory has directories above it. -/
theorem hasDirectory_of_isDirectory (hdots : ".." ∉ p.names) (h : fs.isDirectory p) :
    HasDirectory fs p.names := by
  unfold isDirectory entry? at h
  split at h
  next place hplace =>
    exact (hasDirectory_of_foldlM_enter hdots hplace (by simpa using h)).2
  · cases h

theorem isDirectory_of_hasDirectory (h : HasDirectory fs p.names) : fs.isDirectory p := by
  simp [isDirectory, entry?, locate_of_hasDirectory h, h.directory p.names (prefix_refl _)]

/-- A directory that is there already is not made again. -/
theorem foldlM_walk (h : HasDirectory fs names) (p : Path) :
    names.foldlM (Walk.enter p) ⟨fs, []⟩ = .ok ⟨fs, names⟩ := by
  induction names using List.reverseRecOn with
  | nil => rfl
  | append_singleton names name ih =>
    have hlast : name ∈ names ++ [name] := mem_append_right names mem_cons_self
    have hname : name ≠ ".." := fun heq => h.dots (heq ▸ hlast)
    have henter : Walk.enter p ⟨fs, names⟩ name = .ok ⟨fs, names ++ [name]⟩ := by
      simp [Walk.enter, hname, h.fit name hlast, h.directory _ (prefix_refl _)]
    rw [foldlM_concat, ih (h.above (prefix_append names [name]))]
    exact henter

theorem makeDirectories_of_hasDirectory (h : HasDirectory fs p.names) :
    fs.makeDirectories p = .ok fs := by
  rw [makeDirectories, locate_of_hasDirectory h]
  change (do return (← p.names.foldlM (Walk.enter p) ⟨fs, []⟩).files) = _
  rw [foldlM_walk h p]
  rfl

/-! ### Files in a directory -/

/-- Writing never replaces a directory. -/
theorem write_eq_ok {fs' : FileSystem} (h : fs.write p content = .ok fs') :
    ∃ place, fs.locate p = .ok place ∧ fs.entryAt? place ≠ some .directory ∧
      fs' = fs.put place (.file content) := by
  obtain ⟨place, hplace, h⟩ := exists_of_bind_eq_ok h
  split at h
  · cases h
  next hentry =>
    cases h
    exact ⟨place, hplace, by simpa using hentry, rfl⟩

section Child

variable {dir : Path} (h : HasDirectory fs dir.names) (hname : name ≠ "..")
include h hname

theorem locate_child (hfits : fits name) :
    fs.locate (dir.child name) = .ok (dir.names ++ [name]) := by
  change (dir.names ++ [name]).foldlM (fs.enter (dir.child name)) [] = _
  rw [foldlM_concat, foldlM_enter h]
  exact enter_directory (h.directory _ (prefix_refl _)) _ hfits hname

theorem fits_of_locate_child (hplace : fs.locate (dir.child name) = .ok place) :
    fits name ∧ place = dir.names ++ [name] := by
  change (dir.names ++ [name]).foldlM (fs.enter (dir.child name)) [] = _ at hplace
  rw [foldlM_concat, foldlM_enter h] at hplace
  change fs.enter (dir.child name) dir.names name = _ at hplace
  exact (enter_eq_ok hplace hname).2

theorem write_child_eq_ok {fs' : FileSystem}
    (hwrite : fs.write (dir.child name) content = .ok fs') :
    fits name ∧ fs' = fs.put (dir.names ++ [name]) (.file content) := by
  obtain ⟨place, hplace, -, rfl⟩ := write_eq_ok hwrite
  obtain ⟨hfits, rfl⟩ := fits_of_locate_child h hname hplace
  exact ⟨hfits, rfl⟩

theorem read_child (hfits : fits name)
    (hentry : fs.entryAt? (dir.names ++ [name]) = some (.file content)) :
    fs.read (dir.child name) = .ok content := by
  simp [read, locate_child h hname hfits, hentry, bind, Except.bind, pure, Except.pure]

theorem isFile_child (hfits : fits name)
    (hentry : fs.entryAt? (dir.names ++ [name]) = some (.file content)) :
    fs.isFile (dir.child name) := by
  simp [isFile, entry?, locate_child h hname hfits, hentry]

end Child

/-! ### Several files in a directory -/

def written (fs : FileSystem) (dir : List String) (files : List (String × Bytes)) : FileSystem :=
  files.foldl (fun fs file => fs.put (dir ++ [file.1]) (.file file.2)) fs

theorem HasDirectory.put (h : HasDirectory fs names) (name : String) (entry : Entry) :
    HasDirectory (fs.put (names ++ [name]) entry) names where
  directory := by
    intro front hfront
    rw [entryAt?_put_of_ne (ne_concat_of_above hfront name)]
    exact h.directory front hfront
  fit := h.fit
  dots := h.dots

theorem HasDirectory.written (h : HasDirectory fs names) (files : List (String × Bytes)) :
    HasDirectory (fs.written names files) names := by
  induction files generalizing fs with
  | nil => exact h
  | cons file files ih => exact ih (h.put file.1 (.file file.2))

theorem entryAt?_written_of_not_mem {dir : List String} (h : name ∉ files.map Prod.fst) :
    (fs.written dir files).entryAt? (dir ++ [name]) = fs.entryAt? (dir ++ [name]) := by
  induction files generalizing fs with
  | nil => rfl
  | cons file files ih =>
    rw [map_cons, mem_cons, not_or] at h
    have hne : dir ++ [name] ≠ dir ++ [file.1] := by simpa using h.1
    rw [written, foldl_cons, ← written, ih h.2, entryAt?_put_of_ne hne]

/-- Of files with different names each one stays as it was written. -/
theorem entryAt?_written {dir : List String} (hnodup : (files.map Prod.fst).Nodup)
    (hmem : (name, content) ∈ files) :
    (fs.written dir files).entryAt? (dir ++ [name]) = some (.file content) := by
  induction files generalizing fs with
  | nil => cases hmem
  | cons file files ih =>
    rw [map_cons, nodup_cons] at hnodup
    rw [written, foldl_cons, ← written]
    rcases mem_cons.1 hmem with rfl | hmem
    · rw [entryAt?_written_of_not_mem hnodup.1, entryAt?_put_self (by simp)]
    · exact ih hnodup.2 hmem

/-- The last name of a path that is directly below a place. -/
def nameBelow? (place path : List String) : Option String :=
  if path.length = place.length + 1 ∧ path.dropLast = place then path.getLast? else none

theorem nameBelow?_eq_some_iff {path : List String} :
    nameBelow? place path = some name ↔ path = place ++ [name] := by
  unfold nameBelow?
  constructor
  · intro h
    split at h
    next hpath => rw [← hpath.2, dropLast_append_getLast? name h]
    · cases h
  · rintro rfl
    simp

def namesBelow (fs : FileSystem) (place : List String) : List String :=
  fs.entries.filterMap fun e => nameBelow? place e.1

theorem namesAt_perm (fs : FileSystem) (place : List String) :
    (fs.namesAt place).Perm (fs.namesBelow place) :=
  mergeSort_perm _ _

/-- A name is below a place once, after it is put there. -/
theorem namesBelow_put (place : List String) (name : String) (entry : Entry) :
    (fs.put (place ++ [name]) entry).namesBelow place =
      name :: (fs.namesBelow place).filter (· ≠ name) := by
  have hkept : ∀ entries : List (List String × Entry),
      ((entries.filter fun e => e.1 ≠ place ++ [name]).filterMap fun e => nameBelow? place e.1) =
        (entries.filterMap fun e => nameBelow? place e.1).filter (· ≠ name) := by
    intro entries
    induction entries with
    | nil => rfl
    | cons e entries ih =>
      cases hbelow : nameBelow? place e.1 with
      | none =>
        have hne : e.1 ≠ place ++ [name] := fun heq => by
          rw [nameBelow?_eq_some_iff.2 heq] at hbelow
          cases hbelow
        rw [filter_cons_of_pos (by simpa using hne), filterMap_cons, filterMap_cons,
          hbelow, ih]
      | some other =>
        have hpath := nameBelow?_eq_some_iff.1 hbelow
        rw [filterMap_cons, hbelow]
        by_cases hname : other = name
        · rw [filter_cons_of_neg (by simp [hpath, hname]),
            filter_cons_of_neg (by simp [hname]), ih]
        · rw [filter_cons_of_pos (by simp [hpath, hname]), filterMap_cons, hbelow,
            filter_cons_of_pos (by simp [hname]), ih]
  unfold namesBelow put
  rw [filterMap_cons, nameBelow?_eq_some_iff.2 rfl, hkept]

/-- New files are listed, the last one first. -/
theorem namesBelow_written {dir : List String} (hnodup : (files.map Prod.fst).Nodup)
    (hfresh : ∀ name ∈ files.map Prod.fst, name ∉ fs.namesBelow dir) :
    (fs.written dir files).namesBelow dir =
      (files.map Prod.fst).reverse ++ fs.namesBelow dir := by
  induction files generalizing fs with
  | nil => rfl
  | cons file files ih =>
    -- What is written last stands first, and no later file takes the name away.
    rw [map_cons] at hnodup hfresh ⊢
    rw [nodup_cons] at hnodup
    obtain ⟨hfile, hothers⟩ := forall_mem_cons.1 hfresh
    have hput : (fs.put (dir ++ [file.1]) (.file file.2)).namesBelow dir =
        file.1 :: fs.namesBelow dir := by
      rw [namesBelow_put, filter_eq_self.2]
      intro name hname
      have hne : name ≠ file.1 := fun heq => hfile (heq ▸ hname)
      simpa using hne
    rw [written, foldl_cons, ← written, ih hnodup.2, hput, reverse_cons,
      append_assoc, singleton_append]
    intro name hname
    rw [hput, mem_cons, not_or]
    exact ⟨fun heq => hnodup.1 (heq ▸ hname), hothers name hname⟩

/-! ### Listing -/

theorem matchesName_exactly (suffix cs : List Char) :
    Glob.matchesName (suffix.map GlobChar.exactly) cs ↔ cs = suffix := by
  induction suffix generalizing cs with
  | nil => simp [Glob.matchesName]
  | cons x suffix ih =>
    cases cs with
    | nil => simp [Glob.matchesName]
    | cons c cs =>
      rw [map_cons, Glob.matchesName, Bool.and_eq_true, ih, beq_iff_eq, List.cons.injEq,
        eq_comm]

/-- A name matches an ending when it ends so. -/
theorem matchesName_ending (suffix cs : List Char) :
    Glob.matchesName (.anyText :: suffix.map GlobChar.exactly) cs ↔ suffix <:+ cs := by
  induction cs with
  | nil =>
    rw [Glob.matchesName, matchesName_exactly, suffix_nil, eq_comm]
  | cons c cs ih =>
    rw [Glob.matchesName, Bool.or_eq_true, matchesName_exactly, ih, suffix_cons_iff, eq_comm]

theorem exists_of_matchesName_ending {suffix : String}
    (h : Glob.matchesName (.anyText :: suffix.toList.map GlobChar.exactly) name.toList) :
    ∃ front, name = front ++ suffix := by
  obtain ⟨front, hfront⟩ := (matchesName_ending _ _).1 h
  exact ⟨String.ofList front, String.toList_injective (by simp [← hfront])⟩

theorem append_empty (p : Path) : p ++ Path.empty = p := by
  change (⟨p.root, p.names ++ []⟩ : Path) = p
  rw [append_nil]

theorem childNames_of_hasDirectory {dir : Path} (h : HasDirectory fs dir.names) :
    fs.childNames dir = fs.namesAt dir.names := by
  rw [childNames, locate_of_hasDirectory h]

theorem childNames_eq_nil_iff {dir : Path} (h : HasDirectory fs dir.names) :
    fs.childNames dir = [] ↔ fs.namesBelow dir.names = [] := by
  have hperm := fs.namesAt_perm dir.names
  rw [childNames_of_hasDirectory h]
  constructor
  · intro hnil
    rw [hnil] at hperm
    exact nil_perm.1 hperm
  · intro hnil
    rw [hnil] at hperm
    exact perm_nil.1 hperm

theorem select_matching (dir : Path) (pattern : List GlobChar) :
    fs.select dir [.matching pattern] .empty =
      ((fs.childNames dir).filter fun name => Glob.matchesName pattern name.toList).map
        Path.empty.child := by
  rw [select, append_empty]
  induction fs.childNames dir with
  | nil => rfl
  | cons name names ih =>
    rw [flatMap_cons, ih]
    cases hmatches : Glob.matchesName pattern name.toList with
    | true =>
      rw [filter_cons_of_pos (by simpa using hmatches)]
      rfl
    | false =>
      rw [filter_cons_of_neg (by simp [hmatches])]
      rfl

end MovieDiff.FileSystem
