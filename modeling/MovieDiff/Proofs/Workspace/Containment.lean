import MovieDiff.Proofs.Workspace.Lookup

/-!
Where look-ups lead. Main statement: the places that are looked up in a workspace lie inside their
directory, and a script's file does unless the script is that directory itself: then the ending is
put to the directory's own name. A look-up that finds nothing says so, or that a name is too long.
-/
namespace MovieDiff.Workspace

open List

variable {fs : FileSystem} {dir p file : Path} {fault : Fault} {suffix : String}

/-- A path below a directory, or that directory, without a way back up. -/
structure IsInside (dir file : Path) : Prop where
  root : file.root = dir.root
  below : dir.names <+: file.names
  dots : ".." ∉ file.names

/-- A look-up that stays inside a directory, or is refused or finds nothing. -/
def StaysIn (dir : Path) : Except Fault Path → Prop
  | .ok file => IsInside dir file
  | .error fault => fault.kind = .invalidValue ∨ fault.kind = .missingFile

/-- Whether a name on the way to a path is longer than a name may be. -/
def MeetsLongName (fs : FileSystem) (file : Path) : Prop :=
  ∃ path, fs.locate file = .error (.nameTooLong path)

/-- What is accepted lies inside. -/
theorem isInside_of_insideOf (h : insideOf dir p fault = .ok file) : IsInside dir file := by
  obtain ⟨hfile, hwithin, -⟩ := insideOf_eq_ok h
  rw [Path.isWithin, Bool.and_eq_true, beq_iff_eq, isPrefixOf_iff_prefix] at hwithin
  refine ⟨hwithin.1, hwithin.2, ?_⟩
  rw [hfile]
  exact Path.dots_not_mem_cancelDots _

theorem staysIn_insideOf (dir p : Path) (h : fault.kind = .invalidValue) :
    StaysIn dir (insideOf dir p fault) := by
  cases hfile : insideOf dir p fault with
  | ok file => exact isInside_of_insideOf hfile
  | error found =>
    unfold insideOf at hfile
    dsimp only at hfile
    split at hfile
    · cases hfile
      exact .inl rfl
    · split at hfile <;> cases hfile
      exact .inl h

/-- When a look-up stays inside. -/
theorem staysIn_existing_iff (h : fault.kind = .missingFile) : StaysIn dir (existing fs file fault) ↔
    ¬ MeetsLongName fs file ∧ (fs.contains file → IsInside dir file) := by
  unfold existing FileSystem.ask MeetsLongName
  split
  next path hlong =>
    simp [hlong, StaysIn, Fault.kind, bind, Except.bind]
  next hshort =>
    have hnot : ¬ ∃ path, fs.locate file = .error (.nameTooLong path) := fun ⟨path, hlong⟩ =>
      hshort path hlong
    cases hcontains : fs.contains file <;>
      simp [hnot, StaysIn, h, bind, Except.bind, pure, Except.pure, throw, throwThe,
        MonadExceptOf.throw]

/-- A file that is looked for where an earlier look-up led. -/
theorem staysIn_bind_iff {found : Except Fault Path} (h : StaysIn dir found) {f : Path → Path}
    {missing : Path → Fault} (hkind : ∀ place, (missing place).kind = .missingFile) :
    StaysIn dir (found >>= fun place => existing fs (f place) (missing place)) ↔
      ∀ place, found = .ok place → ¬ MeetsLongName fs (f place) ∧
        (fs.contains (f place) → IsInside dir (f place)) := by
  cases found with
  | error fault => exact iff_of_true h fun place heq => by cases heq
  | ok place =>
    simp only [bind, Except.bind, Except.ok.injEq, forall_eq']
    exact staysIn_existing_iff (hkind place)

/-- An ending is put to the last name, which is the directory's own only at the directory. -/
theorem isInside_withSuffix_iff {base : Path} (h : IsInside (base.child "raw") p)
    (hraw : "raw" ++ suffix ≠ "raw") (hdots : ∀ stem : String, stem ++ suffix ≠ "..") :
    IsInside (base.child "raw") (p.withSuffix suffix) ↔ p ≠ base.child "raw" := by
  constructor
  · rintro hinside rfl
    have hlength := hinside.below.eq_of_length (by simp [Path.withSuffix, Path.child, Path.parent])
    have hstem : (base.child "raw").stem = "raw" := by
      rw [Path.stem, Path.name_child]
      decide
    rw [Path.withSuffix, Path.parent_child, hstem] at hlength
    exact hraw (by simpa [Path.child] using hlength.symm)
  · intro hne
    obtain ⟨rest, hrest⟩ := h.below
    obtain ⟨root, names⟩ := p
    cases h.root
    dsimp only at hrest
    subst hrest
    have hbelow : rest ≠ [] := by
      rintro rfl
      exact hne (by simp [Path.child])
    refine ⟨rfl, ?_, ?_⟩
    · simp only [Path.withSuffix, Path.parent, Path.child, dropLast_append_of_ne_nil hbelow]
      exact (prefix_append _ _).trans (prefix_append _ _)
    · simp only [Path.withSuffix, Path.parent, Path.child, mem_append, mem_singleton,
        not_or]
      exact ⟨fun hmem => h.dots (dropLast_subset _ hmem), (hdots _).symm⟩

/-- Whether the file of a script is looked for where names fit and, if it is there, is not named
after the directory of what was extracted. -/
def FileStays (fs : FileSystem) (w : Workspace) (script suffix : String) : Prop :=
  ∀ place, w.extractionPath (Path.ofString "scripts" ++ Path.ofString script) = .ok place →
    ¬ MeetsLongName fs (place.withSuffix suffix) ∧
      (place = w.extractionDir → ¬ fs.contains (place.withSuffix suffix))

theorem staysIn_scriptFile_iff {w : Workspace} {script : String} {c : Char}
    (hraw : "raw" ++ suffix ≠ "raw") (hsuffix : suffix.toList.getLast? = some c) (hc : c ≠ '.') :
    StaysIn w.extractionDir (w.scriptFile fs script suffix) ↔ FileStays fs w script suffix := by
  have hstays : StaysIn w.extractionDir
      (w.extractionPath (Path.ofString "scripts" ++ Path.ofString script)) :=
    staysIn_insideOf _ _ rfl
  refine (staysIn_bind_iff hstays fun _ => rfl).trans (forall₂_congr fun place hplace => ?_)
  rw [hplace] at hstays
  refine and_congr_right fun _ => ?_
  rw [extractionDir, isInside_withSuffix_iff hstays hraw (Path.append_ne_dots hsuffix hc)]
  exact imp_not_comm

/-- Places in a workspace, the order of blocks among them, are inside their directory. So is the
file of a script, unless the script is the directory of what was extracted and a file is named after
that. A look-up fails as not allowed or not found, but for a name that is too long. -/
theorem lookups_stay_inside_iff (fs : FileSystem) (base : Path) (script : String) :
    StaysIn (ofPath base).extractionDir ((ofPath base).extractionPath (Path.ofString script)) ∧
    StaysIn (ofPath base).normalizationDir
      ((ofPath base).normalizationPath (Path.ofString script)) ∧
    (StaysIn (ofPath base).normalizationDir ((ofPath base).blockOrderFile fs script) ↔
      ∀ file, (ofPath base).normalizationPath
        (Path.ofString script ++ Path.ofString Pcode.orderFileName) = .ok file →
        ¬ MeetsLongName fs file) ∧
    (StaysIn (ofPath base).extractionDir ((ofPath base).rawPcodeFile fs script) ↔
      FileStays fs (ofPath base) script ".pcode") ∧
    (StaysIn (ofPath base).extractionDir ((ofPath base).actionScriptFile fs script) ↔
      FileStays fs (ofPath base) script ".as") := by
  refine ⟨staysIn_insideOf _ _ rfl, staysIn_insideOf _ _ rfl, ?_,
    staysIn_scriptFile_iff (by decide) rfl (by decide),
    staysIn_scriptFile_iff (by decide) rfl (by decide)⟩
  have hstays : StaysIn (ofPath base).normalizationDir ((ofPath base).normalizationPath
      (Path.ofString script ++ Path.ofString Pcode.orderFileName)) := staysIn_insideOf _ _ rfl
  refine (staysIn_bind_iff hstays fun _ => rfl).trans (forall₂_congr fun file hfile => ?_)
  rw [hfile] at hstays
  exact and_iff_left fun _ => hstays

def besideFiles : FileSystem where
  entries := [(["w"], .directory), (["w", "raw"], .directory), (["w", "raw.pcode"], .file [])]

/-- The look-up of the directory above the scripts leads out of the workspace's directory. -/
theorem rawPcodeFile_leaves :
    (ofPath (Path.ofString "/w")).rawPcodeFile besideFiles ".." =
      .ok (Path.ofString "/w/raw.pcode") ∧
    ¬ IsInside (ofPath (Path.ofString "/w")).extractionDir (Path.ofString "/w/raw.pcode") := by
  refine ⟨eq_ok_of_toOption (by decide +kernel), fun h => ?_⟩
  exact absurd h.below (by decide +kernel)

end MovieDiff.Workspace
