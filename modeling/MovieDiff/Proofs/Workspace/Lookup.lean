import MovieDiff.Proofs.Workspace.Cache

/-!
Looking up the files of a script. Main statement: the name of a script leads back to the file that
it was taken from exactly when the name before the file's ending is a name by itself and has no
ending of its own.
-/
namespace MovieDiff

open List
open MovieDiff.Path (ofString cancelDots splitName withSuffix)

variable {suffix name : String} {p : Path}

/-! ### Names in a listing -/

namespace FileSystem

variable {fs : FileSystem} {dir q : Path}

def IsNamed (fs : FileSystem) : Prop :=
  ∀ e ∈ fs.entries, ∀ name ∈ e.1, Path.IsName name

instance (fs : FileSystem) : Decidable fs.IsNamed :=
  inferInstanceAs (Decidable (∀ e ∈ fs.entries, ∀ name ∈ e.1, Path.IsName name))

theorem IsNamed.of_mem_pathsBelow (h : fs.IsNamed) (hq : q ∈ fs.pathsBelow dir) :
    q.root = .none ∧ ∀ name ∈ q.names, Path.IsName name := by
  obtain ⟨hroot, e, he, n, hnames⟩ := exists_of_mem_pathsBelow hq
  exact ⟨hroot, fun name hname => h e he name (mem_of_mem_drop (hnames ▸ hname))⟩

theorem IsNamed.of_mem_childNames (h : fs.IsNamed) (hname : name ∈ fs.childNames dir) :
    Path.IsName name := by
  unfold childNames at hname
  split at hname
  next place _ =>
    obtain ⟨e, he, hbelow⟩ := mem_filterMap.1 ((fs.namesAt_perm place).subset hname)
    exact h e he name (by simp [nameBelow?_eq_some_iff.1 hbelow])
  · cases hname

/-- What a listing of all depths shows: directories one below the other, and a name with the ending
in the last one. -/
theorem IsNamed.of_mem_listFiles (h : fs.IsNamed)
    (hp : p ∈ fs.listFiles dir (Glob.ending suffix true)) :
    ∃ dirs front, p = ⟨.none, dirs ++ [front ++ suffix]⟩ ∧
      ∀ name ∈ dirs ++ [front ++ suffix], Path.IsName name := by
  obtain ⟨q, hq, hmem⟩ := mem_flatMap.1 (mem_listFiles_iff.1 hp).2.1
  obtain ⟨name, hname, hmem⟩ := mem_flatMap.1 hmem
  have hdirs : q.root = .none ∧ ∀ name ∈ q.names, Path.IsName name := by
    rcases mem_cons.1 hq with rfl | hq
    · exact ⟨rfl, forall_mem_nil _⟩
    · obtain ⟨below, hbelow, rfl⟩ := mem_map.1 (mem_of_mem_filter hq)
      obtain ⟨root, names⟩ := below
      obtain ⟨rfl, hnames⟩ := h.of_mem_pathsBelow hbelow
      exact ⟨rfl, hnames⟩
  obtain ⟨hmatches, hmem⟩ := mem_ite_nil_right.1 hmem
  obtain ⟨front, rfl⟩ := exists_of_matchesName_ending (Bool.and_eq_true_iff.1 hmatches).1
  obtain ⟨root, names⟩ := q
  obtain ⟨rfl, hnames⟩ := hdirs
  refine ⟨names, front, mem_singleton.1 hmem, fun other hother => ?_⟩
  rcases mem_append.1 hother with hother | hother
  · exact hnames other hother
  · rw [mem_singleton.1 hother]
    exact h.of_mem_childNames hname

theorem contains_of_isFile (h : fs.isFile p) : fs.contains p := by
  obtain ⟨place, content, hplace, hentry⟩ := isFile_iff.1 h
  simp [contains, entry?, hplace, hentry]

/-- A listing of all depths shows the files of the directory itself. -/
theorem child_mem_listFiles (hname : name ≠ "..")
    (hfile : fs.isFile (dir.child name)) (hends : suffix.toList <:+ name.toList) :
    Path.empty.child name ∈ fs.listFiles dir (Glob.ending suffix true) := by
  obtain ⟨hdir, hchild⟩ := isDirectory_of_isFile_child hname hfile
  have hmatching : Path.empty.child name ∈ fs.select dir
      [.matching (.anyText :: suffix.toList.map GlobChar.exactly)] .empty := by
    rw [select_matching]
    exact mem_map_of_mem (mem_filter.2 ⟨hchild, (matchesName_ending _ _).2 hends⟩)
  exact mem_listFiles_iff.2 ⟨⟨hdir, rfl⟩, mem_flatMap.2 ⟨.empty, mem_cons_self, hmatching⟩, hfile⟩

theorem ask_of_contains (h : fs.contains p) : fs.ask fs.contains p = .ok true := by
  unfold ask
  split
  next hplace =>
    simp [contains, entry?, hplace] at h
  · rw [h]

end FileSystem

/-! ### Places of scripts -/

namespace Workspace

variable {fs : FileSystem} {base file : Path} {dirs : List String} {last : String}

def scriptsDir (w : Workspace) : Path :=
  w.extractionDir.child "scripts"

theorem existing_eq_ok_iff {fault : Fault} :
    existing fs p fault = .ok file ↔ file = p ∧ fs.contains p := by
  cases hcontains : fs.contains p with
  | true =>
    simp only [existing, FileSystem.ask_of_contains hcontains, bind, Except.bind, if_true, pure,
      Except.pure, Except.ok.injEq, and_true]
    exact eq_comm
  | false =>
    unfold existing FileSystem.ask
    split <;> simp [hcontains, bind, Except.bind, throw, throwThe, MonadExceptOf.throw]

theorem names_scriptsDir_ofPath (base : Path) :
    (ofPath base).scriptsDir = ⟨.slash, cancelDots base.names ++ ["raw", "scripts"]⟩ := by
  simp [scriptsDir, extractionDir, ofPath, Path.resolve, Path.child]

variable {names : List String}

theorem ofString_scripts_append (hne : names ≠ [])
    (h : ∀ name ∈ names, name ≠ "" ∧ '/' ∉ name.toList) :
    ofString "scripts" ++ ofString (Path.text ⟨.none, names⟩) =
      ⟨.none, "scripts" :: names.filter (· ≠ ".")⟩ := by
  have hscripts : ofString "scripts" = ⟨.none, ["scripts"]⟩ := by decide
  rw [Path.ofString_text hne h, hscripts]
  rfl

/-- The place of a script whose path has nothing but names of files. -/
theorem extractionPath_of_isName (hne : names ≠ []) (h : ∀ name ∈ names, Path.IsName name) :
    (ofPath base).extractionPath
        (ofString "scripts" ++ ofString (Path.text ⟨.none, names⟩)) =
      .ok ((ofPath base).scriptsDir ++ ⟨.none, names⟩) := by
  have hfilter : names.filter (· ≠ ".") = names :=
    filter_eq_self.2 fun name hname => by simpa using (h name hname).ne_dot
  have hdots : ".." ∉ cancelDots base.names ++ ["raw"] ++ "scripts" :: names := by
    simp only [mem_append, mem_cons, not_mem_nil, or_false, not_or]
    exact ⟨⟨Path.dots_not_mem_cancelDots _, by decide⟩, by decide,
      fun hmem => (h _ hmem).ne_dots rfl⟩
  have hplace : ((ofPath base).extractionDir ++ (⟨.none, "scripts" :: names⟩ : Path)).resolve =
      (ofPath base).scriptsDir ++ ⟨.none, names⟩ := by
    rw [names_scriptsDir_ofPath]
    refine (congrArg (Path.mk .slash) (Path.cancelDots_of_not_mem hdots)).trans ?_
    rw [append_assoc]
    exact congrArg (Path.mk .slash) (by simp)
  have hwithin : ((ofPath base).scriptsDir ++ (⟨.none, names⟩ : Path)).isWithin
      (ofPath base).extractionDir := by
    change ((ofPath base).extractionDir.root == _ && _) = true
    rw [Bool.and_eq_true, isPrefixOf_iff_prefix]
    exact ⟨beq_self_eq_true _, (prefix_append _ _).trans (prefix_append _ _)⟩
  rw [ofString_scripts_append hne fun name hname => ⟨(h name hname).ne_empty, (h name hname).slash⟩,
    hfilter, extractionPath, insideOf, hplace]
  simpa [hwithin] using fun name hname => (h name hname).null

theorem withSuffix_append (dir : Path) (dirs : List String) (last suffix : String) :
    (dir ++ (⟨.none, dirs ++ [last]⟩ : Path)).withSuffix suffix =
      dir ++ ⟨.none, dirs ++ [(splitName last).1 ++ suffix]⟩ := by
  have hchild : ∀ name, dir ++ (⟨.none, dirs ++ [name]⟩ : Path) =
      (dir ++ (⟨.none, dirs⟩ : Path)).child name := by
    intro name
    change (⟨dir.root, dir.names ++ (dirs ++ [name])⟩ : Path) =
      ⟨dir.root, dir.names ++ dirs ++ [name]⟩
    rw [append_assoc]
  rw [hchild, hchild, withSuffix, Path.stem, Path.name_child, Path.parent_child]

/-- The file of a script whose path has nothing but names of files: the last of these loses its
ending. -/
theorem scriptFile_eq_ok_iff (h : ∀ name ∈ dirs ++ [last], Path.IsName name) :
    (ofPath base).scriptFile fs (Path.text ⟨.none, dirs ++ [last]⟩) suffix = .ok file ↔
      file = (ofPath base).scriptsDir ++ ⟨.none, dirs ++ [(splitName last).1 ++ suffix]⟩ ∧
        fs.contains file := by
  simp only [scriptFile, extractionPath_of_isName (by simp) h, bind, Except.bind,
    withSuffix_append, existing_eq_ok_iff]
  constructor
  · rintro ⟨rfl, hcontains⟩
    exact ⟨rfl, hcontains⟩
  · rintro ⟨rfl, hcontains⟩
    exact ⟨rfl, hcontains⟩

theorem length_cancelDots_le (names : List String) :
    (cancelDots names).length ≤ names.length := by
  induction names using List.reverseRecOn with
  | nil => rfl
  | append_singleton names name ih =>
    rw [cancelDots, foldl_append, ← cancelDots]
    simp only [foldl_cons, foldl_nil, length_append, length_singleton]
    split
    · rw [length_dropLast]
      omega
    · rw [length_append, length_singleton]
      omega

/-- A script whose path ends in dots has its file further up. -/
theorem length_of_scriptFile_dots (h : ∀ name ∈ dirs, Path.IsName name)
    (hlast : last = "." ∨ last = "..")
    (hfile : (ofPath base).scriptFile fs (Path.text ⟨.none, dirs ++ [last]⟩) suffix = .ok file) :
    file.names.length ≤ (ofPath base).scriptsDir.names.length + dirs.length := by
  obtain ⟨place, hplace, hexisting⟩ := exists_of_bind_eq_ok hfile
  obtain ⟨rfl, -⟩ := existing_eq_ok_iff.1 hexisting
  have hslash : ∀ name ∈ dirs ++ [last], name ≠ "" ∧ '/' ∉ name.toList := by
    intro name hname
    rcases mem_append.1 hname with hname | hname
    · exact ⟨(h name hname).ne_empty, (h name hname).slash⟩
    · rcases hlast with rfl | rfl
      · rw [mem_singleton.1 hname]
        decide
      · rw [mem_singleton.1 hname]
        decide
  have hfilter : dirs.filter (· ≠ ".") = dirs :=
    filter_eq_self.2 fun name hname => by simpa using (h name hname).ne_dot
  rw [ofString_scripts_append (by simp) hslash, filter_append, hfilter] at hplace
  have hup : place.names.length ≤ (ofPath base).scriptsDir.names.length + dirs.length := by
    have hfront := length_cancelDots_le ((ofPath base).extractionDir.names ++ "scripts" :: dirs)
    have hscripts : (ofPath base).scriptsDir.names.length =
        (ofPath base).extractionDir.names.length + 1 := by simp [scriptsDir, Path.child]
    rw [length_append, length_cons] at hfront
    rw [(insideOf_eq_ok hplace).1]
    rcases hlast with rfl | rfl
    · change (cancelDots
        ((ofPath base).extractionDir.names ++ "scripts" :: (dirs ++ []))).length ≤ _
      rw [append_nil]
      omega
    · change (cancelDots
        ((ofPath base).extractionDir.names ++ ("scripts" :: dirs ++ [".."]))).length ≤ _
      rw [← append_assoc, cancelDots, foldl_append, ← cancelDots]
      simp only [foldl_cons, foldl_nil, if_true, length_dropLast]
      omega
  have hpos : 0 < (ofPath base).scriptsDir.names.length := by simp [scriptsDir, Path.child]
  simp only [withSuffix, Path.child, Path.parent, length_append, length_dropLast,
    length_singleton]
  omega

/-! ### From a file to its script and back -/

/-- Whether a name is the name of a file and has no ending. -/
def IsPlain (name : String) : Prop :=
  Path.IsName name ∧ ¬ Path.HasEnding name

theorem withSuffix_empty (dirs : List String) (last : String) :
    withSuffix ⟨.none, dirs ++ [last]⟩ "" = ⟨.none, dirs ++ [(splitName last).1]⟩ := by
  have hsuffix := withSuffix_append Path.empty dirs last ""
  rwa [String.append_empty] at hsuffix

variable {front : String}

theorem splitName_pcode (h : front ≠ "") : splitName (front ++ ".pcode") = (front, ".pcode") :=
  Path.splitName_append h (rfl : ".pcode".toList = _) (by decide) (by decide)

theorem isName_of_pcode (h : ∀ name ∈ dirs ++ [front ++ ".pcode"], Path.IsName name)
    (hempty : front ≠ "") (hdot : front ≠ ".") (hdots : front ≠ "..") :
    ∀ name ∈ dirs ++ [front], Path.IsName name := by
  have hfull : Path.IsName (front ++ ".pcode") := h _ (by simp)
  have hslash := hfull.slash
  have hnull := hfull.null
  rw [String.toList_append, mem_append, not_or] at hslash hnull
  intro name hname
  rcases mem_append.1 hname with hname | hname
  · exact h name (mem_append_left _ hname)
  · rw [mem_singleton.1 hname]
    exact ⟨hempty, hdot, hdots, hslash.1, hnull.1⟩

/-- A script's file of a kind is the one beside the file that gave the script its name if and only
if that name was plain. -/
theorem scriptFile_eq_beside_iff (h : ∀ name ∈ dirs ++ [front ++ ".pcode"], Path.IsName name)
    (hcontains : fs.contains ((ofPath base).scriptsDir ++ ⟨.none, dirs ++ [front ++ suffix]⟩)) :
    (ofPath base).scriptFile fs (withSuffix ⟨.none, dirs ++ [front ++ ".pcode"]⟩ "").text
        suffix = .ok ((ofPath base).scriptsDir ++ ⟨.none, dirs ++ [front ++ suffix]⟩) ↔
      IsPlain front := by
  have hdirs : ∀ name ∈ dirs, Path.IsName name := fun name hname =>
    h name (mem_append_left _ hname)
  have hsame : ∀ name : String,
      (ofPath base).scriptsDir ++ (⟨.none, dirs ++ [front ++ suffix]⟩ : Path) =
        (ofPath base).scriptsDir ++ (⟨.none, dirs ++ [name ++ suffix]⟩ : Path) ↔ name = front := by
    intro name
    change (⟨_, _ ++ (dirs ++ [front ++ suffix])⟩ : Path) = ⟨_, _ ++ (dirs ++ [name ++ suffix])⟩ ↔ _
    simp [eq_comm, String.append_left_inj]
  rw [withSuffix_empty]
  by_cases hempty : front = ""
  · subst hempty
    have hbare : (splitName ("" ++ ".pcode")).1 = ".pcode" := by decide
    have hnames : ∀ name ∈ dirs ++ [".pcode"], Path.IsName name := h
    rw [hbare, scriptFile_eq_ok_iff hnames, hsame]
    constructor
    · rintro ⟨heq, -⟩
      exact absurd heq (by decide)
    · intro hplain
      exact absurd rfl hplain.1.ne_empty
  rw [splitName_pcode hempty]
  by_cases hdots : front = "." ∨ front = ".."
  · constructor
    · intro hfile
      have hlength := length_of_scriptFile_dots hdirs hdots hfile
      change (_ ++ (dirs ++ [front ++ suffix])).length ≤ _ at hlength
      rw [length_append, length_append, length_singleton] at hlength
      omega
    · rintro ⟨hname, -⟩
      exact absurd hdots (not_or.2 ⟨hname.ne_dot, hname.ne_dots⟩)
  · rw [not_or] at hdots
    have hnames := isName_of_pcode h hempty hdots.1 hdots.2
    have hfront : Path.IsName front := hnames front (by simp)
    rw [scriptFile_eq_ok_iff hnames, hsame, Path.fst_splitName_eq_iff]
    exact ⟨fun hfile => ⟨hfront, hfile.1⟩, fun hplain => ⟨hplain.2, hcontains⟩⟩

def IsPlainFile (p : Path) : Prop :=
  ∃ front, p.name = front ++ ".pcode" ∧ IsPlain front

theorem isPlainFile_iff : IsPlainFile ⟨.none, dirs ++ [front ++ ".pcode"]⟩ ↔ IsPlain front := by
  simp [IsPlainFile, Path.name]

/-- The script that is named after a listed p-code file leads back to that file exactly when the
name before the ending is plain, and so it is with the ActionScript beside it. If that name has an
ending of its own, the look-up leads to the file without it. Two plain files are never taken for
one. -/
theorem rawPcodeFile_listed_iff (h : fs.IsNamed) (base : Path) :
    (∀ p ∈ fs.listFiles (ofPath base).scriptsDir (Glob.ending ".pcode" true),
      ((ofPath base).rawPcodeFile fs (p.withSuffix "").text = .ok ((ofPath base).scriptsDir ++ p) ↔
        IsPlainFile p) ∧
      (∀ front, p.name = front ++ ".pcode" →
        fs.contains ((ofPath base).scriptsDir ++ p.parent.child (front ++ ".as")) →
        ((ofPath base).actionScriptFile fs (p.withSuffix "").text =
          .ok ((ofPath base).scriptsDir ++ p.parent.child (front ++ ".as")) ↔ IsPlainFile p)) ∧
      ∀ stem ending : String, stem ≠ "" → ending ≠ "" → '.' ∉ ending.toList →
        p.name = stem ++ "." ++ ending ++ ".pcode" → ∀ file,
          (ofPath base).rawPcodeFile fs (p.withSuffix "").text = .ok file ↔
            file = (ofPath base).scriptsDir ++ p.parent.child (stem ++ ".pcode") ∧
              fs.contains file) ∧
    ∀ p ∈ fs.listFiles (ofPath base).scriptsDir (Glob.ending ".pcode" true),
      ∀ q ∈ fs.listFiles (ofPath base).scriptsDir (Glob.ending ".pcode" true),
        IsPlainFile p → IsPlainFile q →
        (ofPath base).rawPcodeFile fs (p.withSuffix "").text =
          (ofPath base).rawPcodeFile fs (q.withSuffix "").text → p = q := by
  have hraw : ∀ p ∈ fs.listFiles (ofPath base).scriptsDir (Glob.ending ".pcode" true),
      (ofPath base).rawPcodeFile fs (p.withSuffix "").text = .ok ((ofPath base).scriptsDir ++ p) ↔
        IsPlainFile p := by
    intro p hp
    have hcontains := FileSystem.contains_of_isFile (FileSystem.isFile_of_mem_listFiles hp)
    obtain ⟨dirs, front, rfl, hnames⟩ := h.of_mem_listFiles hp
    rw [isPlainFile_iff]
    exact scriptFile_eq_beside_iff hnames hcontains
  refine ⟨fun p hp => ⟨hraw p hp, ?_, ?_⟩, ?_⟩
  · obtain ⟨dirs, front, rfl, hnames⟩ := h.of_mem_listFiles hp
    intro other hother hcontains
    obtain rfl : front = other := by simpa [Path.name] using hother
    have hbeside : Path.child (Path.parent ⟨.none, dirs ++ [front ++ ".pcode"]⟩) (front ++ ".as") =
        ⟨.none, dirs ++ [front ++ ".as"]⟩ := by simp [Path.parent, Path.child]
    rw [hbeside] at hcontains ⊢
    rw [isPlainFile_iff]
    exact scriptFile_eq_beside_iff hnames hcontains
  · obtain ⟨dirs, front, rfl, hnames⟩ := h.of_mem_listFiles hp
    intro stem ending hstem hending hdots hname file
    obtain rfl : front = stem ++ "." ++ ending := by simpa [Path.name] using hname
    -- What is before the ending is more than dots, since the ending itself has none.
    obtain ⟨c, hc⟩ := List.exists_mem_of_ne_nil ending.toList (by simpa using hending)
    have hmore : ∀ dotted : String, (∀ c ∈ dotted.toList, c = '.') →
        stem ++ "." ++ ending ≠ dotted := by
      rintro _ hdotted rfl
      exact hdots (hdotted c (by simp [hc]) ▸ hc)
    have hfront := isName_of_pcode hnames (hmore _ (by simp)) (hmore _ (by simp))
      (hmore _ (by simp))
    have hsplit : (splitName (stem ++ "." ++ ending)).1 = stem := by
      have hrest : ("." ++ ending).toList = '.' :: ending.toList := by simp
      rw [String.append_assoc, Path.splitName_append hstem hrest (by simpa using hending) hdots]
    rw [withSuffix_empty, splitName_pcode (hmore _ (by simp)), rawPcodeFile,
      scriptFile_eq_ok_iff hfront, hsplit]
    simp [Path.parent, Path.child]
  · intro p hp q hq hplain hplain' heq
    rw [(hraw p hp).2 hplain, (hraw q hq).2 hplain'] at heq
    obtain ⟨dirs, front, rfl, -⟩ := h.of_mem_listFiles hp
    obtain ⟨dirs', front', rfl, -⟩ := h.of_mem_listFiles hq
    have hnames := congrArg Path.names (Except.ok.inj heq)
    exact congrArg (Path.mk .none) (List.append_cancel_left hnames)

def dottedFiles : FileSystem where
  entries := [(["w"], .directory), (["w", "raw"], .directory),
    (["w", "raw", "scripts"], .directory),
    (["w", "raw", "scripts", "A.pcode"], .file (Text.encode "Push 1\n")),
    (["w", "raw", "scripts", "A.as"], .file (Text.encode "1;\n")),
    (["w", "raw", "scripts", "A.1.pcode"], .file (Text.encode "Push 2\n"))]

theorem mem_listFiles_dottedFiles (hname : name = "A.pcode" ∨ name = "A.1.pcode") :
    Path.empty.child name ∈ dottedFiles.listFiles (ofPath (ofString "/w")).scriptsDir
      (Glob.ending ".pcode" true) := by
  rcases hname with rfl | rfl
  · exact FileSystem.child_mem_listFiles (by decide) (by decide +kernel) (by decide +kernel)
  · exact FileSystem.child_mem_listFiles (by decide) (by decide +kernel) (by decide +kernel)

theorem rawPcodeFile_listed_plain :
    dottedFiles.IsNamed ∧ IsPlainFile (ofString "A.pcode") ∧
      (ofPath (ofString "/w")).rawPcodeFile dottedFiles "A" =
        .ok (ofString "/w/raw/scripts/A.pcode") ∧
      (ofPath (ofString "/w")).actionScriptFile dottedFiles "A" =
        .ok (ofString "/w/raw/scripts/A.as") := by
  have hnamed : dottedFiles.IsNamed := by decide +kernel
  have hplain : IsPlainFile (ofString "A.pcode") := by
    refine ⟨"A", by decide, by decide, ?_⟩
    exact Path.fst_splitName_eq_iff.1 (by decide)
  obtain ⟨hraw, hsource, -⟩ := (rawPcodeFile_listed_iff hnamed (ofString "/w")).1
    (ofString "A.pcode") (mem_listFiles_dottedFiles (.inl rfl))
  exact ⟨hnamed, hplain, hraw.2 hplain, (hsource "A" (by decide) (by decide +kernel)).2 hplain⟩

/-- A script whose name has an ending is looked up in the file of another script. -/
theorem rawPcodeFile_listed_dotted :
    dottedFiles.IsNamed ∧
      ofString "A.1.pcode" ∈ dottedFiles.listFiles
        (ofPath (ofString "/w")).scriptsDir (Glob.ending ".pcode" true) ∧
      (ofPath (ofString "/w")).rawPcodeFile dottedFiles
          ((ofString "A.1.pcode").withSuffix "").text =
        .ok (ofString "/w/raw/scripts/A.pcode") :=
  ⟨by decide +kernel, mem_listFiles_dottedFiles (.inr rfl),
    eq_ok_of_toOption (by decide +kernel)⟩

end Workspace

end MovieDiff
