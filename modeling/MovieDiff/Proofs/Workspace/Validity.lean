import MovieDiff.Proofs.Display.BlockSpans

/-!
Whether a directory holds a whole normalised script. Main statement: what a normalisation has
written into an empty directory is taken for whole, and nothing less is, neither some of its files
nor what an interrupted normalisation leaves.
-/
namespace MovieDiff

open List
open Pcode

namespace FileSystem

variable {fs : FileSystem} {dir p : Path}

variable {suffix : String} {c : Char}

/-- The files of a directory whose names end in some way. -/
theorem mem_listFiles_ending (hsuffix : suffix.toList.getLast? = some c) (hc : c ≠ '.') :
    p ∈ fs.listFiles dir (Glob.ending suffix false) ↔
      ∃ front, fs.isFile (dir.child (front ++ suffix)) ∧ p = Path.empty.child (front ++ suffix) := by
  refine mem_listFiles.trans ⟨?_, ?_⟩
  · rintro ⟨-, name, -, hmatches, hfile, rfl⟩
    obtain ⟨front, rfl⟩ := exists_of_matchesName_ending hmatches
    exact ⟨front, hfile, rfl⟩
  · rintro ⟨front, hfile, rfl⟩
    obtain ⟨hdir, hchild⟩ := isDirectory_of_isFile_child
      (Path.append_ne_dots hsuffix hc front) hfile
    exact ⟨hdir, _, hchild, (matchesName_ending _ _).2 (by simp), hfile, rfl⟩

/-- What is told of these files, when that only depends on how their names start. -/
theorem mem_map_listFiles_ending (hsuffix : suffix.toList.getLast? = some c) (hc : c ≠ '.')
    {f : Path → String} {told : String → String}
    (hf : ∀ front, fs.isFile (dir.child (front ++ suffix)) →
      f (Path.empty.child (front ++ suffix)) = told front) (text : String) :
    text ∈ (fs.listFiles dir (Glob.ending suffix false)).map f ↔
      ∃ front, fs.isFile (dir.child (front ++ suffix)) ∧ told front = text := by
  rw [mem_map]
  constructor
  · rintro ⟨p, hp, rfl⟩
    obtain ⟨front, hthere, rfl⟩ := (mem_listFiles_ending hsuffix hc).1 hp
    exact ⟨front, hthere, (hf front hthere).symm⟩
  · rintro ⟨front, hthere, rfl⟩
    exact ⟨_, (mem_listFiles_ending hsuffix hc).2 ⟨front, hthere, rfl⟩, hf front hthere⟩

variable {name : String}

theorem Stores.entryAt?_ne_none_iff {files : List (String × String)} (h : fs.Stores dir files) :
    fs.entryAt? (dir.names ++ [name]) ≠ none ↔ name ∈ files.map Prod.fst := by
  rw [h.entry, lastWritten?_encode, Ne, Option.map_eq_none_iff, Option.map_eq_none_iff,
    find?_eq_none]
  simp

/-- A directory that holds some of the files that are there in another file system, as they are
there, and nothing else. -/
structure IsPartAt (fs whole : FileSystem) (dir : Path) : Prop where
  directory : fs.HasDirectory dir.names
  entry : ∀ name, fs.entryAt? (dir.names ++ [name]) = none ∨
    fs.entryAt? (dir.names ++ [name]) = whole.entryAt? (dir.names ++ [name])

end FileSystem

namespace Workspace

theorem sameSet_iff {xs ys : List String} : sameSet xs ys ↔ ∀ x, x ∈ xs ↔ x ∈ ys := by
  simp only [sameSet, Bool.and_eq_true, all_eq_true, contains_iff_mem]
  exact ⟨fun h x => ⟨h.1 x, h.2 x⟩, fun h => ⟨fun x => (h x).1, fun x => (h x).2⟩⟩

section Part

variable {fs whole : FileSystem} {dir : Path} {blocks : List Block} (h : fs.IsPartAt whole dir)
  (hwhole : whole.Stores dir (scriptFiles true blocks))
include h hwhole

variable {name : String}

/-- What is there was written. -/
theorem exists_text_of_isFile (hname : name ≠ "..") (hfile : fs.isFile (dir.child name)) :
    ∃ text, (name, text) ∈ scriptFiles true blocks ∧
      fs.read (dir.child name) = .ok (Text.encode text) := by
  obtain ⟨hfit, content, hentry⟩ := FileSystem.entryAt?_of_isFile_child h.directory hname hfile
  have hwritten := (h.entry name).resolve_left (by rw [hentry]; exact Option.some_ne_none _)
  rw [hentry, hwhole.entry, eq_comm, Option.map_eq_some_iff] at hwritten
  obtain ⟨_, hlast, heq⟩ := hwritten
  cases heq
  obtain ⟨other, hmem, hother⟩ := FileSystem.lastWritten?_eq_some hlast
  obtain ⟨file, hwritten, heq⟩ := mem_map.1 hmem
  cases heq
  obtain rfl : name = file.1 := by simpa using hother
  exact ⟨file.2, hwritten, FileSystem.read_child h.directory hname hfit hentry⟩

theorem mem_names_of_isFile {file : String} (hfile : file ∈ fileNamesOf true name)
    (hthere : fs.isFile (dir.child file)) : name ∈ blocks.map Block.name := by
  obtain ⟨text, hmem, -⟩ :=
    exists_text_of_isFile h hwhole (ne_dots_of_mem_fileNamesOf hfile) hthere
  have hwritten := mem_map_of_mem (f := Prod.fst) hmem
  rw [map_fst_scriptFiles, mem_append, mem_singleton, mem_flatMap] at hwritten
  rcases hwritten with ⟨other, hother, hfile'⟩ | rfl
  · have hsame : name = other := by
      by_contra hne
      exact disjoint_fileNamesOf_iff.2 hne hfile hfile'
    rwa [hsame]
  · exact absurd hfile (orderFileName_not_mem_fileNamesOf true name)

/-- The order of the blocks, if it is there. -/
theorem readStrict_of_isFile (hnames : ∀ block ∈ blocks, IsFileName block.name)
    (hthere : fs.isFile (dir.child orderFileName)) :
    readStrict fs (dir.child orderFileName) = .ok (orderText blocks).toList := by
  obtain ⟨text, hmem, hread⟩ := exists_text_of_isFile h hwhole (by decide) hthere
  have htext : text = orderText blocks := by
    rcases mem_append.1 hmem with hmem | hmem
    · obtain ⟨block, -, hfile⟩ := mem_flatMap.1 hmem
      exact absurd (mem_map_of_mem (f := Prod.fst) hfile)
        (orderFileName_not_mem_fileNamesOf true block.name)
    · exact congrArg Prod.snd (mem_singleton.1 hmem)
  simp only [readStrict, hread, htext, bind, Except.bind, Text.decodeStrict_encode]
  exact congrArg Except.ok (Text.unifyNewlines_eq_self
    (Text.return_not_mem_joinLines (isSingleLine_names hnames)))

/-- A part is taken for whole exactly when every file is in it. -/
theorem scriptIsValid_iff (hnames : ∀ block ∈ blocks, IsFileName block.name)
    (hne : blocks ≠ []) : scriptIsValid fs dir ↔
      ∀ file ∈ (scriptFiles true blocks).map Prod.fst, fs.isFile (dir.child file) := by
  have hfile : ∀ {name file}, file ∈ fileNamesOf true name → fs.isFile (dir.child file) →
      name ≠ "" ∧ name ∈ blocks.map Block.name := by
    intro name file hfile hthere
    have hmem := mem_names_of_isFile h hwhole hfile hthere
    exact ⟨(isBlank_of_mem_name hnames name hmem).1, hmem⟩
  have hstems : ∀ name, name ∈ (fs.listFiles dir blockGlob).map Path.stem ↔
      ∃ front, fs.isFile (dir.child (blockFileName front)) ∧ id front = name :=
    FileSystem.mem_map_listFiles_ending rfl (by decide)
      fun front hthere => Path.stem_child (hfile mem_cons_self hthere).1
  have htexts : ∀ file, file ∈ (fs.listFiles dir blockGlob).map Path.name ↔
      ∃ front, fs.isFile (dir.child (blockFileName front)) ∧ blockFileName front = file :=
    FileSystem.mem_map_listFiles_ending rfl (by decide) fun front _ => Path.name_child _ _
  have hmaps : ∀ file, file ∈ (fs.listFiles dir sourceMapGlob).map (fun p => (p.withSuffix "").name) ↔
      ∃ front, fs.isFile (dir.child (sourceMapFileName front)) ∧ blockFileName front = file := by
    refine FileSystem.mem_map_listFiles_ending rfl (by decide) fun front hthere => ?_
    have hsplit : Path.splitName (front ++ ".pcode" ++ ".map") = (front ++ ".pcode", ".map") :=
      Path.splitName_append (by simp) rfl (by decide) (by decide)
    rw [String.append_assoc] at hsplit
    rw [Path.withSuffix, Path.name_child, Path.stem, Path.name_child, String.append_empty]
    exact congrArg Prod.fst hsplit
  have hall : (∀ file ∈ (scriptFiles true blocks).map Prod.fst, fs.isFile (dir.child file)) ↔
      fs.isFile (dir.child orderFileName) ∧ ∀ name ∈ blocks.map Block.name,
        fs.isFile (dir.child (blockFileName name)) ∧
          fs.isFile (dir.child (sourceMapFileName name)) := by
    rw [map_fst_scriptFiles, forall_mem_append, forall_mem_singleton, and_comm,
      forall_mem_flatMap]
    simp [fileNamesOf]
  rw [hall, scriptIsValid, Bool.and_eq_true]
  refine and_congr_right fun horder => ?_
  rw [readStrict_of_isFile h hwhole hnames horder]
  dsimp only
  rw [orderNames_orderText hnames, Bool.and_eq_true, Bool.and_eq_true, sameSet_iff,
    sameSet_iff]
  simp only [hstems, htexts, hmaps]
  constructor
  · rintro ⟨⟨-, hnamed⟩, hmapped⟩ name hname
    obtain ⟨_, hthere, rfl⟩ := (hnamed name).2 hname
    obtain ⟨front, hmap, heq⟩ := (hmapped _).1 ⟨_, hthere, rfl⟩
    exact ⟨hthere, blockFileName_injective heq ▸ hmap⟩
  · intro hfiles
    refine ⟨⟨by simpa using hne, fun name => ⟨?_, fun hname => ⟨name, (hfiles name hname).1, rfl⟩⟩⟩,
      fun file => ⟨?_, ?_⟩⟩
    · rintro ⟨_, hthere, rfl⟩
      exact (hfile mem_cons_self hthere).2
    · rintro ⟨front, hthere, rfl⟩
      exact ⟨front, (hfiles front (hfile mem_cons_self hthere).2).2, rfl⟩
    · rintro ⟨front, hthere, rfl⟩
      refine ⟨front, (hfiles front (hfile ?_ hthere).2).1, rfl⟩
      exact mem_cons_of_mem _ mem_cons_self

end Part

/-- What a normalisation into an empty directory has written is taken for whole. No part of it is,
nor is what stands there before the last file is written. -/
theorem scriptIsValid_normalizeFile {session session' : Session} {input dir : Path}
    {result : NormalScript} (hempty : session.files.HasEmptyDirectory dir)
    (hrun : (Command.normalizeFile input dir true).run.run session = (.ok result, session'))
    (hne : result.blocks ≠ []) :
    scriptIsValid session'.files dir ∧
    (∀ fs : FileSystem, fs.IsPartAt session'.files dir →
      (∃ name, fs.entryAt? (dir.names ++ [name]) = none ∧
        session'.files.entryAt? (dir.names ++ [name]) ≠ none) →
      ¬ scriptIsValid fs dir) ∧
    ∀ done, done <+: scriptFiles true result.blocks → done ≠ scriptFiles true result.blocks →
      ∀ between, (done.forM fun (name, text) => Command.changing fun fs =>
        fs.write (dir.child name) (Text.encode text) : Command Unit).run.run session =
          (.ok (), between) → ¬ scriptIsValid between.files dir := by
  have hdir := FileSystem.hasDirectory_of_isDirectory hempty.dots hempty.directory
  have hnone := FileSystem.entryAt?_of_childNames_nil hdir hempty.empty
  obtain ⟨bytes, blocks, hread, hblocks, rfl, hfits, rfl⟩ := Command.run_normalizeFile hdir hrun
  obtain ⟨lines, -, hscript⟩ := exists_of_bind_eq_ok hblocks
  have hnames := isFileName_of_normalizeScript hscript
  have hstores : (Command.writing session dir (scriptFiles true blocks)).files.Stores dir
      (scriptFiles true blocks) := FileSystem.stores_writing hdir hnone
  have hdots : ∀ file ∈ (scriptFiles true blocks).map Prod.fst, file ≠ ".." :=
    List.forall_mem_map.2 (ne_dots_of_mem_scriptFiles true)
  refine ⟨?_, ?_, ?_⟩
  · refine (scriptIsValid_iff ⟨hstores.directory, fun _ => .inr rfl⟩ hstores hnames hne).2 ?_
    intro file hfile
    have hentry := hstores.entryAt?_ne_none_iff.2 hfile
    rw [hstores.entry, Ne, Option.map_eq_none_iff, ← Ne, Option.ne_none_iff_exists'] at hentry
    obtain ⟨content, hcontent⟩ := hentry
    obtain ⟨written, hwritten, rfl⟩ := List.mem_map.1 hfile
    exact FileSystem.isFile_child hstores.directory (hdots _ hfile) (hfits written hwritten)
      (by rw [hstores.entry, hcontent]; rfl)
  · rintro fs hpart ⟨name, hmissing, hwritten⟩ hvalid
    have hfile := hstores.entryAt?_ne_none_iff.1 hwritten
    have hthere := (scriptIsValid_iff hpart hstores hnames hne).1 hvalid name hfile
    obtain ⟨-, content, hentry⟩ :=
      FileSystem.entryAt?_of_isFile_child hpart.directory (hdots name hfile) hthere
    rw [hmissing] at hentry
    cases hentry
  · intro done hdone hall between hwrites hvalid
    have hfront := (List.prefix_concat_iff.1 hdone).resolve_left hall
    obtain ⟨-, rfl⟩ := Command.run_writes hdir (fun file hfile =>
      ne_dots_of_mem_scriptFiles true file (hdone.subset hfile)) hwrites
    have hdone : (Command.writing session dir done).files.Stores dir done :=
      FileSystem.stores_writing hdir hnone
    obtain ⟨-, content, hentry⟩ := FileSystem.entryAt?_of_isFile_child hdone.directory (by decide)
      (Bool.and_eq_true_iff.1 hvalid).1
    -- The order is written last, and no file of a block has its name.
    obtain ⟨file, hfile, horder⟩ := List.mem_map.1 (hdone.entryAt?_ne_none_iff.1 (by
      rw [hentry]
      exact Option.some_ne_none _))
    obtain ⟨block, -, hblock⟩ := List.mem_flatMap.1 (hfront.subset hfile)
    exact orderFileName_not_mem_fileNamesOf true block.name
      (horder ▸ List.mem_map_of_mem (f := Prod.fst) hblock)

/-- A script of two blocks, written and then found whole. -/
theorem scriptIsValid_mixedText : mixedSession.files.HasEmptyDirectory mixedDirectory ∧
    ∃ session', (Command.normalizeFile (Path.ofString "/in") mixedDirectory true).run.run
      mixedSession = (.ok (.ofBlocks mixedBlocks), session') ∧
      scriptIsValid session'.files mixedDirectory := by
  have hempty : mixedSession.files.HasEmptyDirectory mixedDirectory :=
    ⟨by decide +kernel, by decide +kernel, by decide +kernel⟩
  obtain ⟨session', hrun⟩ := exists_run_mixedSession
  exact ⟨hempty, session', hrun,
    (scriptIsValid_normalizeFile hempty hrun (List.cons_ne_nil _ _)).1⟩

end Workspace

end MovieDiff
