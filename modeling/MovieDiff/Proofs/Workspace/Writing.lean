import MovieDiff.Command.Normalization
import MovieDiff.Proofs.Files.Listing
import MovieDiff.Proofs.Path
import MovieDiff.Proofs.Pcode.BlockNames
import MovieDiff.Proofs.Text.Lines
import MovieDiff.Proofs.Text.Utf8

/-!
Writing a normalised script. Main statements: a normalisation that succeeds writes the files of its
blocks into the directory and leaves the rest as it was, and a directory that was empty then holds
these files and nothing else.
-/
namespace MovieDiff

open List
open Pcode (Block orderFileName NormalScript)

variable {withSourceMaps : Bool} {name : String} {files : List (String × String)}
  {session : Session} {dir : Path}

/-! ### Names of files -/

namespace Pcode

theorem map_fst_scriptFiles (withSourceMaps : Bool) (blocks : List Block) :
    (scriptFiles withSourceMaps blocks).map Prod.fst =
      (blocks.map Block.name).flatMap (fileNamesOf withSourceMaps) ++ [orderFileName] := by
  rw [scriptFiles, map_append, map_flatMap, flatMap_map, map_singleton]
  refine congrArg (· ++ [orderFileName]) (flatMap_congr fun block _ => ?_)
  cases withSourceMaps <;> rfl

theorem ne_dots_of_mem_fileNamesOf {file : String}
    (h : file ∈ fileNamesOf withSourceMaps name) : file ≠ ".." := by
  rcases mem_fileNamesOf h with rfl | rfl
  · exact Path.append_ne_dots rfl (by decide) name
  · exact Path.append_ne_dots rfl (by decide) name

theorem ne_dots_of_mem_scriptFiles (withSourceMaps : Bool) {blocks : List Block} :
    ∀ file ∈ scriptFiles withSourceMaps blocks, file.1 ≠ ".." := by
  intro file hfile
  have hname : file.1 ∈ (scriptFiles withSourceMaps blocks).map Prod.fst :=
    mem_map_of_mem hfile
  rw [map_fst_scriptFiles] at hname
  rcases mem_append.1 hname with hname | hname
  · obtain ⟨name, -, hname⟩ := mem_flatMap.1 hname
    exact ne_dots_of_mem_fileNamesOf hname
  · rw [mem_singleton.1 hname]
    decide

end Pcode

/-! ### Runs of commands -/

namespace Command

variable {output input : Path}

variable {α β : Type} {session' : Session}

theorem exists_run_eq_ok {command : Command α} {value : α}
    (h : (command.run.run session).1.toOption = some value) :
    ∃ session', command.run.run session = (.ok value, session') :=
  ⟨_, Prod.ext (eq_ok_of_toOption h) rfl⟩

theorem exists_of_run_bind {command : Command α} {next : α → Command β} {value : β}
    (h : (command >>= next).run.run session = (.ok value, session')) :
    ∃ first between, command.run.run session = (.ok first, between) ∧
      (next first).run.run between = (.ok value, session') := by
  rw [ExceptT.run_bind, StateT.run_bind] at h
  obtain ⟨outcome, houtcome⟩ : ∃ outcome, command.run.run session = outcome := ⟨_, rfl⟩
  rw [houtcome] at h
  obtain ⟨result, between⟩ := outcome
  cases result with
  | error stop => cases h
  | ok first => exact ⟨first, between, houtcome, h⟩

theorem run_reading_eq_ok {f : FileSystem → Except Fault α} {value : α} :
    (reading f).run.run session = (.ok value, session') ↔
      f session.files = .ok value ∧ session' = session := by
  change (orFault (f session.files)).run.run session = _ ↔ _
  cases f session.files with
  | error fault =>
    constructor
    · intro h
      cases h
    · rintro ⟨h, -⟩
      cases h
  | ok found =>
    constructor
    · intro h
      cases h
      exact ⟨rfl, rfl⟩
    · rintro ⟨h, rfl⟩
      cases h
      rfl

theorem run_changing {f : FileSystem → Except Fault FileSystem}
    (h : (changing f).run.run session = (.ok (), session')) :
    ∃ files, f session.files = .ok files ∧ session' = { session with files } := by
  obtain ⟨files, between, hread, hmodify⟩ := exists_of_run_bind h
  obtain ⟨hfiles, rfl⟩ := run_reading_eq_ok.1 hread
  cases hmodify
  exact ⟨files, hfiles, rfl⟩

def writing (session : Session) (output : Path) (files : List (String × String)) : Session :=
  let contents := files.map fun file => (file.1, Text.encode file.2)
  { session with files := session.files.written output.names contents }

/-- Files that are written into a directory that is there. -/
theorem run_writes
    (hdir : session.files.HasDirectory output.names) (hnames : ∀ file ∈ files, file.1 ≠ "..")
    (h : (files.forM fun (name, text) => changing fun fs =>
      fs.write (output.child name) (Text.encode text) : Command Unit).run.run session =
        (.ok (), session')) :
    (∀ file ∈ files, FileSystem.fits file.1) ∧
      session' = writing session output files := by
  induction files generalizing session with
  | nil =>
    cases h
    exact ⟨forall_mem_nil _, rfl⟩
  | cons file files ih =>
    obtain ⟨hfirst, hothers⟩ := forall_mem_cons.1 hnames
    obtain ⟨_, between, hwrite, hwrites⟩ := exists_of_run_bind h
    obtain ⟨changed, hchanged, rfl⟩ := run_changing hwrite
    -- The directory is still there after this write, as the next one needs.
    obtain ⟨hfits, rfl⟩ := FileSystem.write_child_eq_ok hdir hfirst hchanged
    obtain ⟨hfit, rfl⟩ := ih (hdir.put file.1 _) hothers hwrites
    exact ⟨forall_mem_cons.2 ⟨hfits, hfit⟩, rfl⟩

/-- A file that was normalised into a directory that is there: its blocks, in their files. -/
theorem run_normalizeFile {result : NormalScript} (hdir : session.files.HasDirectory output.names)
    (h : (normalizeFile input output withSourceMaps).run.run session = (.ok result, session')) :
    ∃ bytes blocks, session.files.read input = .ok bytes ∧ normalizeBytes bytes = .ok blocks ∧
      result = .ofBlocks blocks ∧
      (∀ file ∈ Pcode.scriptFiles withSourceMaps blocks, FileSystem.fits file.1) ∧
      session' = writing session output (Pcode.scriptFiles withSourceMaps blocks) := by
  obtain ⟨blocks, between, hread, hafter⟩ := exists_of_run_bind h
  obtain ⟨hblocks, rfl⟩ := run_reading_eq_ok.1 hread
  obtain ⟨_, between, hmake, hwrite⟩ := exists_of_run_bind hafter
  obtain ⟨made, hmade, rfl⟩ := run_changing hmake
  rw [FileSystem.makeDirectories_of_hasDirectory hdir] at hmade
  cases hmade
  obtain ⟨_, between, hwrites, hreturn⟩ := exists_of_run_bind hwrite
  cases hreturn
  obtain ⟨hfits, rfl⟩ := run_writes hdir (Pcode.ne_dots_of_mem_scriptFiles withSourceMaps) hwrites
  obtain ⟨bytes, hbytes, hblocks⟩ := exists_of_bind_eq_ok hblocks
  exact ⟨bytes, blocks, hbytes, hblocks, rfl, hfits, rfl⟩

end Command

/-! ### A directory of text files -/

/-- A directory that holds certain text files and nothing else. -/
structure FileSystem.Holds (fs : FileSystem) (dir : Path) (files : List (String × String)) :
    Prop where
  directory : fs.HasDirectory dir.names
  names : (fs.namesBelow dir.names).Perm (files.map Prod.fst)
  nodup : (files.map Prod.fst).Nodup
  fit : ∀ file ∈ files, fits file.1
  dots : ∀ file ∈ files, file.1 ≠ ".."
  entry : ∀ file ∈ files,
    fs.entryAt? (dir.names ++ [file.1]) = some (.file (Text.encode file.2))

/-- Written files are held. -/
theorem Command.holds_writing
    (hdir : session.files.HasDirectory dir.names) (hempty : session.files.childNames dir = [])
    (hnodup : (files.map Prod.fst).Nodup) (hfits : ∀ file ∈ files, FileSystem.fits file.1)
    (hdots : ∀ file ∈ files, file.1 ≠ "..") :
    (writing session dir files).files.Holds dir files := by
  have hbelow := (FileSystem.childNames_eq_nil_iff hdir).1 hempty
  have hmap : (files.map fun file => (file.1, Text.encode file.2)).map Prod.fst =
      files.map Prod.fst := by
    rw [map_map]
    rfl
  refine ⟨hdir.written _, ?_, hnodup, hfits, hdots, fun file hfile => ?_⟩
  · rw [writing, FileSystem.namesBelow_written (by rwa [hmap]) (by simp [hbelow]), hbelow, hmap,
      append_nil]
    exact reverse_perm _
  · exact FileSystem.entryAt?_written (by rwa [hmap])
      (mem_map.2 ⟨file, hfile, rfl⟩)

namespace FileSystem.Holds

variable {file : String × String}

variable {fs : FileSystem} (h : fs.Holds dir files)
include h

theorem read (hfile : file ∈ files) : fs.read (dir.child file.1) = .ok (Text.encode file.2) :=
  read_child h.directory (h.dots file hfile) (h.fit file hfile) (h.entry file hfile)

theorem readStrict (hfile : file ∈ files) (hreturn : '\r' ∉ file.2.toList) :
    Workspace.readStrict fs (dir.child file.1) = .ok file.2.toList := by
  simp only [Workspace.readStrict, h.read hfile, bind, Except.bind, Text.decodeStrict_encode]
  exact congrArg Except.ok (Text.unifyNewlines_eq_self hreturn)

theorem isFile (hname : name ∈ fs.namesBelow dir.names) :
    fs.isFile (dir.child name) := by
  obtain ⟨file, hfile, rfl⟩ := mem_map.1 (h.names.subset hname)
  exact isFile_child h.directory (h.dots file hfile) (h.fit file hfile) (h.entry file hfile)

theorem contains (hfile : file ∈ files) : fs.contains (dir.child file.1) := by
  simp [FileSystem.contains, entry?, h.entry file hfile,
    locate_child h.directory (h.dots file hfile) (h.fit file hfile)]

theorem listFiles_perm (pattern : List GlobChar) :
    (fs.listFiles dir ⟨[.matching pattern], false⟩).Perm
      (((files.map Prod.fst).filter fun name => Glob.matchesName pattern name.toList).map
        Path.empty.child) :=
  (FileSystem.listFiles_perm h.directory (h.names.nodup_iff.2 h.nodup) fun _ => h.isFile).trans
    ((h.names.filter _).map _)

end FileSystem.Holds

end MovieDiff
