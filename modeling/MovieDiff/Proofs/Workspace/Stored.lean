import MovieDiff.Proofs.Files.Tree
import MovieDiff.Proofs.Workspace.Cache

/-!
Blocks stored in a directory, whatever their names are. Main statement: after a normalisation into
an empty directory, each block file that a listing shows holds the text of the last block of its
name, and a later normalisation into another directory leaves this so.
-/
namespace MovieDiff

open List
open Pcode (Block scriptFiles blockFileName)

/-! ### The last file of a name -/

namespace Pcode

/-- The block whose text the file of a name holds: the last one of that name. -/
def writtenBlock? (blocks : List Block) (name : String) : Option Block :=
  blocks.reverse.find? (·.name == name)

theorem blockFileName_injective {name name' : String}
    (h : blockFileName name = blockFileName name') : name = name' := by
  have hlist := congrArg String.toList h
  rw [blockFileName, blockFileName, String.toList_append, String.toList_append] at hlist
  exact String.toList_injective (append_cancel_right hlist)

theorem exists_of_isBlockFile {file : String} (h : isBlockFile file) :
    ∃ name, file = blockFileName name :=
  FileSystem.exists_of_matchesName_ending h

/-- Of the files of one block, only that of its text has the name of a block file. -/
theorem find?_blockFiles (withSourceMaps : Bool) (block : Block) (name : String) :
    (blockFiles withSourceMaps block).reverse.find? (·.1 == blockFileName name) =
      if block.name = name then some (blockFileName name, block.render ++ "\n") else none := by
  have hmap : ∀ other, sourceMapFileName other ≠ blockFileName name := fun other heq =>
    not_isBlockFile_sourceMapFileName other (heq ▸ isBlockFile_blockFileName name)
  have hname : blockFileName block.name = blockFileName name ↔ block.name = name :=
    ⟨blockFileName_injective, congrArg blockFileName⟩
  cases withSourceMaps <;> by_cases heq : block.name = name <;>
    simp [blockFiles, hmap, hname, heq]

/-- The last file of a block file's name holds the last block of the name. -/
theorem find?_scriptFiles (withSourceMaps : Bool) (blocks : List Block) (name : String) :
    (scriptFiles withSourceMaps blocks).reverse.find? (·.1 == blockFileName name) =
      (writtenBlock? blocks name).map fun block =>
        (blockFileName name, block.render ++ "\n") := by
  have horder : orderFileName ≠ blockFileName name := fun heq =>
    not_isBlockFile_orderFileName (heq ▸ isBlockFile_blockFileName name)
  rw [scriptFiles, reverse_append, reverse_singleton, singleton_append,
    find?_cons_of_neg (by simpa using horder), writtenBlock?]
  induction blocks using List.reverseRecOn with
  | nil => rfl
  | append_singleton blocks block ih =>
    rw [flatMap_append, flatMap_singleton, reverse_append, find?_append,
      find?_blockFiles, ih, reverse_append, reverse_singleton, singleton_append]
    by_cases heq : block.name = name
    · rw [if_pos heq, find?_cons_of_pos (by simpa using heq)]
      rfl
    · rw [if_neg heq, find?_cons_of_neg (by simpa using heq), Option.none_or]

end Pcode

namespace FileSystem

/-- What was written last to a name of a directory, as text. -/
theorem lastWritten?_encode (dir : List String) (files : List (String × String)) (name : String) :
    lastWritten? dir (files.map fun file => (file.1, Text.encode file.2)) (dir ++ [name]) =
      (files.reverse.find? (·.1 == name)).map fun file => Text.encode file.2 := by
  have hplace : ∀ file : String × Bytes,
      (dir ++ [file.1] == dir ++ [name]) = (file.1 == name) := by
    intro file
    rw [Bool.eq_iff_iff, beq_iff_eq, beq_iff_eq, append_cancel_left_eq, List.cons.injEq]
    exact and_iff_left rfl
  unfold lastWritten?
  simp only [hplace]
  rw [← map_reverse, find?_map, Option.map_map]
  rfl

/-! ### Directories of stored files -/

/-- A directory that holds, of some files with texts, the last one of each name and nothing else. -/
structure Stores (fs : FileSystem) (dir : Path) (files : List (String × String)) : Prop where
  directory : fs.HasDirectory dir.names
  entry : ∀ name, fs.entryAt? (dir.names ++ [name]) =
    (lastWritten? dir.names (files.map fun file => (file.1, Text.encode file.2))
      (dir.names ++ [name])).map Entry.file

variable {fs : FileSystem} {dir : Path}

theorem entryAt?_of_childNames_nil (hdir : fs.HasDirectory dir.names)
    (hempty : fs.childNames dir = []) (name : String) :
    fs.entryAt? (dir.names ++ [name]) = none := by
  have hbelow := (childNames_eq_nil_iff hdir).1 hempty
  rw [entryAt?_of_ne_nil (by simp), lookup_eq_none_iff]
  intro e he
  have hnone := filterMap_eq_nil_iff.1 hbelow e he
  rw [bne_iff_ne]
  intro heq
  rw [nameBelow?_eq_some_iff.2 heq.symm] at hnone
  cases hnone

theorem lastWritten?_of_ne {dir other : List String} (h : other ≠ dir)
    (files : List (String × Bytes)) (name : String) :
    lastWritten? other files (dir ++ [name]) = none := by
  cases hwritten : lastWritten? other files (dir ++ [name]) with
  | none => rfl
  | some content =>
    obtain ⟨_, -, heq⟩ := lastWritten?_eq_some hwritten
    exact absurd (append_inj_left' heq rfl).symm h

theorem HasDirectory.of_grows {fs' : FileSystem} {names : List String}
    (h : fs.HasDirectory names) (hgrows : Grows fs fs') : fs'.HasDirectory names :=
  ⟨fun front hfront => hgrows.directory front (h.directory front hfront), h.fit, h.dots⟩

variable {other : Path} {session : Session}

/-- The file system after files were written into another directory. -/
theorem entryAt?_writing_of_ne (h : other.names ≠ dir.names) (files : List (String × String))
    (name : String) :
    (Command.writing session other files).files.entryAt? (dir.names ++ [name]) =
      session.files.entryAt? (dir.names ++ [name]) := by
  rw [Command.writing, entryAt?_written_eq, lastWritten?_of_ne h]
  rfl

variable {files : List (String × String)}

/-- What is written is stored. -/
theorem stores_writing (hdir : session.files.HasDirectory dir.names)
    (hempty : ∀ name, session.files.entryAt? (dir.names ++ [name]) = none) :
    (Command.writing session dir files).files.Stores dir files where
  directory := hdir.written _
  entry name := by
    rw [Command.writing, entryAt?_written_eq, hempty, Option.or_none]

/-- Writing elsewhere keeps what is stored. -/
theorem Stores.writing (h : session.files.Stores dir files) (hne : other.names ≠ dir.names)
    {others : List (String × String)}
    (hgrows : Grows session.files (Command.writing session other others).files) :
    (Command.writing session other others).files.Stores dir files :=
  ⟨h.directory.of_grows hgrows, fun name => by rw [entryAt?_writing_of_ne hne, h.entry name]⟩

section Blocks

variable {withSourceMaps : Bool} {blocks : List Block}
  (h : fs.Stores dir (scriptFiles withSourceMaps blocks))
include h

theorem Stores.entryAt?_blockFile (name : String) :
    fs.entryAt? (dir.names ++ [blockFileName name]) =
      (Pcode.writtenBlock? blocks name).map fun block =>
        .file (Text.encode (block.render ++ "\n")) := by
  rw [h.entry, lastWritten?_encode, Pcode.find?_scriptFiles, Option.map_map, Option.map_map]
  rfl

/-- The block files of a directory where blocks are stored: one for each name, with the last block
of the name. -/
theorem Stores.mem_tree_iff {file : Path × Bytes} :
    file ∈ fs.tree dir Workspace.blockGlob ↔
      ∃ block, Pcode.writtenBlock? blocks block.name = some block ∧
        fits (blockFileName block.name) ∧
        file = (Path.empty.child (blockFileName block.name),
          Text.encode (block.render ++ "\n")) := by
  have hdots : ∀ name, blockFileName name ≠ ".." := Path.append_ne_dots rfl (by decide)
  constructor
  · intro hfile
    obtain ⟨p, hp, hread⟩ := mem_filterMap.1 hfile
    obtain ⟨-, other, -, hmatches, hisFile, rfl⟩ := mem_listFiles.1 hp
    obtain ⟨name, rfl⟩ := Pcode.exists_of_isBlockFile hmatches
    obtain ⟨hfits, content, hentry⟩ :=
      entryAt?_of_isFile_child h.directory (hdots name) hisFile
    have hcontent : fs.read (dir ++ Path.empty.child (blockFileName name)) = .ok content :=
      read_child h.directory (hdots name) hfits hentry
    rw [hcontent] at hread
    cases hread
    rw [h.entryAt?_blockFile] at hentry
    obtain ⟨block, hblock, heq⟩ := Option.map_eq_some_iff.1 hentry
    cases heq
    have hname : block.name = name := by simpa using find?_some hblock
    subst hname
    exact ⟨block, hblock, hfits, rfl⟩
  · rintro ⟨block, hblock, hfits, rfl⟩
    have hentry : fs.entryAt? (dir.names ++ [blockFileName block.name]) =
        some (.file (Text.encode (block.render ++ "\n"))) := by
      rw [h.entryAt?_blockFile, hblock]
      rfl
    have hisFile := isFile_child h.directory (hdots block.name) hfits hentry
    obtain ⟨hdirectory, hchild⟩ := isDirectory_of_isFile_child (hdots block.name) hisFile
    refine mem_filterMap.2 ⟨Path.empty.child (blockFileName block.name), mem_listFiles.2
      ⟨hdirectory, _, hchild, Pcode.isBlockFile_blockFileName _, hisFile, rfl⟩, ?_⟩
    have hread : fs.read (dir ++ Path.empty.child (blockFileName block.name)) =
        .ok (Text.encode (block.render ++ "\n")) :=
      read_child h.directory (hdots block.name) hfits hentry
    rw [hread]

end Blocks

end FileSystem

end MovieDiff
