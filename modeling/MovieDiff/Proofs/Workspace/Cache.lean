import MovieDiff.Proofs.Display.Groups
import MovieDiff.Proofs.Pcode.SourceMap
import MovieDiff.Proofs.Pcode.WellFormed
import MovieDiff.Proofs.Workspace.Writing

/-!
The cache of normalised scripts. Main statement: what was normalised from well-formed text and
written into an empty directory is read back from there, the same blocks in the same order.
-/
namespace MovieDiff

open List
open Pcode (Block Line NormalScript blockFileName sourceMapFileName orderFileName)

variable {name : String} {blocks : List Block} {lines : List Line}

/-! ### Paths of the cache -/

namespace Path

variable {p : Path}

theorem stem_child (h : name ≠ "") : (p.child (blockFileName name)).stem = name := by
  have hsplit := splitName_append h (rfl : ".pcode".toList = _) (by decide) (by decide)
  rw [stem, name_child, blockFileName, hsplit]

theorem withSuffix_child (h : name ≠ "") :
    (p.child (blockFileName name)).withSuffix ".pcode.map" = p.child (sourceMapFileName name) := by
  rw [withSuffix, stem_child h, parent_child]
  rfl

end Path

namespace Workspace

variable {w : Workspace} {dir : Path}

variable {p : Path}

theorem insideOf_eq_ok {base full : Path} {fault : Fault} (h : insideOf base p fault = .ok full) :
    full = (base ++ p).resolve ∧ full.isWithin base ∧
      (p.names.any fun name => name.toList.contains '\x00') = false := by
  unfold insideOf at h
  dsimp only at h
  split at h
  · cases h
  next hnull =>
    split at h
    next hwithin =>
      cases h
      exact ⟨rfl, hwithin, by simpa using hnull⟩
    · cases h

theorem dots_not_mem_normalizationPath (h : w.normalizationPath p = .ok dir) :
    ".." ∉ dir.names := by
  rw [(insideOf_eq_ok h).1]
  exact Path.dots_not_mem_cancelDots _

/-- What is inside a directory that may be looked up may be looked up. -/
theorem normalizationPath_child (h : w.normalizationPath p = .ok dir)
    (hname : name ≠ "..") (hnull : name.toList.contains '\x00' = false) :
    w.normalizationPath (p.child name) = .ok (dir.child name) := by
  obtain ⟨hdir, hwithin, hnulls⟩ := insideOf_eq_ok h
  have hfull : (w.normalizationDir ++ p.child name).resolve = dir.child name := by
    rw [Path.resolve_append_child _ _ hname, hdir]
  have hany : ((p.child name).names.any fun name => name.toList.contains '\x00') = false := by
    change ((p.names ++ [name]).any fun name => name.toList.contains '\x00') = false
    rw [any_append, hnulls]
    simpa using hnull
  have hchild : (dir.child name).isWithin w.normalizationDir := by
    simp only [Path.isWithin, Bool.and_eq_true, isPrefixOf_iff_prefix] at hwithin ⊢
    exact ⟨hwithin.1, hwithin.2.trans (prefix_append dir.names [name])⟩
  unfold normalizationPath insideOf
  rw [hfull, hany]
  simp [hchild]

end Workspace

/-! ### Reading a script back -/

namespace Pcode

theorem isSingleLine_toString (n : Int) : Text.isSingleLine (toString n).toList := by
  rw [Text.Json.toList_toString, Text.isSingleLine_append]
  refine ⟨by split <;> decide, Text.isSingleLine_of_no_blank fun c hc => ?_⟩
  rw [← Nat.toList_repr, ← Nat.toString_eq_repr] at hc
  exact Text.isBlank_of_isDigit (isDigit_of_mem_toString hc)

theorem isSingleLine_bracketed {items : List String}
    (h : ∀ item ∈ items, Text.isSingleLine item.toList) :
    Text.isSingleLine (bracketed items).toList := by
  rw [bracketed_toList, Text.isSingleLine_cons, Text.isSingleLine_append]
  exact ⟨by decide, isSingleLine_intercalate (by decide) h, by decide⟩

theorem return_not_mem_sourceMapText (lines : List Line) :
    '\r' ∉ (sourceMapText lines).toList := by
  have hline : Text.isSingleLine
      (bracketed (lines.map fun line => bracketed (line.sources.map toString))).toList := by
    refine isSingleLine_bracketed fun item hitem => ?_
    obtain ⟨line, -, rfl⟩ := mem_map.1 hitem
    refine isSingleLine_bracketed fun number hnumber => ?_
    obtain ⟨n, -, rfl⟩ := mem_map.1 hnumber
    exact isSingleLine_toString n
  have hreturn := Text.return_not_mem hline
  rw [sourceMapText, String.toList_append, mem_append, not_or]
  exact ⟨hreturn, by decide⟩

def isBlockFile (name : String) : Bool :=
  Glob.matchesName (.anyText :: ".pcode".toList.map GlobChar.exactly) name.toList

theorem isBlockFile_blockFileName (name : String) : isBlockFile (blockFileName name) := by
  rw [isBlockFile, FileSystem.matchesName_ending, blockFileName, String.toList_append]
  exact suffix_append _ _

theorem getLast?_of_isBlockFile (h : isBlockFile name) :
    name.toList.getLast? = some 'e' := by
  obtain ⟨front, hfront⟩ := (FileSystem.matchesName_ending _ _).1 h
  rw [← hfront]
  simp

theorem not_isBlockFile_sourceMapFileName (name : String) :
    ¬ isBlockFile (sourceMapFileName name) := by
  intro h
  have hlast := getLast?_of_isBlockFile h
  simp [sourceMapFileName] at hlast

theorem not_isBlockFile_orderFileName : ¬ isBlockFile orderFileName := fun h =>
  absurd (getLast?_of_isBlockFile h) (by decide)

/-- Of the files of blocks, those that hold the text of one. -/
theorem filter_fileNames (names : List String) :
    (names.flatMap (fileNamesOf true) ++ [orderFileName]).filter isBlockFile =
      names.map blockFileName := by
  rw [filter_append, filter_cons_of_neg not_isBlockFile_orderFileName, filter_nil,
    append_nil]
  induction names with
  | nil => rfl
  | cons name names ih =>
    rw [flatMap_cons, filter_append, ih, fileNamesOf, if_pos rfl,
      filter_cons_of_pos (isBlockFile_blockFileName name),
      filter_cons_of_neg (not_isBlockFile_sourceMapFileName name), filter_nil]
    rfl

theorem isBlank_of_isFileNameChar {c : Char} : isFileNameChar c → Text.isBlank c = false :=
  Text.isBlank_eq_false (by decide +kernel)

section Order

variable (hnames : ∀ block ∈ blocks, IsFileName block.name)
include hnames

theorem isBlank_of_mem_name : ∀ name ∈ blocks.map Block.name, name ≠ "" ∧
    ∀ c ∈ name.toList, Text.isBlank c = false := by
  intro name hname
  obtain ⟨block, hblock, rfl⟩ := mem_map.1 hname
  obtain ⟨hne, hfit⟩ := hnames block hblock
  exact ⟨hne, fun c hc => isBlank_of_isFileNameChar (all_eq_true.1 hfit c hc)⟩

theorem isSingleLine_names : ∀ name ∈ blocks.map Block.name, Text.isSingleLine name.toList :=
  fun name hname => Text.isSingleLine_of_no_blank (isBlank_of_mem_name hnames name hname).2

/-- The order of blocks is read back. -/
theorem orderNames_orderText :
    Workspace.orderNames (orderText blocks).toList = blocks.map Block.name := by
  have hsplit := Text.splitLines_joinLines (isSingleLine_names hnames)
    fun name hname => (isBlank_of_mem_name hnames name hname).1
  rw [Workspace.orderNames, String.ofList_toList, orderText, hsplit, filter_eq_self]
  intro name hname
  obtain ⟨hne, hclear⟩ := isBlank_of_mem_name hnames name hname
  rw [isBlankText_of_startsClear (by simpa using hne) fun c hc => hclear c (mem_of_mem_head? hc)]
  rfl

end Order

variable {found : List Line}

/-- Lines that differ in their sources only become equal when the sources are set. -/
theorem zipWith_sources (h : found.map Line.unsourced = lines.map Line.unsourced) :
    found.zipWith (fun line sources => { line with sources := sources.getD [] })
      (lines.map fun line => some line.sources) = lines := by
  induction lines generalizing found with
  | nil =>
    rw [map_nil, map_eq_nil_iff] at h
    rw [h]
    rfl
  | cons line lines ih =>
    cases found with
    | nil => cases h
    | cons first others =>
      rw [map_cons, map_cons, List.cons.injEq] at h
      rw [map_cons, zipWith_cons_cons, ih h.2]
      refine congrArg (· :: lines) ?_
      exact congrArg (fun other : Line => { other with sources := line.sources }) h.1

theorem mapM_sourcesAt (h : found.length = lines.length) :
    (found.zipIdx.mapM fun (_, i) => Workspace.sourcesAt (sourceMapValue lines) i) =
      .ok (lines.map fun line => some line.sources) := by
  have hone : ∀ entry ∈ found.zipIdx, Workspace.sourcesAt (sourceMapValue lines) entry.2 =
      .ok (lines[entry.2]?.map Line.sources) := by
    intro entry hentry
    have hlt : entry.2 < lines.length := by
      have hbound := snd_lt_of_mem_zipIdx hentry
      rwa [Nat.add_zero, h] at hbound
    rw [getElem?_eq_getElem hlt]
    simp [Workspace.sourcesAt, sourceMapValue, hlt, numbersOf?_ofInt]
  refine (mapM_eq_ok hone).trans (congrArg Except.ok ?_)
  refine ext_getElem (by simp [h]) fun i hi hi' => ?_
  rw [length_map] at hi'
  simp [hi']

end Pcode

namespace Workspace

open Pcode

variable {fs : FileSystem} {dir : Path}
  (h : fs.Holds dir (scriptFiles true blocks))
  (hnames : ∀ block ∈ blocks, IsFileName block.name)
include h hnames

/-- A block is read back from its file. -/
theorem readBlock_child (hlines : ∀ block ∈ blocks, AllReadable block.lines) {block : Block}
    (hblock : block ∈ blocks) :
    readBlock fs (dir.child (blockFileName block.name)) = .ok (block, true) := by
  have htext : (blockFileName block.name, block.render ++ "\n") ∈ scriptFiles true blocks :=
    mem_append_left _ (mem_flatMap.2 ⟨block, hblock, mem_cons_self⟩)
  have hmap : (sourceMapFileName block.name, sourceMapText block.lines) ∈ scriptFiles true blocks :=
    mem_append_left _ (mem_flatMap.2
      ⟨block, hblock, mem_cons_of_mem _ mem_cons_self⟩)
  have hne := (hnames block hblock).nonempty
  obtain ⟨found, hfound, hsame⟩ := readText_render (hlines block hblock)
  have hlength : found.length = block.lines.length := by
    simpa using congrArg List.length hsame
  have hdecoded : readText (String.ofList (Text.decodeLenient
      (Text.encode (block.render ++ "\n")))) = .ok found := by
    rw [Text.decodeLenient_encode, String.ofList_toList, hfound]
  unfold readBlock
  rw [Path.withSuffix_child hne, Path.stem_child hne,
    h.readStrict hmap (return_not_mem_sourceMapText block.lines), h.read htext]
  simp only [bind, Except.bind, parse?_sourceMapText, pure, Except.pure, hdecoded]
  rw [mapM_sourcesAt hlength]
  dsimp only
  rw [zipWith_sources hsame]
  simp

omit hnames in
/-- The files that a listing of the directory shows: one for each block, in some order. -/
theorem exists_listFiles : ∃ listed : List Block, listed.Perm blocks ∧
    fs.listFiles dir blockGlob =
      listed.map fun block => Path.empty.child (blockFileName block.name) := by
  have hperm : (fs.listFiles dir blockGlob).Perm
      ((((scriptFiles true blocks).map Prod.fst).filter isBlockFile).map Path.empty.child) :=
    h.listFiles_perm _
  rw [map_fst_scriptFiles, filter_fileNames, map_map, map_map] at hperm
  have hpairs : Forall₂ (fun file (block : Block) =>
      file = Path.empty.child (blockFileName block.name))
      (blocks.map fun block => Path.empty.child (blockFileName block.name)) blocks :=
    forall₂_map_left_iff.2 (forall₂_same.2 fun _ _ => rfl)
  obtain ⟨listed, hlisted, hblocks⟩ := perm_comp_forall₂ hperm hpairs
  refine ⟨listed, hblocks, ?_⟩
  rw [← forall₂_eq_eq_eq, forall₂_map_right_iff]
  exact hlisted

theorem readStrict_order :
    readStrict fs (dir.child orderFileName) = .ok (orderText blocks).toList := by
  have horder : (orderFileName, orderText blocks) ∈ scriptFiles true blocks :=
    mem_append_right _ mem_cons_self
  exact h.readStrict horder (Text.return_not_mem_joinLines (isSingleLine_names hnames))

end Workspace

namespace Workspace

open Pcode

theorem placeOf_eq_ok {names : List String} (h : names.Nodup) {index : Nat}
    (hname : names[index]? = some name) : placeOf names name = .ok index := by
  have hlt : index < names.length := (List.getElem?_eq_some_iff.1 hname).1
  unfold placeOf
  cases hfind : names.zipIdx.reverse.find? fun entry => entry.1 == name with
  | none =>
    have hmem : (name, index) ∈ names.zipIdx.reverse :=
      mem_reverse.2 (mem_zipIdx_iff_getElem?.2 hname)
    have hnot := find?_eq_none.1 hfind _ hmem
    simp at hnot
  | some entry =>
    obtain ⟨found, place⟩ := entry
    have hfound : found = name := by simpa using find?_some hfind
    have hplace : names[place]? = some found :=
      mem_zipIdx_iff_getElem?.1 (mem_reverse.1 (mem_of_find?_eq_some hfind))
    have hsame : index = place := (getElem?_inj hlt h).1 (by rw [hname, hplace, hfound])
    rw [hsame]

/-- Blocks in any order come back into theirs by the places of their names. -/
theorem exists_placed {listed : List Block} (hperm : listed.Perm blocks)
    (hnodup : (blocks.map Block.name).Nodup) :
    ∃ placed, (listed.mapM fun block => do
        return (← placeOf (blocks.map Block.name) block.name, block)) = .ok placed ∧
      (placed.mergeSort fun x y => x.1 ≤ y.1).map (·.2) = blocks := by
  let place (block : Block) : Nat × Block := ((blocks.map Block.name).idxOf block.name, block)
  have hplace : ∀ block ∈ blocks,
      placeOf (blocks.map Block.name) block.name = .ok (place block).1 :=
    fun block hblock => placeOf_eq_ok hnodup (getElem?_idxOf (mem_map_of_mem hblock))
  have hsorted : (blocks.map place).Pairwise fun x y => x.1 < y.1 := by
    rw [pairwise_map, pairwise_iff_getElem]
    intro i j hi hj hlt
    have hindex : ∀ k (hk : k < blocks.length), (place blocks[k]).1 = k := by
      intro k hk
      have hget := hnodup.idxOf_getElem k (by simpa using hk)
      rwa [getElem_map] at hget
    rwa [hindex i hi, hindex j hj]
  refine ⟨listed.map place, ?_, ?_⟩
  · refine mapM_eq_ok fun block hblock => ?_
    rw [hplace block (hperm.subset hblock)]
    rfl
  · have hkeys : ((blocks.map place).map Prod.fst).Nodup :=
      pairwise_map.2 (hsorted.imp fun hlt => Nat.ne_of_lt hlt)
    rw [mergeSort_eq_of_perm Prod.fst (fun _ _ => decide_eq_true_iff) (hperm.map place) hkeys,
      mergeSort_of_pairwise (hsorted.imp fun hlt => decide_eq_true (Nat.le_of_lt hlt)), map_map]
    exact map_id _

variable {w : Workspace} {script : String} {fs : FileSystem} {dir : Path}

section Holds

variable (hdir : w.normalizationPath (Path.ofString script) = .ok dir)
  (h : fs.Holds dir (scriptFiles true blocks))
include h

theorem ask_directory : fs.ask fs.isDirectory dir = .ok true := by
  rw [FileSystem.ask, FileSystem.locate_of_hasDirectory h.directory]
  exact congrArg Except.ok (FileSystem.isDirectory_of_hasDirectory h.directory)

include hdir

/-- The file of the order is found. -/
theorem blockOrderFile_of_holds : w.blockOrderFile fs script = .ok (dir.child orderFileName) := by
  have horder : (orderFileName, orderText blocks) ∈ scriptFiles true blocks :=
    mem_append_right _ mem_cons_self
  have hplace : fs.locate (dir.child orderFileName) = .ok (dir.names ++ [orderFileName]) :=
    FileSystem.locate_child h.directory (h.dots _ horder) (h.fit _ horder)
  have hpath : w.normalizationPath (Path.ofString script ++ Path.ofString orderFileName) =
      .ok (dir.child orderFileName) :=
    normalizationPath_child hdir (by decide) (by decide)
  simp [blockOrderFile, existing, hpath, FileSystem.ask, hplace, h.contains horder, bind,
    Except.bind, pure, Except.pure]

/-- A directory with all files of a normalised script is read back as that script. -/
theorem cachedScript_of_holds (hnames : ∀ block ∈ blocks, IsFileName block.name)
    (hlines : ∀ block ∈ blocks, AllReadable block.lines)
    (hnodup : (blocks.map Block.name).Nodup) (hne : blocks ≠ []) :
    w.cachedScript fs script = .ok (.ofBlocks blocks) := by
  have hask := ask_directory h
  obtain ⟨listed, hperm, hlisted⟩ := exists_listFiles h
  have hfiles : w.blockFiles fs script =
      .ok (listed.map fun block => Path.empty.child (blockFileName block.name)) := by
    simp [blockFiles, hdir, hask, hlisted, bind, Except.bind, pure, Except.pure]
  have hfound : ((listed.map fun block => Path.empty.child (blockFileName block.name)).mapM
      fun p => readBlock fs (dir ++ p)) = .ok (listed.map fun block => (block, true)) := by
    rw [mapM_map]
    exact mapM_eq_ok fun block hblock =>
      readBlock_child h hnames hlines (hperm.subset hblock)
  have hfull : (listed.map fun block => (block, true)).isEmpty = false := by
    rw [isEmpty_map, isEmpty_eq_false_iff]
    exact fun hnil => hne (nil_perm.1 (hnil ▸ hperm))
  have hsourced : (listed.map fun block => (block, true)).filter (fun entry => !entry.2) = [] := by
    simp [filter_map]
  -- The listing has the blocks in some order; the places of their names sort them.
  obtain ⟨placed, hplaced, hsorted⟩ := exists_placed hperm hnodup
  have hplaces : ((listed.map fun block => (block, true)).mapM fun entry => do
      return (← placeOf (blocks.map Block.name) entry.1.name, entry.1)) = .ok placed := by
    rw [mapM_map]
    exact hplaced
  unfold cachedScript
  simp only [hdir, hask, hfiles, hfound, blockOrderFile_of_holds hdir h, readStrict_order h hnames,
    orderNames_orderText hnames, hfull, hsourced, bind, Except.bind, pure, Except.pure] at hplaces ⊢
  rw [hplaces]
  dsimp only
  rw [hsorted]
  rfl

end Holds

/-- A well-formed text that was normalised into an empty directory of the workspace, with blocks of
different names, is read back from there as it was normalised. -/
theorem cachedScript_normalizeFile {session session' : Session} {input : Path} {bytes : Bytes}
    {lines : List Line} {result : NormalScript}
    (hdir : w.normalizationPath (Path.ofString script) = .ok dir)
    (hdirectory : session.files.isDirectory dir) (hempty : session.files.childNames dir = [])
    (hread : session.files.read input = .ok bytes)
    (hlines : readText (String.ofList (Text.decodeLenient bytes)) = .ok lines)
    (hformed : ∀ line ∈ lines, line.isWellFormed)
    (hrun : (Command.normalizeFile input dir true).run.run session = (.ok result, session'))
    (hne : result.blocks ≠ []) (hnodup : (result.blocks.map Block.name).Nodup) :
    w.cachedScript session'.files script = .ok result := by
  have hhas : session.files.HasDirectory dir.names :=
    FileSystem.hasDirectory_of_isDirectory (dots_not_mem_normalizationPath hdir) hdirectory
  obtain ⟨found, blocks, hfound, hblocks, rfl, hfits, rfl⟩ := Command.run_normalizeFile hhas hrun
  cases hread.symm.trans hfound
  obtain ⟨parsed, hparsed, hscript⟩ := exists_of_bind_eq_ok hblocks
  cases hlines.symm.trans hparsed
  have hfiles : ((scriptFiles true blocks).map Prod.fst).Nodup := by
    rw [map_fst_scriptFiles]
    exact (nodup_fileNames_iff true _).2 hnodup
  have hholds := Command.holds_writing hhas hempty hfiles hfits (ne_dots_of_mem_scriptFiles true)
  exact cachedScript_of_holds hdir hholds (isFileName_of_normalizeScript hscript)
    (allReadable_normalizeScript (isReadable_of_readText hlines hformed) hscript) hnodup hne

/-- A loop with a quoted text, then a function with a register of its own. -/
def mixedText : String :=
  "loc0:Push 1.0, \"a\\\"b\"\nNot\nIf loc0\n\n" ++
    "DefineFunction2 \"f\", 0, 3, true \x7b\nStoreRegister 3\nPush register3\n\x7d"

def mixedLoopEnd (label : String) : List Line :=
  [⟨[1], none, .instruction "Not" []⟩, ⟨[2], none, .instruction "If" [.ofSymbol label]⟩]

def mixedFunctionBody (register : String) : List Line :=
  [⟨[5], none, .instruction "StoreRegister" [.ofNumeral register]⟩,
    ⟨[6], none, .instruction "Push" [.ofSymbol ("register" ++ register)]⟩,
    ⟨[7], none, .structural "\x7d"⟩]

def mixedFunction : Line :=
  ⟨[4], none, .instruction "DefineFunction" [.ofString "f", .ofNumeral "0"]⟩

def mixedLines : List Line :=
  ⟨[0], some "loc0", .instruction "Push" [.ofNumeral "1.0", .ofString "a\\\"b"]⟩ ::
    mixedLoopEnd "loc0" ++
    ⟨[4], none, .instruction "DefineFunction2"
      [.ofString "f", .ofNumeral "0", .ofNumeral "3", .ofFlag true]⟩ :: mixedFunctionBody "3"

def mixedToplevel : Block :=
  ⟨"__toplevel",
    ⟨[0], some "L0", .instruction "Push" [.ofNumeral "1"]⟩ ::
      ⟨[0], none, .instruction "Push" [.ofString "a\\\"b"]⟩ :: mixedLoopEnd "L0"⟩

def mixedBlocks : List Block :=
  [mixedToplevel, ⟨"f", mixedFunction :: mixedFunctionBody "1"⟩]

def mixedDirectory : Path :=
  Path.ofString "/w/normalized_scripts/s"

/-- A session with a directory for the normal form of the text, still empty. -/
def mixedSession : Session where
  files := ⟨[(["w"], .directory), (["w", "normalized_scripts"], .directory),
    (["w", "normalized_scripts", "s"], .directory), (["in"], .file (Text.encode mixedText))]⟩

theorem readText_mixedText :
    readText (String.ofList (Text.decodeLenient (Text.encode mixedText))) = .ok mixedLines := by
  rw [Text.decodeLenient_encode, String.ofList_toList]
  exact eq_ok_of_toOption (by decide +kernel)

theorem read_mixedSession :
    mixedSession.files.read (Path.ofString "/in") = .ok (Text.encode mixedText) := rfl

theorem exists_run_mixedSession : ∃ session',
    (Command.normalizeFile (Path.ofString "/in") mixedDirectory true).run.run mixedSession =
      (.ok (.ofBlocks mixedBlocks), session') :=
  Command.exists_run_eq_ok (by decide +kernel)

theorem cachedScript_mixedText :
    ∃ session', (Command.normalizeFile (Path.ofString "/in") mixedDirectory true).run.run
        mixedSession = (.ok (.ofBlocks mixedBlocks), session') ∧
      (Workspace.ofPath (Path.ofString "/w")).cachedScript session'.files "s" =
        .ok (.ofBlocks mixedBlocks) := by
  obtain ⟨session', hrun⟩ := exists_run_mixedSession
  exact ⟨session', hrun,
    cachedScript_normalizeFile (eq_ok_of_toOption (by decide +kernel)) (by decide +kernel)
      (by decide +kernel) read_mixedSession readText_mixedText (by decide +kernel) hrun
      (List.cons_ne_nil _ _) (by decide +kernel)⟩

end Workspace

end MovieDiff
