import MovieDiff.Display.BlockText
import MovieDiff.Proofs.Display.BlockMap
import MovieDiff.Proofs.Scripts.Outcome
import MovieDiff.Proofs.Workspace.Stored

/-!
The spans of reported blocks. A comparison of two directories counts lines of files, and what is
shown of a block is found by these counts among its lines in memory. Main statement: the two agree,
and every span can be taken to raw p-code, exactly for the blocks that are more than labels and
whose name has not been given again to a block with another number of lines.
-/
namespace MovieDiff

open List
open DebugInfo (LineMap)
open Pcode (Block Line NormalScript blockFileName scriptFiles)
open Workspace (blockGlob)
open MovieDiff.Path (ofString)

variable {name : String} {spans : List Span} {fs : FileSystem} {dir : Path} {raw : List Block}

namespace Display

/-! ### One side of a reported block -/

variable {block : Block}

theorem findBlock_eq_ok {blocks : List Block} :
    findBlock blocks (some name) = .ok (some block) ↔
      blocks.find? (·.name == name) = some block := by
  unfold findBlock
  dsimp only
  cases blocks.find? (·.name == name) <;> simp

/-- A block in memory that the lines of a file stand for, with spans that were found in the file:
each is a span of the block, and both the spans and the block are taken to raw lines. -/
structure Covers (block : Block) (texts : List String) (spans : List Span) : Prop where
  nonempty : block.lines ≠ []
  length : texts.length = block.lines.length
  fit : ∀ span ∈ spans, span.FitsIn block.lines.length
  map : ∀ script : LineMap, ∃ table,
    blockMap (block.lines.map Line.sources) script = .ok table
  raw : ∀ span ∈ wholeSpan block.lines :: spans, ∃ raw,
    rawSpan (block.lines.map Line.sources) span = .ok raw

/-- The block that is found by a name is covered by the file of that name in a directory. -/
def IsSound (fs : FileSystem) (dir : Path) (blocks : List Block) (spans : List Span)
    (name : String) : Prop :=
  ∃ block texts, findBlock blocks (some name) = .ok (some block) ∧
    fs.readLines (dir.child (blockFileName name)) = .ok texts ∧ Covers block texts spans

theorem covers_of_length {texts : List String}
    (hsourced : ∀ line ∈ block.lines, line.IsSourced) (hne : block.lines ≠ [])
    (hlength : texts.length = block.lines.length)
    (hspans : ∀ span ∈ spans, span.FitsIn texts.length) : Covers block texts spans := by
  have hsources : ∀ numbers ∈ block.lines.map Line.sources, numbers ≠ [] :=
    forall_mem_map.2 fun line hline => (hsourced line hline).sources
  have hsources' : block.lines.map Line.sources ≠ [] := by simpa using hne
  rw [hlength] at hspans
  obtain ⟨low, high, -, -, hmap⟩ := exists_blockMap_eq hsources hsources'
  refine ⟨hne, hlength, hspans, fun script => ⟨_, hmap script⟩, fun span hspan => ?_⟩
  have hfits : span.FitsIn (block.lines.map Line.sources).length := by
    rw [length_map]
    rcases mem_cons.1 hspan with rfl | hspan
    · exact ⟨Int.le_refl _, Int.natCast_nonneg _, Int.le_refl _⟩
    · exact hspans span hspan
  obtain ⟨raw, hraw, -⟩ := exists_rawSpan hsources hsources' hfits
  exact ⟨raw, hraw⟩

end Display

namespace Pcode

def rawBlocks (bytes : Bytes) : Except Fault (List Block) := do
  splitBlocks (← readText (String.ofList (Text.decodeLenient bytes)))

/-- The first block of a name is more than labels, and in normal form it has as many lines as the
file of that name, which holds the last block of the name. -/
def IsIntact (raw blocks : List Block) (name : String) : Prop :=
  ∃ before block written, raw.find? (·.name == name) = some before ∧
    blocks.find? (·.name == name) = some block ∧ writtenBlock? blocks name = some written ∧
    (∃ line ∈ before.lines, ¬ line.isLabelAlone) ∧
    block.lines.length = max 1 written.lines.length

variable {block : Block}

/-- A block comes from the one of its name. -/
theorem AreNormalForms.find? {blocks : List Block} (h : AreNormalForms raw blocks)
    (hblock : blocks.find? (·.name == name) = some block) :
    ∃ before, raw.find? (·.name == name) = some before ∧ normalizeBlock before = .ok block := by
  induction h with
  | nil => cases hblock
  | @cons before first raw blocks hfirst _ ih =>
    have hname := name_normalizeBlock hfirst
    by_cases heq : before.name == name
    · rw [find?_cons_of_pos (by rwa [hname])] at hblock
      cases hblock
      exact ⟨before, find?_cons_of_pos heq, hfirst⟩
    · rw [find?_cons_of_neg (by rwa [hname])] at hblock
      rw [find?_cons_of_neg (by simpa using heq)]
      exact ih hblock

theorem lines_ne_nil_iff {before : Block} (h : normalizeBlock before = .ok block) :
    block.lines ≠ [] ↔ ∃ line ∈ before.lines, ¬ line.isLabelAlone := by
  rw [ne_eq, normalizeLines_eq_nil_iff (normalizeBlock_eq_ok h)]
  simp

theorem find?_name {blocks : List Block} (hnodup : (blocks.map Block.name).Nodup)
    (hblock : block ∈ blocks) : blocks.find? (·.name == block.name) = some block := by
  obtain ⟨found, hfound⟩ : ∃ found, blocks.find? (·.name == block.name) = some found :=
    Option.isSome_iff_exists.1 (find?_isSome.2 ⟨block, hblock, beq_self_eq_true _⟩)
  have hname : found.name = block.name := by simpa using find?_some hfound
  rw [hfound, inj_on_of_nodup_map hnodup (mem_of_find?_eq_some hfound) hblock hname]

/-- Where no name is given twice, the intact blocks are those that are more than labels. -/
theorem isIntact_iff {blocks : List Block} (h : AreNormalForms raw blocks)
    (hnodup : (raw.map Block.name).Nodup) :
    IsIntact raw blocks name ↔
      ∃ before ∈ raw, before.name = name ∧ ∃ line ∈ before.lines, ¬ line.isLabelAlone := by
  constructor
  · rintro ⟨before, _, _, hbefore, -, -, hmore, -⟩
    exact ⟨before, mem_of_find?_eq_some hbefore, by simpa using find?_some hbefore, hmore⟩
  · rintro ⟨before, hbefore, rfl, hmore⟩
    have hnodup' : (blocks.map Block.name).Nodup := h.map_name ▸ hnodup
    have hmem : before.name ∈ blocks.map Block.name := h.map_name ▸ mem_map_of_mem hbefore
    obtain ⟨block, hblock, hname⟩ := mem_map.1 hmem
    have hfound := hname ▸ find?_name hnodup' hblock
    obtain ⟨first, hfirst, hnormal⟩ := h.find? hfound
    cases hfirst.symm.trans (find?_name hnodup hbefore)
    have hwritten : writtenBlock? blocks before.name = some block := by
      refine hname ▸ find?_name ?_ (mem_reverse.2 hblock)
      rwa [map_reverse, nodup_reverse]
    have hpos : 0 < block.lines.length := length_pos_iff.2 ((lines_ne_nil_iff hnormal).2 hmore)
    exact ⟨before, block, block, hfirst, hfound, hwritten, hmore, by omega⟩

/-- What is normalised was read as blocks. -/
theorem exists_of_normalizeBytes {bytes : Bytes} {blocks : List Block}
    (h : normalizeBytes bytes = .ok blocks) :
    ∃ raw, rawBlocks bytes = .ok raw ∧ AreNormalForms raw blocks ∧
      (∀ block ∈ blocks, IsFileName block.name) ∧
      ∀ block ∈ blocks, ∀ line ∈ block.lines, line.IsSourced := by
  obtain ⟨lines, hlines, hscript⟩ := exists_of_bind_eq_ok h
  obtain ⟨raw, hraw, hblocks⟩ := exists_of_bind_eq_ok hscript
  refine ⟨raw, ?_, forall₂_of_mapM_eq_ok hblocks, isFileName_of_normalizeScript hscript,
    isSourced_of_normalizeScript hlines hscript⟩
  simp only [rawBlocks, hlines, bind, Except.bind, hraw]

end Pcode

namespace Display

open Pcode (writtenBlock? IsIntact AreNormalForms IsFileName)

/-- A side with a file of a directory where blocks are stored is sound exactly when it is intact. -/
theorem isSound_iff {withSourceMaps : Bool} {blocks : List Block}
    (hstores : fs.Stores dir (scriptFiles withSourceMaps blocks)) (hraw : AreNormalForms raw blocks)
    (hnames : ∀ block ∈ blocks, IsFileName block.name)
    (hsourced : ∀ block ∈ blocks, ∀ line ∈ block.lines, line.IsSourced) {file : Path × Bytes}
    (hfile : file ∈ fs.tree dir blockGlob)
    (hspans : ∀ span ∈ spans, span.FitsIn file.2.lines.length) :
    IsSound fs dir blocks spans file.1.stem ↔ IsIntact raw blocks file.1.stem := by
  obtain ⟨written, hwritten, -, rfl⟩ := hstores.mem_tree_iff.1 hfile
  have hmem : written ∈ blocks := mem_reverse.1 (mem_of_find?_eq_some hwritten)
  have hread : fs.readLines (dir.child (blockFileName written.name)) =
      .ok (Bytes.lines (Text.encode (written.render ++ "\n"))) := FileSystem.readLines_of_mem_tree hfile
  have hlength := Pcode.length_lines_render fun line hline =>
    (hsourced written hmem line hline).toFitsLine
  rw [Path.stem_child (hnames written hmem).nonempty]
  constructor
  · rintro ⟨block, texts, hfound, htexts, hcovers⟩
    rw [findBlock_eq_ok] at hfound
    obtain rfl := Except.ok.inj (hread.symm.trans htexts)
    obtain ⟨before, hbefore, hnormal⟩ := hraw.find? hfound
    exact ⟨before, block, written, hbefore, hfound, hwritten,
      (Pcode.lines_ne_nil_iff hnormal).1 hcovers.nonempty, hcovers.length.symm.trans hlength⟩
  · rintro ⟨before, block, last, hbefore, hfound, hlast, hmore, hcount⟩
    cases hwritten.symm.trans hlast
    obtain ⟨before', hbefore', hnormal⟩ := hraw.find? hfound
    cases hbefore.symm.trans hbefore'
    exact ⟨block, _, findBlock_eq_ok.2 hfound, hread,
      covers_of_length (hsourced block (mem_of_find?_eq_some hfound))
        ((Pcode.lines_ne_nil_iff hnormal).2 hmore) (hlength.trans hcount.symm) hspans⟩

end Display

/-! ### Reported blocks -/

/-- The blocks that a comparison of two directories reports: of each change both sides, with the
spans that differ, and of each file without a partner the one side. -/
def TreeDiff.blocks (diff : TreeDiff) : List BlockDiff :=
  diff.changes.map ScriptDiff.ofChange ++
    (diff.onlyLeft.map fun path => { names := .left path.stem }) ++
    diff.onlyRight.map fun path => { names := .right path.stem }

variable {left right : FileTree}

/-- Each side of a reported block comes from a file, and the spans are spans of the file's lines. -/
theorem TreeDiff.sides_of_mem_blocks {dir' : Path} {glob : Glob}
    {block : BlockDiff} (h : block ∈ (TreeDiff.of (fs.tree dir glob) (fs.tree dir' glob)).blocks) :
    (∀ name ∈ block.names.left?, ∃ file ∈ fs.tree dir glob, file.1.stem = name ∧
        ∀ span ∈ block.spans.map SpanPair.left, span.FitsIn file.2.lines.length) ∧
      ∀ name ∈ block.names.right?, ∃ file ∈ fs.tree dir' glob, file.1.stem = name ∧
        ∀ span ∈ block.spans.map SpanPair.right, span.FitsIn file.2.lines.length := by
  rw [TreeDiff.blocks, mem_append, mem_append] at h
  rcases h with (h | h) | h
  · obtain ⟨change, hchange, rfl⟩ := mem_map.1 h
    obtain ⟨⟨file, file'⟩, htells⟩ := TreeDiff.exists_explains
      FileSystem.nodup_paths_tree FileSystem.nodup_paths_tree hchange
    have hnames : (ScriptDiff.ofChange change).names = .both file.1.stem file'.1.stem := by
      rw [ScriptDiff.ofChange, ← FileChange.target, htells.target, htells.path]
    have hspans : (ScriptDiff.ofChange change).spans = (TextDiff.of file.2.lines file'.2.lines).spans :=
      (congrArg TextDiff.spans htells.diff).symm
    simp only [hnames, hspans, Sides.left?, Sides.right?, Option.mem_some_iff, forall_eq',
      forall_mem_map]
    exact ⟨⟨file, htells.left_mem, rfl, fun spans hmem => (TextDiff.fitsIn_of_mem_spans hmem).1⟩,
      ⟨file', htells.right_mem, rfl, fun spans hmem => (TextDiff.fitsIn_of_mem_spans hmem).2⟩⟩
  · obtain ⟨path, hpath, rfl⟩ := mem_map.1 h
    obtain ⟨content, hfile⟩ := FileTree.mem_paths.1 (TreeDiff.mem_of_mem_onlyLeft hpath).1
    simpa [Sides.left?, Sides.right?] using ⟨path, ⟨content, hfile⟩, rfl⟩
  · obtain ⟨path, hpath, rfl⟩ := mem_map.1 h
    obtain ⟨content, hfile⟩ := FileTree.mem_paths.1 (TreeDiff.mem_of_mem_onlyRight hpath).1
    simpa [Sides.left?, Sides.right?] using ⟨path, ⟨content, hfile⟩, rfl⟩

/-- A file that is on both sides and has other lines there is reported. -/
theorem TreeDiff.exists_mem_blocks {path : Path} {x y : Bytes} (hright : right.paths.Nodup)
    (hx : (path, x) ∈ left) (hy : (path, y) ∈ right) (hlines : x.lines ≠ y.lines) :
    ∃ block ∈ (TreeDiff.of left right).blocks, block.names = .both path.stem path.stem :=
  have hchange := TreeDiff.mem_commonChanges_of_mem hright hx hy hlines
  ⟨_, mem_append_left _ (mem_append_left _
    (mem_map_of_mem (mem_append_left _ hchange))), rfl⟩

/-- A directory that is there and empty, and is named without double dots. -/
structure FileSystem.HasEmptyDirectory (fs : FileSystem) (dir : Path) : Prop where
  dots : ".." ∉ dir.names
  directory : fs.isDirectory dir
  empty : fs.childNames dir = []

namespace Command

open Display (IsSound)
open Pcode (IsIntact AreNormalForms IsFileName rawBlocks)

/-- Two texts that were normalised into two empty directories: both directories in the end. -/
theorem stores_of_runs {session between session' : Session} {leftInput rightInput left right : Path}
    {leftMaps rightMaps : Bool} {leftResult rightResult : NormalScript}
    (hleft : session.files.HasEmptyDirectory left)
    (hright : session.files.HasEmptyDirectory right) (hne : left.names ≠ right.names)
    (hleftRun : (normalizeFile leftInput left leftMaps).run.run session =
      (.ok leftResult, between))
    (hrightRun : (normalizeFile rightInput right rightMaps).run.run between =
      (.ok rightResult, session')) :
    (∃ bytes, session.files.read leftInput = .ok bytes ∧
        normalizeBytes bytes = .ok leftResult.blocks) ∧
      (∃ bytes, between.files.read rightInput = .ok bytes ∧
        normalizeBytes bytes = .ok rightResult.blocks) ∧
      session'.files.Stores left (scriptFiles leftMaps leftResult.blocks) ∧
      session'.files.Stores right (scriptFiles rightMaps rightResult.blocks) := by
  have hleftDir := FileSystem.hasDirectory_of_isDirectory hleft.dots hleft.directory
  have hrightDir := FileSystem.hasDirectory_of_isDirectory hright.dots hright.directory
  obtain ⟨-, -, -, -, hgrows, -⟩ := grows_normalizeFile hleftRun
  obtain ⟨-, -, -, -, hgrows', -⟩ := grows_normalizeFile hrightRun
  obtain ⟨bytes, blocks, hread, hblocks, rfl, -, rfl⟩ := run_normalizeFile hleftDir hleftRun
  have hrightDir' := hrightDir.of_grows hgrows
  obtain ⟨bytes', blocks', hread', hblocks', rfl, -, rfl⟩ := run_normalizeFile hrightDir' hrightRun
  have hstores : (writing session left (scriptFiles leftMaps blocks)).files.Stores left
      (scriptFiles leftMaps blocks) :=
    FileSystem.stores_writing hleftDir
      (FileSystem.entryAt?_of_childNames_nil hleftDir hleft.empty)
  refine ⟨⟨bytes, hread, hblocks⟩, ⟨bytes', hread', hblocks'⟩, hstores.writing hne.symm hgrows',
    FileSystem.stores_writing hrightDir' fun name => ?_⟩
  rw [FileSystem.entryAt?_writing_of_ne hne]
  exact FileSystem.entryAt?_of_childNames_nil hrightDir hright.empty name

/-- Two texts are normalised into two empty directories, and the block files of the directories
are compared. A block that is reported is sound on each of its sides exactly when it is intact
there; in a text whose blocks have different names, when it is more than labels. -/
theorem reported_isSound_iff {session between session' : Session}
    {leftInput rightInput left right : Path} {leftMaps rightMaps : Bool}
    {leftResult rightResult : NormalScript} (hleft : session.files.HasEmptyDirectory left)
    (hright : session.files.HasEmptyDirectory right) (hne : left.names ≠ right.names)
    (hleftRun : (normalizeFile leftInput left leftMaps).run.run session =
      (.ok leftResult, between))
    (hrightRun : (normalizeFile rightInput right rightMaps).run.run between =
      (.ok rightResult, session')) :
    ∃ leftRaw rightRaw, (session.files.read leftInput >>= rawBlocks) = .ok leftRaw ∧
      (between.files.read rightInput >>= rawBlocks) = .ok rightRaw ∧
      (∀ block ∈ (TreeDiff.of (session'.files.tree left blockGlob)
          (session'.files.tree right blockGlob)).blocks,
        (∀ name ∈ block.names.left?, IsSound session'.files left leftResult.blocks
            (block.spans.map SpanPair.left) name) ∧
          (∀ name ∈ block.names.right?, IsSound session'.files right rightResult.blocks
            (block.spans.map SpanPair.right) name) ↔
        (∀ name ∈ block.names.left?, IsIntact leftRaw leftResult.blocks name) ∧
          ∀ name ∈ block.names.right?, IsIntact rightRaw rightResult.blocks name) ∧
      ∀ side ∈ [(leftRaw, leftResult.blocks), (rightRaw, rightResult.blocks)],
        (side.1.map Block.name).Nodup → ∀ name, IsIntact side.1 side.2 name ↔
          ∃ before ∈ side.1, before.name = name ∧ ∃ line ∈ before.lines, ¬ line.isLabelAlone := by
  obtain ⟨⟨bytes, hread, hblocks⟩, ⟨bytes', hread', hblocks'⟩, hstores, hstores'⟩ :=
    stores_of_runs hleft hright hne hleftRun hrightRun
  obtain ⟨raw, hraw, hnormal, hnames, hsourced⟩ := Pcode.exists_of_normalizeBytes hblocks
  obtain ⟨raw', hraw', hnormal', hnames', hsourced'⟩ := Pcode.exists_of_normalizeBytes hblocks'
  refine ⟨raw, raw', by simp only [hread, bind, Except.bind, hraw],
    by simp only [hread', bind, Except.bind, hraw'], fun block hblock => ?_,
    List.forall_mem_cons.2 ⟨fun hnodup _ => Pcode.isIntact_iff hnormal hnodup,
      List.forall_mem_singleton.2 fun hnodup _ => Pcode.isIntact_iff hnormal' hnodup⟩⟩
  obtain ⟨hleftSide, hrightSide⟩ := TreeDiff.sides_of_mem_blocks hblock
  refine and_congr (forall₂_congr fun name hname => ?_) (forall₂_congr fun name hname => ?_)
  · obtain ⟨file, hfile, rfl, hspans⟩ := hleftSide name hname
    exact Display.isSound_iff hstores hnormal hnames hsourced hfile hspans
  · obtain ⟨file, hfile, rfl, hspans⟩ := hrightSide name hname
    exact Display.isSound_iff hstores' hnormal' hnames' hsourced' hfile hspans

/-! ### Gaps of labels -/

/-- A function that jumps to a label behind it, and what stands there. -/
def jumpText (gap : String) : String :=
  "DefineFunction \"f\", 0 \x7b\nIf L1\n\x7d\n" ++ gap

def jumpHeader : Line :=
  ⟨[0], none, .instruction "DefineFunction" [.ofString "f", .ofNumeral "0"]⟩

def jumpBody (label : String) : List Line :=
  [⟨[1], none, .instruction "If" [.ofSymbol label]⟩, ⟨[2], none, .structural "\x7d"⟩]

def jumpBlocks (label : String) (gap : List Line) : List Block :=
  [⟨"f", jumpHeader :: jumpBody label⟩, ⟨"__toplevel", gap⟩]

def pushLine (label : Option String) (number : String) : Line :=
  ⟨[3], label, .instruction "Push" [.ofNumeral number]⟩

def jumpSession (left right : String) : Session where
  files := ⟨[(["a"], .file (Text.encode (jumpText left))),
    (["b"], .file (Text.encode (jumpText right))), (["x"], .directory), (["y"], .directory)]⟩

theorem hasEmptyDirectory_jumpSession (left right : String) :
    (jumpSession left right).files.HasEmptyDirectory (ofString "/x") ∧
      (jumpSession left right).files.HasEmptyDirectory (ofString "/y") := by
  have hempty : ∀ dir : Path, (".." ∉ dir.names) → (jumpSession left right).files.isDirectory dir →
      (jumpSession left right).files.namesBelow dir.names = [] →
      (jumpSession left right).files.HasEmptyDirectory dir := fun dir hdots hdirectory hnone =>
    ⟨hdots, hdirectory, (FileSystem.childNames_eq_nil_iff
      (FileSystem.hasDirectory_of_isDirectory hdots hdirectory)).2 hnone⟩
  exact ⟨hempty _ (by decide) rfl rfl, hempty _ (by decide) rfl rfl⟩

/-- The run that normalises the left text, and the one of the right text after it. -/
def jumpRun (left right : String) :=
  (normalizeFile (ofString "/a") (ofString "/x") true).run.run (jumpSession left right)

@[inherit_doc jumpRun]
def jumpRun' (left right : String) :=
  (normalizeFile (ofString "/b") (ofString "/y") true).run.run (jumpRun left right).2

/-- Where what is left of the gaps differs, they are reported. -/
theorem exists_jump_report (leftGap rightGap : String) (leftLines rightLines : List Line)
    (hrun : (jumpRun leftGap rightGap).1.toOption = some (.ofBlocks (jumpBlocks "L0" leftLines)))
    (hrun' : (jumpRun' leftGap rightGap).1.toOption =
      some (.ofBlocks (jumpBlocks "L0" rightLines)))
    (hlines : Bytes.lines (Text.encode (Block.render ⟨"__toplevel", leftLines⟩ ++ "\n")) ≠
      Bytes.lines (Text.encode (Block.render ⟨"__toplevel", rightLines⟩ ++ "\n"))) :
    ∃ between session', jumpRun leftGap rightGap =
        (.ok (.ofBlocks (jumpBlocks "L0" leftLines)), between) ∧
      (normalizeFile (ofString "/b") (ofString "/y") true).run.run between =
        (.ok (.ofBlocks (jumpBlocks "L0" rightLines)), session') ∧
      session'.files.readLines ((ofString "/x").child (blockFileName "__toplevel")) =
        .ok (Bytes.lines (Text.encode (Block.render ⟨"__toplevel", leftLines⟩ ++ "\n"))) ∧
      ∃ block ∈ (TreeDiff.of (session'.files.tree (ofString "/x") blockGlob)
          (session'.files.tree (ofString "/y") blockGlob)).blocks,
        block.names = .both "__toplevel" "__toplevel" := by
  obtain ⟨hempty, hempty'⟩ := hasEmptyDirectory_jumpSession leftGap rightGap
  obtain ⟨between, hok⟩ := exists_run_eq_ok hrun
  rw [jumpRun', show (jumpRun leftGap rightGap).2 = between from congrArg Prod.snd hok] at hrun'
  obtain ⟨session', hok'⟩ := exists_run_eq_ok hrun'
  obtain ⟨-, -, hstores, hstores'⟩ := stores_of_runs hempty hempty' (by decide) hok hok'
  have hfitsGap : FileSystem.fits (blockFileName "__toplevel") := by decide +kernel
  have hfile := hstores.mem_tree_iff.2 ⟨⟨"__toplevel", leftLines⟩, rfl, hfitsGap, rfl⟩
  have hfile' := hstores'.mem_tree_iff.2 ⟨⟨"__toplevel", rightLines⟩, rfl, hfitsGap, rfl⟩
  refine ⟨_, _, hok, hok', FileSystem.readLines_of_mem_tree hfile, ?_⟩
  have hstem : (Path.empty.child (blockFileName "__toplevel")).stem = "__toplevel" :=
    Path.stem_child (by decide)
  have hblock := TreeDiff.exists_mem_blocks
    (by rw [FileSystem.paths_tree]; exact FileSystem.nodup_listFiles _ _ _) hfile hfile' hlines
  rwa [hstem] at hblock

theorem reported_isSound_pushes :
    (jumpSession "L1:Push 1\n" "L1:Push 2\n").files.HasEmptyDirectory (ofString "/x") ∧
    (jumpSession "L1:Push 1\n" "L1:Push 2\n").files.HasEmptyDirectory (ofString "/y") ∧
    (ofString "/x").names ≠ (ofString "/y").names ∧
    ∃ between session',
      (normalizeFile (ofString "/a") (ofString "/x") true).run.run
        (jumpSession "L1:Push 1\n" "L1:Push 2\n") =
          (.ok (.ofBlocks (jumpBlocks "L0" [pushLine none "1"])), between) ∧
      (normalizeFile (ofString "/b") (ofString "/y") true).run.run between =
        (.ok (.ofBlocks (jumpBlocks "L0" [pushLine none "2"])), session') ∧
      ∃ block ∈ (TreeDiff.of (session'.files.tree (ofString "/x") blockGlob)
          (session'.files.tree (ofString "/y") blockGlob)).blocks,
        block.names = .both "__toplevel" "__toplevel" ∧
        IsSound session'.files (ofString "/x") (jumpBlocks "L0" [pushLine none "1"])
          (block.spans.map SpanPair.left) "__toplevel" ∧
        IsSound session'.files (ofString "/y") (jumpBlocks "L0" [pushLine none "2"])
          (block.spans.map SpanPair.right) "__toplevel" := by
  obtain ⟨hempty, hempty'⟩ := hasEmptyDirectory_jumpSession "L1:Push 1\n" "L1:Push 2\n"
  obtain ⟨between, session', hrun, hrun', -, block, hblock, hnames⟩ :=
    exists_jump_report "L1:Push 1\n" "L1:Push 2\n" [pushLine none "1"] [pushLine none "2"]
      (by decide +kernel) (by decide +kernel) (by decide +kernel)
  have hbetween : between = (jumpRun "L1:Push 1\n" "L1:Push 2\n").2 := (congrArg Prod.snd hrun).symm
  obtain ⟨leftRaw, rightRaw, hleftRaw, hrightRaw, hsound, hintact⟩ :=
    reported_isSound_iff hempty hempty' (by decide) hrun hrun'
  obtain rfl : jumpBlocks "L1" [pushLine (some "L1") "1"] = leftRaw :=
    Option.some.inj (.trans (by decide +kernel) (congrArg Except.toOption hleftRaw))
  obtain rfl : jumpBlocks "L1" [pushLine (some "L1") "2"] = rightRaw :=
    Option.some.inj (.trans (by rw [hbetween]; decide +kernel) (congrArg Except.toOption hrightRaw))
  have hmore : ∀ number, ∃ before ∈ jumpBlocks "L1" [pushLine (some "L1") number],
      before.name = "__toplevel" ∧ ∃ line ∈ before.lines, ¬ line.isLabelAlone := fun number =>
    ⟨⟨"__toplevel", [pushLine (some "L1") number]⟩, by simp [jumpBlocks], rfl,
      pushLine (some "L1") number, by simp, by simp [Line.isLabelAlone, pushLine]⟩
  rw [List.forall_mem_cons, List.forall_mem_singleton] at hintact
  have hsides := (hsound block hblock).2
  rw [hnames] at hsides
  simp only [Sides.left?, Sides.right?, Option.mem_some_iff, forall_eq'] at hsides
  exact ⟨hempty, hempty', by decide, between, session', hrun, hrun', block, hblock, hnames,
    hsides ⟨(hintact.1 (by decide) _).2 (hmore "1"), (hintact.2 (by decide) _).2 (hmore "2")⟩⟩

/-- Of a gap that is only the target of the jump no line is left, its file has one, and neither the
block nor a span of it is taken to raw lines. -/
theorem reported_labels_not_isSound :
    (jumpSession "L1:\n" "L1:Push 1\n").files.HasEmptyDirectory (ofString "/x") ∧
    (jumpSession "L1:\n" "L1:Push 1\n").files.HasEmptyDirectory (ofString "/y") ∧
    ∃ between session',
      (normalizeFile (ofString "/a") (ofString "/x") true).run.run
        (jumpSession "L1:\n" "L1:Push 1\n") = (.ok (.ofBlocks (jumpBlocks "L0" [])), between) ∧
      (normalizeFile (ofString "/b") (ofString "/y") true).run.run between =
        (.ok (.ofBlocks (jumpBlocks "L0" [pushLine none "1"])), session') ∧
      ∃ block ∈ (TreeDiff.of (session'.files.tree (ofString "/x") blockGlob)
          (session'.files.tree (ofString "/y") blockGlob)).blocks,
        block.names = .both "__toplevel" "__toplevel" ∧
        Display.findBlock (jumpBlocks "L0" []) (some "__toplevel") =
          .ok (some ⟨"__toplevel", []⟩) ∧
        session'.files.readLines ((ofString "/x").child (blockFileName "__toplevel")) =
          .ok [""] ∧
        (∀ script, Display.blockMap [] script = .error .lineOutOfRange) ∧
        (∀ span, Display.rawSpan [] span = .error .emptyBlock) ∧
        ¬ IsSound session'.files (ofString "/x") (jumpBlocks "L0" [])
          (block.spans.map SpanPair.left) "__toplevel" := by
  obtain ⟨hempty, hempty'⟩ := hasEmptyDirectory_jumpSession "L1:\n" "L1:Push 1\n"
  obtain ⟨between, session', hrun, hrun', hfile, block, hblock, hnames⟩ :=
    exists_jump_report "L1:\n" "L1:Push 1\n" [] [pushLine none "1"]
      (by decide +kernel) (by decide +kernel) (by decide +kernel)
  have hlines : Bytes.lines (Text.encode (Block.render ⟨"__toplevel", []⟩ ++ "\n")) = [""] := by
    decide +kernel
  have hfound : Display.findBlock (jumpBlocks "L0" []) (some "__toplevel") =
      .ok (some ⟨"__toplevel", []⟩) := rfl
  rw [hlines] at hfile
  refine ⟨hempty, hempty', between, session', hrun, hrun', block, hblock, hnames, hfound, hfile,
    fun _ => rfl, fun _ => rfl, ?_⟩
  rintro ⟨empty, texts, hempty, -, hcovers⟩
  cases Option.some.inj (Except.ok.inj (hfound.symm.trans hempty))
  exact hcovers.nonempty rfl

end Command

end MovieDiff
