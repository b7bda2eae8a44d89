import MovieDiff.Proofs.Scripts.Pairing

/-!
Whether normalised scripts can be compared. Main statement: comparing stops only at a left script
without blocks for which a right script of the same directory is still without a partner, and a
script has no blocks only if nothing but blank lines was normalised for it.
-/
namespace MovieDiff

open List
open Pcode (Block NormalScript scriptFiles blockFileName)
open Text (isBlankText)
open MovieDiff.Path (ofString sort)

variable {bytes : Bytes} {session session' : Session} {outputs : List (Path × Bytes)}

/-! ### Scripts without blocks -/

namespace Pcode

theorem readLinesFrom_eq_nil {index : Int} {texts : List String}
    (h : readLinesFrom index texts = .ok []) : ∀ text ∈ texts, isBlankText text.toList := by
  induction texts generalizing index with
  | nil => simp
  | cons text texts ih =>
    obtain ⟨first, hfirst, hrest⟩ := exists_of_bind_eq_ok h
    obtain ⟨others, hothers, heq⟩ := exists_of_bind_eq_ok hrest
    obtain ⟨hnone, rfl⟩ := append_eq_nil_iff.1 (Except.ok.inj heq)
    refine forall_mem_cons.2 ⟨?_, ih hothers⟩
    -- Only a blank line is read as nothing.
    rcases readLine_cases hfirst with ⟨hblank, -⟩ | ⟨-, line, rfl, -⟩
    · exact hblank
    · cases hnone

theorem eq_nil_of_splitBlocks {lines : List Line} (h : splitBlocks lines = .ok []) :
    lines = [] := by
  obtain ⟨blocks, hblocks, heq⟩ := exists_of_bind_eq_ok h
  have hpartition := isPartition_splitFrom (by simp [IsGap]) hblocks
  have hlines : blocks.map Block.lines = [] := by
    rw [← map_lines_numberBlocks [] blocks, Except.ok.inj heq, map_nil]
  simpa [hlines] using hpartition.flatten.symm

end Pcode

/-- Only blank lines give no blocks. -/
theorem isBlankText_of_normalizeBytes (h : normalizeBytes bytes = .ok []) :
    ∀ line ∈ bytes.lines, isBlankText line.toList := by
  obtain ⟨lines, hlines, hscript⟩ := exists_of_bind_eq_ok h
  obtain ⟨blocks, hblocks, hmap⟩ := exists_of_bind_eq_ok hscript
  cases blocks with
  | nil =>
    rw [Pcode.eq_nil_of_splitBlocks hblocks, Pcode.readText, String.toList_ofList] at hlines
    exact Pcode.readLinesFrom_eq_nil hlines
  | cons block blocks =>
    rw [mapM_cons] at hmap
    obtain ⟨first, -, hmap⟩ := exists_of_bind_eq_ok hmap
    obtain ⟨others, -, heq⟩ := exists_of_bind_eq_ok hmap
    cases heq

/-! ### Normalising one file after the other -/

namespace Command

theorem grows_writes {output : Path} {files : List (String × String)}
    (h : (files.forM fun (name, text) => changing fun fs =>
      fs.write (output.child name) (Text.encode text) : Command Unit).run.run session =
        (.ok (), session')) :
    session.files.Grows session'.files ∧
      ∀ file ∈ files, session'.files.isFile (output.child file.1) := by
  induction files generalizing session with
  | nil =>
    cases h
    exact ⟨.refl _, by simp⟩
  | cons file files ih =>
    obtain ⟨_, between, hwrite, hwrites⟩ := exists_of_run_bind h
    obtain ⟨changed, hchanged, rfl⟩ := run_changing hwrite
    obtain ⟨hgrows, hfiles⟩ := ih hwrites
    constructor
    · exact (FileSystem.grows_write hchanged).trans hgrows
    · exact forall_mem_cons.2 ⟨hgrows.isFile (FileSystem.isFile_write hchanged), hfiles⟩

/-- What a normalisation that succeeds has done to the files. -/
theorem grows_normalizeFile {input output : Path} {withSourceMaps : Bool} {result : NormalScript}
    (h : (normalizeFile input output withSourceMaps).run.run session = (.ok result, session')) :
    ∃ bytes blocks, session.files.read input = .ok bytes ∧ normalizeBytes bytes = .ok blocks ∧
      session.files.Grows session'.files ∧
      ∀ file ∈ scriptFiles withSourceMaps blocks, session'.files.isFile (output.child file.1) := by
  obtain ⟨blocks, between, hread, hafter⟩ := exists_of_run_bind h
  obtain ⟨hblocks, rfl⟩ := run_reading_eq_ok.1 hread
  obtain ⟨_, between, hmake, hwrite⟩ := exists_of_run_bind hafter
  obtain ⟨made, hmade, rfl⟩ := run_changing hmake
  obtain ⟨_, between, hwrites, hreturn⟩ := exists_of_run_bind hwrite
  cases hreturn
  obtain ⟨hgrows, hfiles⟩ := grows_writes hwrites
  obtain ⟨bytes, hbytes, hblocks⟩ := exists_of_bind_eq_ok hblocks
  exact ⟨bytes, blocks, hbytes, hblocks, (FileSystem.grows_makeDirectories hmade).trans hgrows,
    hfiles⟩

/-- A session in which files are normalised one after the other; the list has, for each, the
directory it is normalised into and the bytes it holds at that time. -/
inductive Normalizes : Session → List (Path × Bytes) → Session → Prop where
  | done (session : Session) : Normalizes session [] session
  | next {session between session' : Session} {input output : Path} {bytes : Bytes}
      {withSourceMaps : Bool} {result : NormalScript} {outputs : List (Path × Bytes)} :
      session.files.read input = .ok bytes →
      (normalizeFile input output withSourceMaps).run.run session = (.ok result, between) →
      Normalizes between outputs session' → Normalizes session ((output, bytes) :: outputs) session'

/-- Normalising removes nothing. -/
theorem Normalizes.grows (h : Normalizes session outputs session') :
    session.files.Grows session'.files := by
  induction h with
  | done session => exact .refl _
  | next _ hrun _ ih =>
    obtain ⟨-, -, -, -, hgrows, -⟩ := grows_normalizeFile hrun
    exact hgrows.trans ih

/-- A directory into which more than blank lines were normalised holds the file of a block. -/
theorem Normalizes.tree_ne_nil (h : Normalizes session outputs session') {output : Path}
    (hmem : (output, bytes) ∈ outputs) {line : String} (hline : line ∈ bytes.lines)
    (hblank : isBlankText line.toList = false) :
    session'.files.tree output Workspace.blockGlob ≠ [] := by
  induction h with
  | done session => cases hmem
  | @next session between session' input _ _ maps _ _ hread hrun hothers ih =>
    rcases mem_cons.1 hmem with heq | hmem
    · cases heq
      obtain ⟨found, blocks, hfound, hblocks, -, hfiles⟩ := grows_normalizeFile hrun
      cases hread.symm.trans hfound
      cases blocks with
      | nil =>
        rw [isBlankText_of_normalizeBytes hblocks line hline] at hblank
        cases hblank
      | cons block blocks =>
        have hwritten : (blockFileName block.name, block.render ++ "\n") ∈
            scriptFiles maps (block :: blocks) := by
          simp [scriptFiles, Pcode.blockFiles]
        have hfile := hothers.grows.isFile (hfiles _ hwritten)
        have hglob := Pcode.isBlockFile_blockFileName block.name
        obtain ⟨hdirectory, hchild⟩ := FileSystem.isDirectory_of_isFile_child
          (Pcode.ne_dots_of_mem_scriptFiles maps _ hwritten) hfile
        have hlisted : Path.empty.child (blockFileName block.name) ∈
            session'.files.listFiles output Workspace.blockGlob :=
          FileSystem.mem_listFiles.2 ⟨hdirectory, _, hchild, hglob, hfile, rfl⟩
        rw [← FileSystem.paths_tree] at hlisted
        intro hnil
        simp [hnil, FileTree.paths] at hlisted
    · exact ih hmem

end Command

/-! ### Pairing that comes to its end -/

/-- A run of steps comes to its end when none of the steps it reaches fails. -/
theorem exists_foldlM_eq_ok_iff {σ α ε : Type} {step : σ → α → Except ε σ} {xs : List α} {s : σ} :
    (∃ s', xs.foldlM step s = .ok s') ↔
      ∀ before x after t, xs = before ++ x :: after → before.foldlM step s = .ok t →
        ∃ t', step t x = .ok t' := by
  induction xs generalizing s with
  | nil =>
    constructor
    · intro _ before x after t hxs
      simp at hxs
    · exact fun _ => ⟨s, rfl⟩
  | cons first xs ih =>
    constructor
    · rintro ⟨s', hrun⟩ before x after t hxs hbefore
      rw [foldlM_cons] at hrun
      obtain ⟨between, hfirst, hrest⟩ := exists_of_bind_eq_ok hrun
      cases before with
      | nil =>
        obtain ⟨rfl, rfl⟩ := List.cons.inj hxs
        cases hbefore
        exact ⟨between, hfirst⟩
      | cons other before =>
        obtain ⟨rfl, rfl⟩ := List.cons.inj hxs
        rw [foldlM_cons, hfirst] at hbefore
        exact ih.1 ⟨s', hrest⟩ before x after t rfl hbefore
    · intro h
      obtain ⟨between, hfirst⟩ := h [] first xs s rfl rfl
      obtain ⟨s', hrest⟩ := ih.2 fun before x after t hxs hbefore =>
        h (first :: before) x after t (by rw [hxs, cons_append])
          (by rw [foldlM_cons, hfirst]; exact hbefore)
      exact ⟨s', by rw [foldlM_cons, hfirst]; exact hrest⟩

namespace Scripts

variable {order : TreeDiff.SearchOrder} {leftBlocks rightBlocks : Path → FileTree}
  {s t s' : Search} {path : Path} {left right : List Path}

/-- The left scripts without a partner do not matter to a step. -/
theorem matchScript_congr (hright : s.right = t.right) (hset : s.set = t.set)
    (h : matchScript order leftBlocks rightBlocks s path = .ok s') :
    ∃ t', matchScript order leftBlocks rightBlocks t path = .ok t' ∧
      s'.right = t'.right ∧ s'.set = t'.set := by
  rcases matchScript_cases h with ⟨hnone, rfl⟩ | ⟨other, -, -, -, hchoice, rfl⟩
  · refine ⟨t, ?_, hright, hset⟩
    rw [matchScript_eq, ← hright, hnone]
    rfl
  · refine ⟨t.join path ⟨other, TreeDiff.inOrder order (leftBlocks path) (rightBlocks other)⟩,
      ?_, ?_, ?_⟩
    · rw [matchScript_eq, ← hright, hchoice]
      rfl
    · rw [Search.join, Search.join, hright]
    · rw [Search.join, Search.join, hset]

theorem foldlM_matchScript_congr {paths : List Path} (hright : s.right = t.right)
    (hset : s.set = t.set)
    (h : paths.foldlM (matchScript order leftBlocks rightBlocks) s = .ok s') :
    ∃ t', paths.foldlM (matchScript order leftBlocks rightBlocks) t = .ok t' ∧
      s'.right = t'.right ∧ s'.set = t'.set := by
  induction paths generalizing s t with
  | nil =>
    cases h
    exact ⟨t, rfl, hright, hset⟩
  | cons path paths ih =>
    rw [foldlM_cons] at h
    obtain ⟨between, hfirst, hrest⟩ := exists_of_bind_eq_ok h
    obtain ⟨between', hfirst', hright', hset'⟩ := matchScript_congr hright hset hfirst
    rw [foldlM_cons, hfirst']
    exact ih hright' hset' hrest

theorem exists_matchScript_eq_ok_iff :
    (∃ s', matchScript order leftBlocks rightBlocks s path = .ok s') ↔
      (leftBlocks path = [] → ∀ q ∈ s.right, q.parent ≠ path.parent) := by
  cases hstep : matchScript order leftBlocks rightBlocks s path with
  | error fault =>
    obtain ⟨-, hempty, q, hq, hparent⟩ := matchScript_eq_error_iff.1 hstep
    constructor
    · rintro ⟨s', heq⟩
      cases heq
    · exact fun h => absurd hparent (h hempty q hq)
  | ok s' =>
    refine ⟨fun _ hempty q hq hparent => ?_, fun _ => ⟨s', rfl⟩⟩
    have herror : matchScript order leftBlocks rightBlocks s path = .error .noScriptBlocks :=
      matchScript_eq_error_iff.2 ⟨rfl, hempty, q, hq, hparent⟩
    rw [hstep] at herror
    cases herror

/-- The right scripts that are still without a partner when a left script is looked at: those that
pairing the left scripts before it leaves. -/
theorem exists_foldlM_iff_exists_pair {before after : List Path} {q : Path}
    (hsort : sort left = before ++ after) :
    (∃ t, before.foldlM (matchScript order leftBlocks rightBlocks) ⟨left, right, {}⟩ = .ok t ∧
      q ∈ t.right) ↔
    ∃ set, pair order leftBlocks rightBlocks before right = .ok set ∧ .right q ∈ set.onlyRight := by
  have hbefore : sort before = before :=
    Path.sort_eq_self ((hsort ▸ Path.pairwise_sort left).sublist (sublist_append_left _ _))
  simp only [pair_eq_ok_iff, hbefore]
  constructor
  · rintro ⟨t, hrun, hq⟩
    obtain ⟨found, hfound, hright, -⟩ :=
      foldlM_matchScript_congr (t := ⟨before, right, {}⟩) (by rfl) (by rfl) hrun
    exact ⟨_, ⟨found, hfound, rfl⟩, by simpa [hright] using hq⟩
  · rintro ⟨set, ⟨found, hfound, rfl⟩, hq⟩
    obtain ⟨t, hrun, hright, -⟩ :=
      foldlM_matchScript_congr (t := ⟨left, right, {}⟩) (by rfl) (by rfl) hfound
    exact ⟨t, hrun, by simpa [hright] using hq⟩

/-- Pairing comes to its end when no script without blocks is met that still has a script to be
compared with. -/
theorem exists_pair_eq_ok_iff : (∃ set, pair order leftBlocks rightBlocks left right = .ok set) ↔
    ∀ before path after set, sort left = before ++ path :: after → leftBlocks path = [] →
      pair order leftBlocks rightBlocks before right = .ok set →
      ∀ q, .right q ∈ set.onlyRight → q.parent ≠ path.parent := by
  have hrun : (∃ set, pair order leftBlocks rightBlocks left right = .ok set) ↔
      ∃ found, (sort left).foldlM (matchScript order leftBlocks rightBlocks) ⟨left, right, {}⟩ =
        .ok found := by
    simp only [pair_eq_ok_iff]
    constructor
    · rintro ⟨set, found, hfound, -⟩
      exact ⟨found, hfound⟩
    · rintro ⟨found, hfound⟩
      exact ⟨_, found, hfound, rfl⟩
  rw [hrun, exists_foldlM_eq_ok_iff]
  simp only [exists_matchScript_eq_ok_iff]
  constructor
  · intro h before path after set hsort hempty hpair q hq
    obtain ⟨t, ht, hmem⟩ := (exists_foldlM_iff_exists_pair hsort).2 ⟨set, hpair, hq⟩
    exact h before path after t hsort ht hempty q hmem
  · intro h before path after t hsort ht hempty q hq
    obtain ⟨set, hpair, hmem⟩ := (exists_foldlM_iff_exists_pair hsort).1 ⟨t, ht, hq⟩
    exact h before path after set hsort hempty hpair q hmem

/-- The only fault of pairing. -/
theorem eq_noScriptBlocks_of_pair {fault : Fault}
    (h : pair order leftBlocks rightBlocks left right = .error fault) :
    fault = .noScriptBlocks := by
  have hfold : ∀ (paths : List Path) (s : Search),
      paths.foldlM (matchScript order leftBlocks rightBlocks) s = .error fault →
        fault = .noScriptBlocks := by
    intro paths
    induction paths with
    | nil =>
      intro s hrun
      cases hrun
    | cons path paths ih =>
      intro s hrun
      rw [foldlM_cons] at hrun
      cases hstep : matchScript order leftBlocks rightBlocks s path with
      | error other =>
        rw [hstep] at hrun
        cases hrun
        exact (matchScript_eq_error_iff.1 hstep).1
      | ok between =>
        rw [hstep] at hrun
        exact ih between hrun
  cases hrun : (sort left).foldlM (matchScript order leftBlocks rightBlocks) ⟨left, right, {}⟩ with
  | error other =>
    rw [pair, hrun] at h
    cases h
    exact hfold _ _ hrun
  | ok found =>
    rw [pair, hrun] at h
    cases h

/-- Normalised scripts are compared to the end exactly when no script without blocks is met that
still has a script to be compared with. Nothing else can go wrong, and only blank lines leave a
script without blocks. -/
theorem exists_pair_normalized_iff {session session' : Session} {outputs : List (Path × Bytes)}
    (hrun : Command.Normalizes session outputs session') (order : TreeDiff.SearchOrder)
    (leftDir rightDir : Path) (left right : List Path) :
    ((∃ set, pair order (blockTree session'.files leftDir) (blockTree session'.files rightDir)
        left right = .ok set) ↔
      ∀ before path after set, sort left = before ++ path :: after →
        blockTree session'.files leftDir path = [] →
        pair order (blockTree session'.files leftDir) (blockTree session'.files rightDir)
          before right = .ok set →
        ∀ q, .right q ∈ set.onlyRight → q.parent ≠ path.parent) ∧
    (∀ fault, pair order (blockTree session'.files leftDir) (blockTree session'.files rightDir)
      left right = .error fault → fault = .noScriptBlocks) ∧
    (∀ path bytes, (leftDir ++ path, bytes) ∈ outputs →
      blockTree session'.files leftDir path = [] → ∀ line ∈ bytes.lines, isBlankText line.toList) ∧
    ((∀ path ∈ left, ∃ bytes, (leftDir ++ path, bytes) ∈ outputs ∧
        ∃ line ∈ bytes.lines, isBlankText line.toList = false) →
      ∃ set, pair order (blockTree session'.files leftDir) (blockTree session'.files rightDir)
        left right = .ok set) := by
  refine ⟨exists_pair_eq_ok_iff, fun _ => eq_noScriptBlocks_of_pair, ?_, ?_⟩
  · intro path bytes hmem hempty line hline
    by_contra hblank
    exact hrun.tree_ne_nil hmem hline (by simpa using hblank) hempty
  · intro hfull
    apply exists_pair_eq_ok_iff.2
    intro before path after set hsort hempty
    have hpath : path ∈ left := List.mem_mergeSort.1 (show path ∈ sort left by simp [hsort])
    obtain ⟨bytes, hmem, line, hline, hblank⟩ := hfull path hpath
    exact absurd hempty (hrun.tree_ne_nil hmem hline hblank)

theorem exists_pair_mixedText :
    ∃ session', Command.Normalizes Workspace.mixedSession
        [(Workspace.mixedDirectory, Text.encode Workspace.mixedText)] session' ∧
      ∃ set, pair .listed (blockTree session'.files (ofString "/w/normalized_scripts"))
        (blockTree session'.files (ofString "/w/normalized_scripts"))
        [ofString "s"] [ofString "s"] = .ok set := by
  obtain ⟨session', hrun⟩ := Workspace.exists_run_mixedSession
  have hnormalizes : Command.Normalizes Workspace.mixedSession
      [(Workspace.mixedDirectory, Text.encode Workspace.mixedText)] session' :=
    .next Workspace.read_mixedSession hrun (.done session')
  refine ⟨session', hnormalizes, (exists_pair_normalized_iff hnormalizes _ _ _ _ _).2.2.2 ?_⟩
  intro path hpath
  cases List.mem_singleton.1 hpath
  refine ⟨Text.encode Workspace.mixedText, List.mem_singleton.2 rfl, ?_⟩
  decide +kernel

def emptySession : Session where
  files := ⟨[(["in"], .file [])]⟩

def normalizingEmpty (output : String) (session : Session) : Session :=
  ((Command.normalizeFile (ofString "/in") (ofString output) true).run.run session).2

theorem normalizes_empty {output : String}
    (hread : (session.files.read (ofString "/in")).toOption = some [])
    (hrun : ((Command.normalizeFile (ofString "/in") (ofString output) true).run.run
      session).1.toOption = some (.ofBlocks []))
    (h : Command.Normalizes (normalizingEmpty output session) outputs session') :
    Command.Normalizes session ((ofString output, []) :: outputs) session' :=
  .next (eq_ok_of_toOption hread) (Prod.ext (eq_ok_of_toOption hrun) rfl) h

/-- Scripts that were normalised from empty files cannot be compared. -/
theorem pair_empty_scripts :
    ∃ session', Command.Normalizes emptySession
        [(ofString "/a/s/A", []), (ofString "/b/s/A", [])] session' ∧
      pair .listed (blockTree session'.files (ofString "/a"))
        (blockTree session'.files (ofString "/b"))
        [ofString "s/A"] [ofString "s/A"] = .error .noScriptBlocks := by
  refine ⟨normalizingEmpty "/b/s/A" (normalizingEmpty "/a/s/A" emptySession), ?_, ?_⟩
  · apply normalizes_empty (by decide +kernel) (by decide +kernel)
    exact normalizes_empty (by decide +kernel) (by decide +kernel) (.done _)
  · have hstuck : ((pair .listed
        (blockTree (normalizingEmpty "/b/s/A" (normalizingEmpty "/a/s/A" emptySession)).files
          (ofString "/a"))
        (blockTree (normalizingEmpty "/b/s/A" (normalizingEmpty "/a/s/A" emptySession)).files
          (ofString "/b"))
        [ofString "s/A"] [ofString "s/A"]).toOption).isNone := by decide +kernel
    generalize hpair : pair _ _ _ _ _ = outcome at hstuck ⊢
    cases outcome with
    | error fault => rw [eq_noScriptBlocks_of_pair hpair]
    | ok set => cases hstuck

end Scripts

end MovieDiff
