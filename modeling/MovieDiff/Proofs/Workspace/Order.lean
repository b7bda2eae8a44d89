import MovieDiff.Proofs.Files.Output
import MovieDiff.Proofs.Workspace.Lookup

/-!
Normalising several scripts, one after the other. Main statement: what the scripts leave in their
directories does not depend on the order as long as no script clears away the output of one that
came before it, which is never the case when no directory lies inside another.
-/
namespace MovieDiff

open List
open Pcode (NormalScript)

variable {session session' : Session} {fs fs' : FileSystem} {w : Workspace}
  {p movie script dir raw : Path} {scripts : List Path} {results : List (Path × NormalScript)}
  {out : Output} {outs : List Output}

namespace Workspace

/-- What a script is to leave in its directory: the files of its blocks, whatever other scripts
there are. -/
def outputOf (w : Workspace) (fs : FileSystem) (script : Path) : Except Fault Output := do
  let raw ← w.rawPcodeFile fs script.text
  let dir ← w.normalizationPath script
  let blocks ← normalizeBytes (← fs.read raw)
  return ⟨dir.names, Pcode.scriptFiles true blocks⟩

/-! ### Places of the files -/

/-- A normalised script lies below the directory of normalised scripts. -/
theorem normalizationPath_eq_ok (h : w.normalizationPath script = .ok dir) :
    dir.root = .slash ∧ ".." ∉ dir.names ∧ w.normalizationDir.names <+: dir.names := by
  obtain ⟨hdir, hwithin, -⟩ := insideOf_eq_ok h
  refine ⟨by rw [hdir]; rfl, dots_not_mem_normalizationPath h, ?_⟩
  rw [Path.isWithin, Bool.and_eq_true, isPrefixOf_iff_prefix] at hwithin
  exact hwithin.2

/-- The extracted file of a script lies beside the directory of normalised scripts. -/
theorem withSuffix_extractionPath {place : Path} (h : w.extractionPath p = .ok place) :
    ".." ∉ (place.withSuffix ".pcode").names ∧
      ∃ name rest, (place.withSuffix ".pcode").names = w.base.names ++ name :: rest ∧
        name ≠ "normalized_scripts" := by
  obtain ⟨hplace, hwithin, -⟩ := insideOf_eq_ok h
  have hdots : ".." ∉ place.names := by
    rw [hplace]
    exact Path.dots_not_mem_cancelDots _
  have hlast : place.stem ++ ".pcode" ≠ ".." := Path.append_ne_dots rfl (by decide) place.stem
  rw [Path.isWithin, Bool.and_eq_true, isPrefixOf_iff_prefix] at hwithin
  obtain ⟨rest, hrest⟩ := hwithin.2
  have hnames : place.names = w.base.names ++ "raw" :: rest := by
    rw [← hrest]
    simp [extractionDir, Path.child]
  change ".." ∉ place.names.dropLast ++ [place.stem ++ ".pcode"] ∧
    ∃ name rest, place.names.dropLast ++ [place.stem ++ ".pcode"] = _ ++ name :: rest ∧ _
  constructor
  · rw [mem_append, mem_singleton, not_or]
    exact ⟨fun hmem => hdots (dropLast_subset _ hmem), Ne.symm hlast⟩
  · rcases eq_nil_or_concat rest with rfl | ⟨front, last, rfl⟩
    · have hstem : place.stem = "raw" := by
        rw [Path.stem, Path.name, hnames, getLastD_concat]
        decide
      exact ⟨"raw.pcode", [], by rw [hnames, hstem]; simp, by decide⟩
    · refine ⟨"raw", front ++ [place.stem ++ ".pcode"], ?_, by decide⟩
      rw [hnames]
      simp [dropLast_append_of_ne_nil, dropLast_cons_of_ne_nil]

/-- The way to the extracted file of a script does not lead through the normalised scripts. -/
theorem not_below_normalizationDir {place : Path} {front : List String}
    (h : w.extractionPath p = .ok place) (hfront : front <+: (place.withSuffix ".pcode").names) :
    ¬ w.normalizationDir.names <+: front := by
  intro hbelow
  obtain ⟨-, name, rest, hnames, hname⟩ := withSuffix_extractionPath h
  have hway := hbelow.trans hfront
  rw [hnames] at hway
  change w.base.names ++ ["normalized_scripts"] <+: _ at hway
  rw [prefix_append_right_inj, cons_prefix_cons] at hway
  exact hname hway.1.symm

/-- What a script is to leave does not depend on what was normalised before. -/
theorem outputOf_congr (h : ∀ place, ¬ w.normalizationDir.names <+: place →
    fs.entryAt? place = fs'.entryAt? place) (script : Path) :
    w.outputOf fs script = w.outputOf fs' script := by
  unfold outputOf rawPcodeFile scriptFile
  cases hplace : w.extractionPath (Path.ofString "scripts" ++ Path.ofString script.text) with
  | error fault => rfl
  | ok place =>
    have hdots := (withSuffix_extractionPath hplace).1
    have hagree : ∀ front, front <+: (place.withSuffix ".pcode").names →
        fs.entryAt? front = fs'.entryAt? front := fun front hfront =>
      h front (not_below_normalizationDir hplace hfront)
    have hexisting : ∀ fault, existing fs (place.withSuffix ".pcode") fault =
        existing fs' (place.withSuffix ".pcode") fault := by
      intro fault
      unfold existing FileSystem.ask
      rw [FileSystem.locate_congr hdots hagree, FileSystem.contains_congr hdots hagree]
    simp only [bind, Except.bind, hexisting]
    split
    · rfl
    next raw hraw =>
      obtain ⟨rfl, -⟩ := existing_eq_ok_iff.1 hraw
      rw [FileSystem.read_congr hdots hagree]

/-- Where the extracted file of a script lies: in the workspace, but not among the normalised
scripts. -/
theorem rawPcodeFile_eq_ok {text : String} (h : w.rawPcodeFile fs text = .ok raw) :
    ".." ∉ raw.names ∧ fs.contains raw ∧
      (∀ front, front <+: raw.names → ¬ w.normalizationDir.names <+: front) ∧
      ∀ front, front <+: w.base.names → front <+: raw.names ∧ front ≠ raw.names := by
  obtain ⟨place, hplace, hexisting⟩ := exists_of_bind_eq_ok h
  obtain ⟨rfl, hcontains⟩ := existing_eq_ok_iff.1 hexisting
  obtain ⟨hdots, name, rest, hnames, -⟩ := withSuffix_extractionPath hplace
  refine ⟨hdots, hcontains, fun front => not_below_normalizationDir hplace, fun front hfront => ?_⟩
  rw [hnames]
  refine ⟨hfront.trans (prefix_append _ _), fun heq => ?_⟩
  have hlength := hfront.length_le
  rw [heq, length_append, length_cons] at hlength
  omega

theorem outputOf_eq_ok (h : w.outputOf fs script = .ok out) :
    ∃ raw dir bytes blocks, w.rawPcodeFile fs script.text = .ok raw ∧
      w.normalizationPath script = .ok dir ∧ fs.read raw = .ok bytes ∧
      normalizeBytes bytes = .ok blocks ∧ out = ⟨dir.names, Pcode.scriptFiles true blocks⟩ := by
  obtain ⟨raw, hraw, h⟩ := exists_of_bind_eq_ok h
  obtain ⟨dir, hdir, h⟩ := exists_of_bind_eq_ok h
  obtain ⟨bytes, hbytes, h⟩ := exists_of_bind_eq_ok h
  obtain ⟨blocks, hblocks, h⟩ := exists_of_bind_eq_ok h
  exact ⟨raw, dir, bytes, blocks, hraw, hdir, hbytes, hblocks, (Except.ok.inj h).symm⟩

/-- Every script leaves a file, that of the order of its blocks. -/
theorem exists_fileAt?_of_outputOf (h : w.outputOf fs script = .ok out) :
    ∃ place content, out.fileAt? place = some content := by
  obtain ⟨-, dir, -, blocks, -, -, -, -, rfl⟩ := outputOf_eq_ok h
  have hmem : (Pcode.orderFileName, Pcode.orderText blocks) ∈ Pcode.scriptFiles true blocks := by
    simp [Pcode.scriptFiles]
  exact ⟨_, Output.exists_fileAt? hmem⟩

end Workspace

/-! ### Normalising one script -/

namespace Command

open Workspace (outputOf)

/-- A script that was normalised afresh was normalised into an empty directory. -/
theorem run_normalizeAfresh {result : NormalScript}
    (h : (normalizeAfresh raw dir).run.run session = (.ok result, session')) :
    ∃ files, session.files.makeEmptyDirectory dir = .ok files ∧
      (normalizeFile raw dir true).run.run { session with files } = (.ok result, session') := by
  obtain ⟨_, between, hempty, hbody⟩ := exists_of_run_bind h
  obtain ⟨files, hfiles, rfl⟩ := run_changing hempty
  refine ⟨files, hfiles, ?_⟩
  obtain ⟨⟨outcome, after⟩, hrun⟩ : ∃ ending,
      StateT.run (normalizeFile raw dir true) { session with files } = ending := ⟨_, rfl⟩
  simp only [tryCatch, tryCatchThe, MonadExceptOf.tryCatch, ExceptT.tryCatch, ExceptT.run_mk,
    StateT.run_bind, hrun] at hbody
  cases outcome with
  | ok value =>
    cases hbody
    exact hrun
  | error stop =>
    -- The report of a failure ends the run.
    cases stop with
    | exit code => cases hbody
    | fault f => cases hbody

/-- Making the directory of a script empty changes nothing outside the normalised scripts. -/
theorem entryAt?_of_not_below {place : List String} (htree : fs.IsTree)
    (hraw : w.rawPcodeFile fs script.text = .ok raw)
    (hdir : w.normalizationDir.names <+: dir.names)
    (hempty : ∀ place, fs'.entryAt? place = if place <+: dir.names then some .directory
      else if dir.names <+: place then none else fs.entryAt? place)
    (hplace : ¬ w.normalizationDir.names <+: place) : fs'.entryAt? place = fs.entryAt? place := by
  rw [hempty]
  split
  next habove =>
    -- The workspace is a directory already, as the script was extracted there.
    obtain ⟨hdots, hcontains, -, hbase⟩ := Workspace.rawPcodeFile_eq_ok hraw
    have hway : place <+: w.base.names ++ ["normalized_scripts"] :=
      (List.prefix_or_prefix_of_prefix habove hdir).resolve_right hplace
    have hfront : place <+: w.base.names := (prefix_concat_iff.1 hway).resolve_left fun heq =>
      hplace (heq ▸ prefix_refl _)
    exact (htree raw.names (FileSystem.entryAt?_of_contains hdots hcontains) place
      (hbase place hfront).1 (hbase place hfront).2).symm
  · rw [if_neg fun hbelow => hplace (hdir.trans hbelow)]

/-- What normalising a script does to the files: its output is laid on what was there. -/
theorem run_normalizeScript {result : Path × NormalScript} (htree : session.files.IsTree)
    (h : (normalizeScript w false script).run.run session = (.ok result, session')) :
    ∃ out, w.outputOf session.files script = .ok out ∧
      session'.files.entryAt? = Output.laidOn session.files.entryAt? out ∧
      ∀ place, ¬ w.normalizationDir.names <+: place →
        session'.files.entryAt? place = session.files.entryAt? place := by
  obtain ⟨raw, _, hread, hafter⟩ := exists_of_run_bind h
  obtain ⟨hraw, hsame⟩ := run_reading_eq_ok.1 hread
  rw [hsame] at hafter
  obtain ⟨dir, _, hpath, hrest⟩ := exists_of_run_bind hafter
  obtain ⟨hdir, hsame⟩ := (run_reading_eq_ok (f := fun _ => w.normalizationPath script)).1 hpath
  rw [hsame] at hrest
  change (normalizeAfresh raw dir >>= fun normal => pure (script, normal)).run.run _ = _ at hrest
  obtain ⟨normal, _, hafresh, hreturn⟩ := exists_of_run_bind hrest
  cases hreturn
  obtain ⟨emptied, hemptied, hrun⟩ := run_normalizeAfresh hafresh
  obtain ⟨-, hdots, hbelow⟩ := Workspace.normalizationPath_eq_ok hdir
  obtain ⟨hfit, hempty⟩ := FileSystem.makeEmptyDirectory_eq_ok htree hdots hemptied
  have hdirectory : emptied.HasDirectory dir.names :=
    ⟨fun front hfront => by rw [hempty, if_pos hfront], hfit, hdots⟩
  obtain ⟨bytes, blocks, hbytes, hblocks, -, -, rfl⟩ := run_normalizeFile hdirectory hrun
  obtain ⟨hrawDots, -, hrawWay, -⟩ := Workspace.rawPcodeFile_eq_ok hraw
  have houtside : ∀ place, ¬ w.normalizationDir.names <+: place →
      emptied.entryAt? place = session.files.entryAt? place := fun place =>
    entryAt?_of_not_below htree hraw hbelow hempty
  have hbytes : session.files.read raw = .ok bytes := by
    rw [← hbytes]
    exact (FileSystem.read_congr hrawDots fun front hfront =>
      houtside front (hrawWay front hfront)).symm
  have hlaid : (writing { session with files := emptied } dir
      (Pcode.scriptFiles true blocks)).files.entryAt? =
        Output.laidOn session.files.entryAt? ⟨dir.names, Pcode.scriptFiles true blocks⟩ := by
    funext place
    rw [writing, FileSystem.entryAt?_written_eq, hempty]
    rfl
  refine ⟨⟨dir.names, Pcode.scriptFiles true blocks⟩, ?_, hlaid, fun place hplace => ?_⟩
  · simp only [outputOf, hraw, hdir, hbytes, hblocks, bind, Except.bind, pure, Except.pure]
  · rw [hlaid, ← houtside place hplace]
    by_cases habove : place <+: dir.names
    · rw [Output.laidOn_of_above habove, hempty, if_pos habove]
    · have hnot : ¬ dir.names <+: place := fun hinside => hplace (hbelow.trans hinside)
      rw [Output.laidOn_of_apart habove hnot, houtside place hplace]

/-! ### Normalising all scripts -/

/-- What normalising several scripts does to the files: their outputs are laid one on the other. -/
theorem run_mapM_normalizeScript (htree : session.files.IsTree)
    (h : (scripts.mapM (normalizeScript w false)).run.run session = (.ok results, session')) :
    ∃ outs, scripts.mapM (w.outputOf session.files) = .ok outs ∧
      session'.files.entryAt? = outs.foldl Output.laidOn session.files.entryAt? := by
  induction scripts generalizing session results with
  | nil =>
    cases h
    exact ⟨[], rfl, rfl⟩
  | cons script scripts ih =>
    rw [mapM_cons] at h
    obtain ⟨first, between, hfirst, hafter⟩ := exists_of_run_bind h
    obtain ⟨others, after, hothers, hreturn⟩ := exists_of_run_bind hafter
    cases hreturn
    obtain ⟨out, hout, hlaid, houtside⟩ := run_normalizeScript htree hfirst
    obtain ⟨outs, houts, hrun⟩ := ih (Output.isTree_of_laidOn htree hlaid) hothers
    have hsame : ∀ script, w.outputOf between.files script = w.outputOf session.files script :=
      Workspace.outputOf_congr houtside
    rw [funext hsame] at houts
    refine ⟨out :: outs, ?_, ?_⟩
    · rw [mapM_cons, hout, houts]
      rfl
    · rw [hrun, hlaid]
      rfl

/-- A run lays the outputs one on the other. -/
theorem run_normalizeScripts (htree : session.files.IsTree)
    (h : (normalizeScripts movie w scripts false).run.run session = (.ok results, session')) :
    ∃ outs, scripts.mapM (w.outputOf session.files) = .ok outs ∧
      session'.files.entryAt? = outs.foldl Output.laidOn session.files.entryAt? := by
  obtain ⟨readCache, between, hcache, hafter⟩ := exists_of_run_bind h
  have hfresh : (useCache w false).run.run session = (.ok false, session) := rfl
  rw [hfresh] at hcache
  cases hcache
  obtain ⟨found, after, hrun, hshow⟩ := exists_of_run_bind hafter
  cases hshow
  obtain ⟨outs, houts, hfiles⟩ := run_mapM_normalizeScript htree hrun
  exact ⟨outs, houts, hfiles⟩

end Command

namespace Workspace

/-- Scripts with directories of their own have outputs with directories of their own. -/
theorem nodup_dirs (h : scripts.mapM (w.outputOf fs) = .ok outs)
    (hdirs : (scripts.map w.normalizationPath).Nodup) : (outs.map Output.dir).Nodup := by
  have hpaths : scripts.map w.normalizationPath =
      (outs.map Output.dir).map fun names => .ok ⟨.slash, names⟩ := by
    have hpairs := forall₂_of_mapM_eq_ok h
    clear h hdirs
    induction hpairs with
    | nil => rfl
    | cons hfirst _ ih =>
      obtain ⟨-, dir, -, -, -, hdir, -, -, rfl⟩ := outputOf_eq_ok hfirst
      obtain ⟨hroot, -, -⟩ := normalizationPath_eq_ok hdir
      rw [map_cons, map_cons, map_cons, ih, hdir, ← hroot]
  rw [hpaths] at hdirs
  exact hdirs.of_map _

end Workspace

namespace Command

/-- Scripts with directories of their own are normalised without the cache. All that they are to
leave stands at the end exactly when no script clears away what an earlier one has left. Another
order then leaves the same tree exactly when it, too, is such an order, and all orders are exactly
when no directory lies inside another. -/
theorem normalizeScripts_settled_iff (htree : session.files.IsTree)
    (hdirs : (scripts.map w.normalizationPath).Nodup)
    (h : (normalizeScripts movie w scripts false).run.run session = (.ok results, session')) :
    ∃ outs, scripts.mapM (w.outputOf session.files) = .ok outs ∧
      (Output.Settled session.files.entryAt? outs session'.files.entryAt? ↔
        outs.Pairwise fun earlier later => later.Spares earlier) ∧
      (Output.Settled session.files.entryAt? outs session'.files.entryAt? →
        ∀ (order : List Path) results' other (outs' : List Output), order.Perm scripts →
          (normalizeScripts movie w order false).run.run session = (.ok results', other) →
          order.mapM (w.outputOf session.files) = .ok outs' →
          ((∀ place, other.files.entryAt? place = session'.files.entryAt? place) ↔
            outs'.Pairwise fun earlier later => later.Spares earlier)) ∧
      (Output.AreApart outs ↔
        ∀ order : List Output, order.Perm outs →
          order.Pairwise fun earlier later => later.Spares earlier) := by
  have hiff : ∀ {scripts : List Path} {outs : List Output},
      (scripts.map w.normalizationPath).Nodup →
      scripts.mapM (w.outputOf session.files) = .ok outs →
      (Output.Settled session.files.entryAt? outs
          (outs.foldl Output.laidOn session.files.entryAt?) ↔
        outs.Pairwise fun earlier later => later.Spares earlier) := by
    intro scripts outs hdirs houts
    refine ⟨fun hsettled => ?_, Output.settled_of_pairwise⟩
    refine Output.pairwise_of_files (Workspace.nodup_dirs houts hdirs) (fun out hout => ?_)
      hsettled.files
    obtain ⟨script, -, hscript⟩ := (mem_of_mapM_eq_ok houts).1 hout
    exact Workspace.exists_fileAt?_of_outputOf hscript
  obtain ⟨outs, houts, hfinal⟩ := run_normalizeScripts htree h
  refine ⟨outs, houts, ?_, ?_, Output.areApart_iff (Workspace.nodup_dirs houts hdirs)⟩
  · rw [hfinal]
    exact hiff hdirs houts
  · intro hsettled order results' other outs' horder hother houts'
    obtain ⟨found, hfound, hlaid⟩ := run_normalizeScripts htree hother
    obtain rfl : found = outs' := Except.ok.inj (hfound.symm.trans houts')
    have hmem : ∀ out, out ∈ found ↔ out ∈ outs := fun out => by
      simp only [mem_of_mapM_eq_ok houts, mem_of_mapM_eq_ok houts', horder.mem_iff]
    rw [← hiff ((horder.map _).nodup_iff.2 hdirs) houts', ← hlaid]
    constructor
    · intro hsame
      rw [funext hsame]
      exact hsettled.of_mem_iff hmem
    · intro hother place
      rw [(hother.of_mem_iff fun out => (hmem out).symm).unique hsettled]

/-- Three scripts that were extracted. The second one lies in a directory named like the first one,
the third one in a place named like the file of a block. -/
def nestedSession : Session where
  files := ⟨[(["w"], .directory), (["w", "raw"], .directory), (["w", "raw", "scripts"], .directory),
    (["w", "raw", "scripts", "a"], .directory),
    (["w", "raw", "scripts", "a.pcode"], .file (Text.encode "Push 1\n")),
    (["w", "raw", "scripts", "a", "b.pcode"], .file (Text.encode "Push 2\n")),
    (["w", "raw", "scripts", "a", "__toplevel.pcode"], .file (Text.encode "Pop\n"))]⟩

def nestedWorkspace : Workspace :=
  .ofPath (Path.ofString "/w")

def nestedRun (scripts : List String) : Except Stop (List (Path × NormalScript)) × Session :=
  (normalizeScripts (Path.ofString "m.gfx") nestedWorkspace (scripts.map Path.ofString)
    false).run.run nestedSession

theorem normalizeScripts_settled_outer_first :
    ∃ results session' outs, nestedRun ["a", "a/b"] = (.ok results, session') ∧
      (["a", "a/b"].map Path.ofString).mapM
        (nestedWorkspace.outputOf nestedSession.files) = .ok outs ∧
      Output.Settled nestedSession.files.entryAt? outs session'.files.entryAt? := by
  have htree : nestedSession.files.IsTree := FileSystem.isTree_of_entries (by decide +kernel)
  have hrun : (nestedRun ["a", "a/b"]).1.toOption.isSome := by decide +kernel
  obtain ⟨results, hresults⟩ := Option.isSome_iff_exists.1 hrun
  obtain ⟨session', hsession⟩ := exists_run_eq_ok hresults
  obtain ⟨outs, houts, hsettled, -⟩ :=
    normalizeScripts_settled_iff htree (by decide +kernel) hsession
  refine ⟨results, session', outs, hsession, houts, hsettled.2 ?_⟩
  have hspares : (((["a", "a/b"].map Path.ofString).mapM
      (nestedWorkspace.outputOf nestedSession.files)).toOption.map fun outs =>
        decide (outs.Pairwise fun earlier later => later.Spares earlier)) = some true := by
    decide +kernel
  rw [houts] at hspares
  exact of_decide_eq_true (Option.some.inj hspares)

/-- The order matters when one script lies inside another one, and a script in a place named like
the file of a block is lost or takes that file in either order. -/
theorem normalizeScripts_clears :
    ((nestedRun ["a/b", "a"]).1.toOption.isSome ∧
      (nestedRun ["a/b", "a"]).2.files.entryAt? ["w", "normalized_scripts", "a", "b"] = none ∧
      (nestedRun ["a", "a/b"]).2.files.entryAt? ["w", "normalized_scripts", "a", "b"] =
        some .directory) ∧
    ((nestedRun ["a/__toplevel.pcode", "a"]).1.toOption.isSome ∧
      (nestedRun ["a/__toplevel.pcode", "a"]).2.files.entryAt?
        ["w", "normalized_scripts", "a", "__toplevel.pcode", "order.txt"] = none) ∧
    (nestedRun ["a", "a/__toplevel.pcode"]).1.toOption.isSome ∧
      (nestedRun ["a", "a/__toplevel.pcode"]).2.files.entryAt?
        ["w", "normalized_scripts", "a", "__toplevel.pcode"] = some .directory := by
  decide +kernel

end Command

end MovieDiff
