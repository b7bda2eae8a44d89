import Mathlib.Data.Set.Function
import MovieDiff.Command.Comparison
import MovieDiff.Proofs.Files.Partition
import MovieDiff.Proofs.Workspace.Cache

/-!
Pairing the scripts of two movies. Main statement: every script of either movie is either paired,
once and with a script of the same directory, or listed as being on its side only; and a diff set
without differences pairs all scripts, with files of the same lines in each pair.
-/
namespace MovieDiff

open List
open Workspace (blockGlob)
open MovieDiff.Path (ofString)
open TreeDiff (SearchOrder)

variable {scripts : List Script} {script : Script} {path : Path} {set : DiffSet}
  {order : SearchOrder} {leftBlocks rightBlocks : Path → FileTree} {fs : FileSystem}

/-- A list that pairs the elements of two lists one to one is the graph of a bijection. -/
theorem exists_bijOn_of_perm {α : Type} [DecidableEq α] {pairs : List (α × α)} {left right : List α}
    (hleft : (pairs.map Prod.fst).Perm left) (hright : (pairs.map Prod.snd).Perm right)
    (hnodup : left.Nodup) (hnodup' : right.Nodup) :
    ∃ partner : α → α, Set.BijOn partner {x | x ∈ left} {y | y ∈ right} ∧
      ∀ x y, (x, y) ∈ pairs ↔ x ∈ left ∧ partner x = y := by
  have hfst : (pairs.map Prod.fst).Nodup := hleft.nodup_iff.2 hnodup
  have hsnd : (pairs.map Prod.snd).Nodup := hright.nodup_iff.2 hnodup'
  let partner (x : α) : α := (pairs.lookup x).getD x
  have hpartner : ∀ x y, (x, y) ∈ pairs ↔ x ∈ left ∧ partner x = y := by
    intro x y
    have hlookup : ∀ y, (x, y) ∈ pairs → partner x = y := fun y hpair => by
      simp [partner, (lookup_eq_some_iff_mem hfst).2 hpair]
    constructor
    · intro hpair
      exact ⟨hleft.subset (mem_map_of_mem hpair), hlookup y hpair⟩
    · rintro ⟨hx, rfl⟩
      obtain ⟨pair, hpair, rfl⟩ := mem_map.1 (hleft.mem_iff.2 hx)
      rwa [hlookup pair.2 hpair]
  refine ⟨partner, ⟨?_, ?_, ?_⟩, hpartner⟩
  · intro x hx
    exact hright.subset (mem_map_of_mem ((hpartner x _).2 ⟨hx, rfl⟩))
  · intro x hx y hy heq
    have hpair := (hpartner x _).2 ⟨hx, rfl⟩
    have hpair' := (hpartner y _).2 ⟨hy, rfl⟩
    exact congrArg Prod.fst (inj_on_of_nodup_map hsnd hpair hpair' heq)
  · intro y hy
    obtain ⟨pair, hpair, rfl⟩ := mem_map.1 (hright.mem_iff.2 hy)
    obtain ⟨hmem, heq⟩ := (hpartner pair.1 pair.2).1 hpair
    exact ⟨pair.1, hmem, heq⟩

/-! ### Names of blocks -/

/-- The path of a file of a block, seen from the directory of its script. -/
def Path.IsBlock (p : Path) : Prop :=
  ∃ name, Pcode.isBlockFile name ∧ p = Path.empty.child name

/-- The two files whose names hide that they are files of blocks: an ending with nothing before it
is no ending, so they have one stem. -/
def Path.bareBlocks : List Path :=
  [Path.empty.child ".pcode", Path.empty.child ".pcode.pcode"]

variable {p : Path}

/-- The stem tells a file of a block, but for two files. -/
theorem Path.IsBlock.eq_or_bare {q : Path} (hp : p.IsBlock) (hq : q.IsBlock) (h : p.stem = q.stem) :
    p = q ∨ p ∈ bareBlocks ∧ q ∈ bareBlocks := by
  have hcases : ∀ p : Path, p.IsBlock → p = Path.empty.child ".pcode" ∨
      ∃ name, name ≠ "" ∧ p = Path.empty.child (Pcode.blockFileName name) := by
    rintro p ⟨file, hfile, rfl⟩
    obtain ⟨front, rfl⟩ := FileSystem.exists_of_matchesName_ending hfile
    by_cases hempty : front = ""
    · exact .inl (by rw [hempty]; rfl)
    · exact .inr ⟨front, hempty, rfl⟩
  have hbare : (Path.empty.child ".pcode").stem = ".pcode" := by decide
  rcases hcases p hp with rfl | ⟨name, hname, rfl⟩ <;>
    rcases hcases q hq with rfl | ⟨other, hother, rfl⟩
  · exact .inl rfl
  · rw [hbare, stem_child hother] at h
    exact .inr (by simp [bareBlocks, ← h, Pcode.blockFileName])
  · rw [hbare, stem_child hname] at h
    exact .inr (by simp [bareBlocks, h, Pcode.blockFileName])
  · rw [stem_child hname, stem_child hother] at h
    exact .inl (by rw [h])

/-! ### Blocks of one script -/

theorem subset_foldl_addBlock (blocks known : List BlockDiff) :
    known ⊆ blocks.foldl addBlock known := by
  induction blocks generalizing known with
  | nil => exact List.Subset.refl known
  | cons block blocks ih =>
    refine List.Subset.trans ?_ (ih _)
    unfold addBlock
    split
    · exact List.Subset.refl known
    · exact subset_append_left known [block]

variable {blocks : List BlockDiff}

/-- Of the blocks of some names the first one is kept. -/
theorem mem_foldl_addBlock (names : Sides String) {known : List BlockDiff} {block : BlockDiff}
    (h : (blocks.find? fun other => other.names == names) = some block)
    (hknown : ∀ other ∈ known, other.names ≠ names) : block ∈ blocks.foldl addBlock known := by
  induction blocks generalizing known with
  | nil => cases h
  | cons first blocks ih =>
    rw [foldl_cons]
    by_cases hfirst : first.names = names
    · rw [find?_cons_of_pos (by simpa using hfirst)] at h
      cases h
      have hnew : addBlock known block = known ++ [block] := by
        simpa [addBlock, hfirst] using hknown
      apply subset_foldl_addBlock
      simp [hnew]
    · rw [find?_cons_of_neg (by simpa using hfirst)] at h
      apply ih h
      unfold addBlock
      split
      · exact hknown
      · simpa [or_imp, forall_and, hfirst] using hknown

theorem foldl_addBlock_ne_nil (h : blocks ≠ []) : blocks.foldl addBlock [] ≠ [] := by
  obtain ⟨first, rest, rfl⟩ := exists_cons_of_ne_nil h
  have hmem : first ∈ (first :: rest).foldl addBlock [] :=
    mem_foldl_addBlock first.names (by simp) (by simp)
  exact ne_nil_of_mem hmem

section Changes

variable {left right : FileTree} (hleft : left.paths.Nodup) (hright : right.paths.Nodup)
  (hleftBlock : ∀ p ∈ left.paths, p.IsBlock) (hrightBlock : ∀ p ∈ right.paths, p.IsBlock)
include hleft hright hleftBlock hrightBlock

/-- A file that moved gives a block of other names than all other changes. -/
theorem eq_of_names_ofChange {change other : FileChange} (hmoved : change.changed = 0)
    (hchange : change ∈ (TreeDiff.inOrder order left right).changes)
    (hother : other ∈ (TreeDiff.inOrder order left right).changes)
    (hnames : (ScriptDiff.ofChange change).names = (ScriptDiff.ofChange other).names) :
    change = other := by
  obtain ⟨pair, hpair⟩ := TreeDiff.exists_explains hleft hright hchange
  obtain ⟨pair', hpair'⟩ := TreeDiff.exists_explains hleft hright hother
  obtain ⟨hpaths, htargets⟩ := TreeDiff.nodup_changes order hleft hright
  obtain ⟨hstem, htargetStem⟩ := Sides.both.inj hnames
  by_cases hpath : change.path = other.path
  · exact inj_on_of_nodup_map hpaths hchange hother hpath
  by_cases htarget : change.target = other.target
  · exact inj_on_of_nodup_map htargets hchange hother htarget
  obtain ⟨hbare, hbare'⟩ := ((hleftBlock _ hpair.path_mem).eq_or_bare
    (hleftBlock _ hpair'.path_mem) hstem).resolve_left hpath
  obtain ⟨htargetBare, -⟩ := ((hrightBlock _ hpair.target_mem).eq_or_bare
    (hrightBlock _ hpair'.target_mem) htargetStem).resolve_left htarget
  -- Both bare files are on the left, so no bare file is new on the right.
  have hone : change.target = change.path ∨ change.target = other.path := by
    simp only [Path.bareBlocks, mem_cons, not_mem_nil, or_false] at *
    grind
  cases hnew : change.newPath with
  | none => exact absurd hmoved (Nat.ne_of_gt (hpair.kept hnew))
  | some newPath =>
    rw [FileChange.target, hnew, Option.getD_some] at hone
    refine absurd ?_ (hpair.moved newPath hnew).2
    rcases hone with hone | hone
    · rw [hone]
      exact hpair.path_mem
    · rw [hone]
      exact hpair'.path_mem

/-- A script without differences: no change of its files is hidden by another one. -/
theorem changed_eq_zero_of_not_hasDifferences
    (h : (({} : ScriptDiff).addFiles (TreeDiff.inOrder order left right).changes
      (TreeDiff.inOrder order left right).onlyLeft
      (TreeDiff.inOrder order left right).onlyRight).hasDifferences = false) :
    (∀ change ∈ (TreeDiff.inOrder order left right).changes, change.changed = 0) ∧
      (TreeDiff.inOrder order left right).onlyLeft = [] ∧
      (TreeDiff.inOrder order left right).onlyRight = [] := by
  simp only [ScriptDiff.hasDifferences, ScriptDiff.addFiles, Bool.or_eq_false_iff, any_eq_false,
    Bool.not_eq_false', List.isEmpty_iff, decide_eq_true_eq, Nat.not_lt, Nat.le_zero] at h
  obtain ⟨⟨hpaired, honlyLeft⟩, honlyRight⟩ := h
  refine ⟨fun change hchange => ?_, ?_, ?_⟩
  · by_contra hpos
    -- The first change of the same names is the one that is kept.
    obtain ⟨first, hfirst⟩ : ∃ first, (TreeDiff.inOrder order left right).changes.find?
        (fun other => (ScriptDiff.ofChange other).names == (ScriptDiff.ofChange change).names) =
          some first := by
      apply Option.isSome_iff_exists.1
      exact find?_isSome.2 ⟨change, hchange, by simp⟩
    have hzero : first.changed = 0 := by
      refine hpaired (ScriptDiff.ofChange first)
        (mem_foldl_addBlock (ScriptDiff.ofChange change).names ?_ (by simp))
      rw [find?_map]
      exact congrArg (Option.map ScriptDiff.ofChange) hfirst
    have hsame : (ScriptDiff.ofChange first).names = (ScriptDiff.ofChange change).names := by
      simpa using find?_some hfirst
    have heq := eq_of_names_ofChange hleft hright hleftBlock hrightBlock hzero
      (mem_of_find?_eq_some hfirst) hchange hsame
    exact hpos (heq ▸ hzero)
  · by_contra hne
    exact foldl_addBlock_ne_nil (by simpa using hne) honlyLeft
  · by_contra hne
    exact foldl_addBlock_ne_nil (by simpa using hne) honlyRight

end Changes

/-! ### Pairing one script -/

theorem mem_addScript {added : Script} :
    script ∈ addScript scripts added ↔ script ∈ scripts ∨ script = added := by
  unfold addScript
  split
  next hcontains =>
    have hadded : added ∈ scripts := by simpa using hcontains
    exact ⟨.inl, fun h => h.elim id fun heq => heq ▸ hadded⟩
  · simp

theorem DiffSet.addFiles_of_mem (h : script ∈ set.paired) (changes : List FileChange)
    (onlyLeft onlyRight : List Path) :
    set.addFiles script changes onlyLeft onlyRight =
      .ok (if changes.isEmpty && onlyLeft.isEmpty && onlyRight.isEmpty then set
        else set.update script fun diff => diff.addFiles changes onlyLeft onlyRight) := by
  have hcontains : set.paired.contains script = true := by simpa using h
  unfold addFiles
  rw [hcontains]
  split
  next hfalse => cases hfalse
  · split <;> rfl

namespace Scripts

/-- Candidates are of the same directory. -/
theorem mem_candidatePaths {candidate : Path} {unmatched : List Path} :
    candidate ∈ candidatePaths path unmatched ↔
      candidate ∈ unmatched ∧ candidate.parent = path.parent := by
  have hnear : candidate ∈ (unmatched.mergeSort fun p q => p.name ≤ q.name).filter
      (fun p => p.parent == path.parent) ↔
        candidate ∈ unmatched ∧ candidate.parent = path.parent := by
    simp [mem_mergeSort]
  unfold candidatePaths
  dsimp only
  split
  next hcontains =>
    rw [← hnear]
    exact (perm_cons_erase (by simpa using hcontains)).symm.mem_iff
  · exact hnear

variable {paths : List Path}

theorem mem_of_bestCandidate {blocks : Nat} {compare : Path → TreeDiff}
    {known : Option Candidate} {best : Candidate}
    (h : bestCandidate path blocks compare known paths = some best) :
    known = some best ∨ ∃ p ∈ paths, best = ⟨p, compare p⟩ := by
  induction paths generalizing known with
  | nil => exact .inl h
  | cons p paths ih =>
    have hstep : ∀ better : Candidate, known = some better ∨ better = ⟨p, compare p⟩ →
        (if p = path ∧ isAlike (Candidate.mk p (compare p)).found blocks then some better
          else bestCandidate path blocks compare (some better) paths) = some best →
        known = some best ∨ ∃ q ∈ p :: paths, best = ⟨q, compare q⟩ := by
      intro better hbetter hbest
      have hfound : some better = some best ∨ ∃ q ∈ paths, best = ⟨q, compare q⟩ := by
        split at hbest
        · exact .inl hbest
        · exact ih hbest
      rcases hfound with heq | ⟨q, hq, heq⟩
      · cases heq
        exact hbetter.imp_right fun heq => ⟨p, mem_cons_self, heq⟩
      · exact .inr ⟨q, mem_cons_of_mem p hq, heq⟩
    cases known with
    | none => exact hstep _ (.inr rfl) h
    | some known =>
      by_cases hlt : known.found < (Candidate.mk p (compare p)).found
      · exact hstep _ (.inr (if_pos hlt)) h
      · exact hstep _ (.inl (congrArg some (if_neg hlt).symm)) h

variable {s s' : Search}

/-- The partner that is chosen for a script among those that are without one. -/
def choice (order : SearchOrder) (leftBlocks rightBlocks : Path → FileTree) (right : List Path)
    (path : Path) : Except Fault (Option Candidate) :=
  if (candidatePaths path right).isEmpty then .ok none
  else if (leftBlocks path).isEmpty then .error .noScriptBlocks
  else .ok ((bestCandidate path (leftBlocks path).length
    (fun p => TreeDiff.inOrder order (leftBlocks path) (rightBlocks p)) none
    (candidatePaths path right)).filter fun best => isAlike best.found (leftBlocks path).length)

def record (set : DiffSet) (script : Script) (diff : TreeDiff) : DiffSet :=
  let set := { set with paired := addScript set.paired script }
  if diff.changes.isEmpty && diff.onlyLeft.isEmpty && diff.onlyRight.isEmpty then set
  else set.update script fun known => known.addFiles diff.changes diff.onlyLeft diff.onlyRight

def Search.join (s : Search) (path : Path) (best : Candidate) : Search :=
  ⟨s.left.erase path, s.right.erase best.path, record s.set (.both path best.path) best.diff⟩

theorem paired_join (s : Search) (path : Path) (best : Candidate) :
    (s.join path best).set.paired = addScript s.set.paired (.both path best.path) := by
  unfold Search.join record
  dsimp only
  split <;> rfl

theorem matchScript_eq : matchScript order leftBlocks rightBlocks s path =
    (choice order leftBlocks rightBlocks s.right path).map fun best? =>
      best?.elim s (s.join path) := by
  unfold matchScript choice
  dsimp only
  split
  · rfl
  split
  · rfl
  cases bestCandidate path (leftBlocks path).length
    (fun p => TreeDiff.inOrder order (leftBlocks path) (rightBlocks p)) none
    (candidatePaths path s.right) with
  | none => rfl
  | some best =>
    dsimp only
    rw [Option.filter_some,
      DiffSet.addFiles_of_mem (mem_addScript.2 (.inr rfl))]
    cases isAlike best.found (leftBlocks path).length <;> rfl

/-- The only fault of a step: a script without blocks has a script to be compared with. -/
theorem matchScript_eq_error_iff {fault : Fault} :
    matchScript order leftBlocks rightBlocks s path = .error fault ↔
      fault = .noScriptBlocks ∧ leftBlocks path = [] ∧ ∃ q ∈ s.right, q.parent = path.parent := by
  have hcandidates : candidatePaths path s.right = [] ↔ ∀ q ∈ s.right, q.parent ≠ path.parent := by
    simp [eq_nil_iff_forall_not_mem, mem_candidatePaths]
  rw [matchScript_eq]
  unfold choice
  split
  next hnone =>
    have hfar := hcandidates.1 (List.isEmpty_iff.1 hnone)
    simp only [Except.map, reduceCtorEq, false_iff, not_and, not_exists]
    exact fun _ _ => hfar
  next hsome =>
    rw [List.isEmpty_iff, hcandidates] at hsome
    push Not at hsome
    split
    next hempty =>
      rw [Except.map, Except.error.injEq, eq_comm]
      exact ⟨fun heq => ⟨heq, List.isEmpty_iff.1 hempty, hsome⟩, And.left⟩
    next hblocks =>
      have hne : leftBlocks path ≠ [] := by simpa using hblocks
      simp [Except.map, hne]

/-- What a step may do: leave the script, or pair it with one of its directory that is alike enough
and record how their files differ. -/
theorem matchScript_cases (h : matchScript order leftBlocks rightBlocks s path = .ok s') :
    choice order leftBlocks rightBlocks s.right path = .ok none ∧ s' = s ∨
      ∃ other ∈ s.right, other.parent = path.parent ∧
        (leftBlocks path ≠ [] ∧ isAlike
          (Candidate.mk other (TreeDiff.inOrder order (leftBlocks path) (rightBlocks other))).found
          (leftBlocks path).length) ∧
        choice order leftBlocks rightBlocks s.right path =
          .ok (some ⟨other, TreeDiff.inOrder order (leftBlocks path) (rightBlocks other)⟩) ∧
        s' = s.join path ⟨other, TreeDiff.inOrder order (leftBlocks path) (rightBlocks other)⟩ := by
  rw [matchScript_eq] at h
  obtain ⟨best?, hchoice, rfl⟩ := exists_of_map_eq_ok h
  cases best? with
  | none => exact .inl ⟨hchoice, rfl⟩
  | some best =>
    have hbest := hchoice
    unfold choice at hbest
    split at hbest
    · cases hbest
    split at hbest
    · cases hbest
    next hblocks =>
      obtain ⟨hbest, halike⟩ := Option.filter_eq_some_iff.1 (Except.ok.inj hbest)
      rcases mem_of_bestCandidate hbest with hnone | ⟨other, hother, rfl⟩
      · cases hnone
      obtain ⟨hmem, hparent⟩ := mem_candidatePaths.1 hother
      exact .inr ⟨other, hmem, hparent, ⟨by simpa using hblocks, halike⟩, hchoice, rfl⟩

/-! ### Pairing all scripts -/

/-- The entry of a paired script: how its files differ. Where they do not, there is none. -/
def recordOf? (order : SearchOrder) (leftBlocks rightBlocks : Path → FileTree) (script : Script) :
    Option (Script × ScriptDiff) :=
  match script with
  | .both a b =>
    let diff := TreeDiff.inOrder order (leftBlocks a) (rightBlocks b)
    if diff.changes.isEmpty && diff.onlyLeft.isEmpty && diff.onlyRight.isEmpty then none
    else some (script, ({} : ScriptDiff).addFiles diff.changes diff.onlyLeft diff.onlyRight)
  | _ => none

theorem fst_eq_of_recordOf? {entry : Script × ScriptDiff}
    (h : recordOf? order leftBlocks rightBlocks script = some entry) : entry.1 = script := by
  unfold recordOf? at h
  split at h
  · dsimp only at h
    split at h
    · cases h
    · cases h
      rfl
  · cases h

theorem updateEntry_of_new {f : ScriptDiff → ScriptDiff} {entries : List (Script × ScriptDiff)}
    (h : ∀ entry ∈ entries, entry.1 ≠ script) :
    DiffSet.updateEntry f script entries = entries ++ [(script, f {})] := by
  induction entries with
  | nil => rfl
  | cons entry entries ih =>
    obtain ⟨hentry, hothers⟩ := forall_mem_cons.1 h
    rw [DiffSet.updateEntry, if_neg hentry, ih hothers, cons_append]

/-- The state of the search: the scripts that are paired, all others still without a partner, and
an entry for each pair whose files differ. -/
structure Tracks (order : SearchOrder) (leftBlocks rightBlocks : Path → FileTree)
    (left right : List Path) (s : Search) : Prop where
  left : (s.set.paired.filterMap Sides.left? ++ s.left).Perm left
  right : (s.set.paired.filterMap Sides.right? ++ s.right).Perm right
  paired : ∀ script ∈ s.set.paired, ∃ a b, script = .both a b ∧ a.parent = b.parent
  blockDiffs : s.set.blockDiffs = s.set.paired.filterMap (recordOf? order leftBlocks rightBlocks)

variable {left right : List Path}

/-- A script that is still without a partner is in no pair. -/
theorem Tracks.not_mem_paired (h : Tracks order leftBlocks rightBlocks left right s)
    (hleft : left.Nodup) (hpath : path ∈ s.left) (other : Path) :
    .both path other ∉ s.set.paired := by
  intro hmem
  have hnodup := h.left.nodup_iff.2 hleft
  exact (List.nodup_append.1 hnodup).2.2 path (mem_filterMap.2 ⟨_, hmem, rfl⟩) path hpath rfl

/-- A step keeps track. -/
theorem Tracks.matchScript (h : Tracks order leftBlocks rightBlocks left right s)
    (hleft : left.Nodup) (hpath : path ∈ s.left)
    (hstep : matchScript order leftBlocks rightBlocks s path = .ok s') :
    Tracks order leftBlocks rightBlocks left right s' ∧ ∀ p ∈ s.left, p ≠ path → p ∈ s'.left := by
  rcases matchScript_cases hstep with ⟨-, rfl⟩ | ⟨other, hother, hparent, -, -, rfl⟩
  · exact ⟨h, fun p hp _ => hp⟩
  have hnew := h.not_mem_paired hleft hpath other
  have hadd : addScript s.set.paired (.both path other) = s.set.paired ++ [.both path other] := by
    simp [addScript, hnew]
  have hentries : ∀ entry ∈ s.set.blockDiffs, entry.1 ≠ .both path other := by
    intro entry hentry heq
    rw [h.blockDiffs] at hentry
    obtain ⟨script, hscript, hfound⟩ := mem_filterMap.1 hentry
    exact hnew (heq ▸ fst_eq_of_recordOf? hfound ▸ hscript)
  have hpaired : (s.join path ⟨other, TreeDiff.inOrder order (leftBlocks path)
      (rightBlocks other)⟩).set.paired = s.set.paired ++ [.both path other] :=
    (paired_join ..).trans hadd
  have hblockDiffs : (s.join path ⟨other, TreeDiff.inOrder order (leftBlocks path)
      (rightBlocks other)⟩).set.blockDiffs = s.set.blockDiffs ++
        ([.both path other] : List Script).filterMap (recordOf? order leftBlocks rightBlocks) := by
    rw [Search.join, record, filterMap_cons, recordOf?]
    dsimp only
    split
    · rw [filterMap_nil, append_nil]
    · rw [DiffSet.update, updateEntry_of_new hentries, filterMap_nil]
  refine ⟨⟨?_, ?_, ?_, ?_⟩, fun p hp hne => (mem_erase_of_ne hne).2 hp⟩
  · rw [hpaired, filterMap_append, append_assoc]
    exact ((perm_cons_erase hpath).symm.append_left _).trans h.left
  · rw [hpaired, filterMap_append, append_assoc]
    exact ((perm_cons_erase hother).symm.append_left _).trans h.right
  · intro script hscript
    rw [hpaired, mem_append, mem_singleton] at hscript
    rcases hscript with hscript | rfl
    · exact h.paired script hscript
    · exact ⟨path, other, rfl, hparent.symm⟩
  · rw [hpaired, hblockDiffs, filterMap_append, h.blockDiffs]

/-- A run over scripts that are all still without a partner, and what each of its steps keeps. -/
theorem Tracks.foldlM {P : Search → Prop}
    (hstep : ∀ {s path s'}, Tracks order leftBlocks rightBlocks left right s → P s →
      Scripts.matchScript order leftBlocks rightBlocks s path = .ok s' → P s')
    (h : Tracks order leftBlocks rightBlocks left right s) (hs : P s) (hleft : left.Nodup)
    (hpaths : paths.Nodup) (hmem : ∀ p ∈ paths, p ∈ s.left)
    (hrun : paths.foldlM (Scripts.matchScript order leftBlocks rightBlocks) s = .ok s') :
    Tracks order leftBlocks rightBlocks left right s' ∧ P s' := by
  induction paths generalizing s with
  | nil =>
    cases hrun
    exact ⟨h, hs⟩
  | cons path paths ih =>
    rw [nodup_cons] at hpaths
    obtain ⟨hpath, hothers⟩ := forall_mem_cons.1 hmem
    rw [foldlM_cons] at hrun
    obtain ⟨between, hfirst, hrest⟩ := exists_of_bind_eq_ok hrun
    obtain ⟨htracks, hkept⟩ := h.matchScript hleft hpath hfirst
    refine ih htracks (hstep h hs hfirst) hpaths.2 (fun p hp => ?_) hrest
    exact hkept p (hothers p hp) fun heq => hpaths.1 (heq ▸ hp)

theorem tracks_start (order : SearchOrder) (leftBlocks rightBlocks : Path → FileTree)
    (left right : List Path) : Tracks order leftBlocks rightBlocks left right ⟨left, right, {}⟩ :=
  ⟨.refl _, .refl _, by simp, rfl⟩

/-- A whole run keeps track. -/
theorem tracks_of_run (hleft : left.Nodup)
    (hrun : (Path.sort left).foldlM (Scripts.matchScript order leftBlocks rightBlocks)
      ⟨left, right, {}⟩ = .ok s) : Tracks order leftBlocks rightBlocks left right s := by
  have hsorted : (Path.sort left).Perm left := mergeSort_perm _ _
  exact ((tracks_start ..).foldlM (P := fun _ => True) (fun _ _ _ => trivial) trivial hleft
    (hsorted.nodup_iff.2 hleft) (fun p hp => hsorted.subset hp) hrun).1

theorem pair_eq_ok_iff : pair order leftBlocks rightBlocks left right = .ok set ↔
    ∃ found, (Path.sort left).foldlM (Scripts.matchScript order leftBlocks rightBlocks)
        ⟨left, right, {}⟩ = .ok found ∧
      set = { found.set with
        onlyLeft := found.left.map Sides.left, onlyRight := found.right.map Sides.right } := by
  constructor
  · intro h
    obtain ⟨found, hrun, heq⟩ := exists_of_bind_eq_ok h
    exact ⟨found, hrun, (Except.ok.inj heq).symm⟩
  · rintro ⟨found, hrun, rfl⟩
    rw [pair, hrun]
    rfl

theorem tracks_of_pair (hleft : left.Nodup)
    (h : pair order leftBlocks rightBlocks left right = .ok set) :
    ∃ found : Search, Tracks order leftBlocks rightBlocks left right found ∧
      set = { found.set with
        onlyLeft := found.left.map Sides.left, onlyRight := found.right.map Sides.right } := by
  obtain ⟨found, hrun, heq⟩ := pair_eq_ok_iff.1 h
  exact ⟨found, tracks_of_run hleft hrun, heq⟩

end Scripts

/-! ### What a diff set says -/

/-- Whether every script of two movies is in a diff set once: paired with a script of its
directory, or on its side only. -/
structure DiffSet.Accounts (set : DiffSet) (left right : List Path) : Prop where
  left : (set.paired.filterMap Sides.left? ++ set.onlyLeft.filterMap Sides.left?).Perm left
  right : (set.paired.filterMap Sides.right? ++ set.onlyRight.filterMap Sides.right?).Perm right
  paired : ∀ script ∈ set.paired, ∃ a b, script = .both a b ∧ a.parent = b.parent
  onlyLeft : ∀ script ∈ set.onlyLeft, ∃ a, script = .left a
  onlyRight : ∀ script ∈ set.onlyRight, ∃ b, script = .right b

/-- Whether the files of blocks in two directories correspond one to one, each to one of the same
lines. -/
def FileSystem.SameBlocks (fs : FileSystem) (dir dir' : Path) : Prop :=
  ∃ partner : Path → Path,
    Set.BijOn partner {p | p ∈ fs.listFiles dir blockGlob}
      {p | p ∈ fs.listFiles dir' blockGlob} ∧
    ∀ p ∈ fs.listFiles dir blockGlob, ∃ lines,
      fs.readLines (dir ++ p) = .ok lines ∧ fs.readLines (dir' ++ partner p) = .ok lines

theorem mem_foldl_addScript {known : List Script} :
    script ∈ scripts.foldl addScript known ↔ script ∈ known ∨ script ∈ scripts := by
  induction scripts generalizing known with
  | nil => simp
  | cons first scripts ih => simp [ih, mem_addScript, or_assoc]

theorem DiffSet.isEmpty_iff : set.isEmpty ↔
    (∀ entry ∈ set.blockDiffs, entry.2.hasDifferences = false) ∧
      set.onlyLeft = [] ∧ set.onlyRight = [] := by
  rw [isEmpty, List.isEmpty_iff, eq_nil_iff_forall_not_mem]
  simp only [differingScripts, mem_foldl_addScript, not_or, forall_and, scriptsWithDifferences,
    ← eq_nil_iff_forall_not_mem, append_eq_nil_iff, map_eq_nil_iff,
    filter_eq_nil_iff, Bool.not_eq_true]

variable {dir : Path}

theorem FileSystem.isBlock_of_mem_listFiles (h : p ∈ fs.listFiles dir blockGlob) :
    p.IsBlock := by
  obtain ⟨-, name, -, hmatches, -, rfl⟩ := mem_listFiles.1 h
  exact ⟨name, hmatches, rfl⟩

variable {a b : Path}

/-- A pair of scripts for which no difference is recorded has none. -/
theorem changed_eq_zero_of_recordOf?
    (hleft : (leftBlocks a).paths.Nodup) (hright : (rightBlocks b).paths.Nodup)
    (hleftBlock : ∀ p ∈ (leftBlocks a).paths, p.IsBlock)
    (hrightBlock : ∀ p ∈ (rightBlocks b).paths, p.IsBlock)
    (h : ∀ entry, Scripts.recordOf? order leftBlocks rightBlocks (.both a b) = some entry →
      entry.2.hasDifferences = false) :
    (∀ change ∈ (TreeDiff.inOrder order (leftBlocks a) (rightBlocks b)).changes,
        change.changed = 0) ∧
      (TreeDiff.inOrder order (leftBlocks a) (rightBlocks b)).onlyLeft = [] ∧
      (TreeDiff.inOrder order (leftBlocks a) (rightBlocks b)).onlyRight = [] := by
  unfold Scripts.recordOf? at h
  dsimp only at h
  split at h
  next hnone =>
    simp only [Bool.and_eq_true, List.isEmpty_iff] at hnone
    simp [hnone]
  · exact changed_eq_zero_of_not_hasDifferences hleft hright hleftBlock hrightBlock (h _ rfl)

variable {dir' : Path}

/-- Files that are paired without a difference, one to one, are the same blocks. -/
theorem FileSystem.sameBlocks_of_pairs {pairs : List FilePair}
    (hleft : (pairs.map Prod.fst).Perm (fs.tree dir blockGlob))
    (hright : (pairs.map Prod.snd).Perm (fs.tree dir' blockGlob))
    (hlines : ∀ pair ∈ pairs, pair.SameLines) : fs.SameBlocks dir dir' := by
  have hpaths : ((pairs.map fun pair => (pair.1.1, pair.2.1)).map Prod.fst).Perm
      (fs.listFiles dir blockGlob) := by
    rw [← fs.paths_tree dir, map_map]
    simpa [Function.comp_def, FileTree.paths] using hleft.map Prod.fst
  have hpaths' : ((pairs.map fun pair => (pair.1.1, pair.2.1)).map Prod.snd).Perm
      (fs.listFiles dir' blockGlob) := by
    rw [← fs.paths_tree dir', map_map]
    simpa [Function.comp_def, FileTree.paths] using hright.map Prod.fst
  obtain ⟨partner, hbijective, hgraph⟩ := exists_bijOn_of_perm hpaths hpaths'
    (fs.nodup_listFiles dir _) (fs.nodup_listFiles dir' _)
  refine ⟨partner, hbijective, fun p hp => ?_⟩
  obtain ⟨pair, hpair, heq⟩ := mem_map.1 ((hgraph p _).2 ⟨hp, rfl⟩)
  have hmem : pair.1 ∈ fs.tree dir blockGlob :=
    hleft.subset (mem_map_of_mem hpair)
  have hmem' : pair.2 ∈ fs.tree dir' blockGlob :=
    hright.subset (mem_map_of_mem hpair)
  have hsame : pair.1.2.lines = pair.2.2.lines := hlines pair hpair
  obtain ⟨hfst, hsnd⟩ := Prod.mk.inj heq
  refine ⟨pair.1.2.lines, ?_, ?_⟩
  · rw [← hfst]
    exact mem_tree hmem
  · rw [← hsnd, hsame]
    exact mem_tree hmem'

/-- A pair of scripts for which no difference is recorded has the same blocks on both sides. -/
theorem sameBlocks_of_recordOf? (order : SearchOrder)
    (hleft : (leftBlocks a).Perm (fs.tree dir blockGlob))
    (hright : (rightBlocks b).Perm (fs.tree dir' blockGlob))
    (h : ∀ entry, Scripts.recordOf? order leftBlocks rightBlocks (.both a b) = some entry →
      entry.2.hasDifferences = false) : fs.SameBlocks dir dir' := by
  have hpaths : (leftBlocks a).paths.Perm (fs.listFiles dir blockGlob) :=
    fs.paths_tree dir _ ▸ hleft.map Prod.fst
  have hpaths' : (rightBlocks b).paths.Perm (fs.listFiles dir' blockGlob) :=
    fs.paths_tree dir' _ ▸ hright.map Prod.fst
  have hnodup : (leftBlocks a).paths.Nodup := hpaths.nodup_iff.2 (fs.nodup_listFiles dir _)
  have hnodup' : (rightBlocks b).paths.Nodup := hpaths'.nodup_iff.2 (fs.nodup_listFiles dir' _)
  obtain ⟨hchanges, honlyLeft, honlyRight⟩ := changed_eq_zero_of_recordOf? hnodup hnodup'
    (fun p hp => FileSystem.isBlock_of_mem_listFiles (hpaths.subset hp))
    (fun p hp => FileSystem.isBlock_of_mem_listFiles (hpaths'.subset hp)) h
  obtain ⟨pairing, hreports⟩ := TreeDiff.exists_reports_inOrder order hnodup hnodup'
  obtain ⟨hfst, hsnd, hlines⟩ := hreports.sameLines hchanges honlyLeft honlyRight
  exact FileSystem.sameBlocks_of_pairs (hfst.trans hleft) (hsnd.trans hright) hlines

theorem exists_pairs (h : ∀ script ∈ scripts, ∃ a b, script = .both a b ∧ a.parent = b.parent) :
    ∃ pairs : List (Path × Path), scripts = pairs.map fun pair => .both pair.1 pair.2 := by
  induction scripts with
  | nil => exact ⟨[], rfl⟩
  | cons script scripts ih =>
    obtain ⟨⟨a, b, rfl, -⟩, hothers⟩ := forall_mem_cons.1 h
    obtain ⟨pairs, rfl⟩ := ih hothers
    exact ⟨(a, b) :: pairs, rfl⟩

namespace Scripts

/-- The files of the blocks of a script below a directory of normalised scripts. -/
def blockTree (fs : FileSystem) (dir script : Path) : FileTree :=
  fs.tree (dir ++ script) blockGlob

/-- Every script of either movie is in the diff set once, and a diff set without differences is a
bijection between the scripts, with the same blocks in each pair. -/
theorem pair_accounts {fs : FileSystem} {leftDir rightDir : Path}
    {order : SearchOrder} {leftBlocks rightBlocks : Path → FileTree} {left right : List Path}
    {set : DiffSet}
    (hleft : left.Nodup) (hright : right.Nodup)
    (hleftBlocks : ∀ p, (leftBlocks p).Perm (blockTree fs leftDir p))
    (hrightBlocks : ∀ p, (rightBlocks p).Perm (blockTree fs rightDir p))
    (h : pair order leftBlocks rightBlocks left right = .ok set) :
    set.Accounts left right ∧
      (set.isEmpty →
        ∃ partner : Path → Path, Set.BijOn partner {a | a ∈ left} {b | b ∈ right} ∧
          (∀ a b, .both a b ∈ set.paired ↔ a ∈ left ∧ partner a = b) ∧
          ∀ a ∈ left, fs.SameBlocks (leftDir ++ a) (rightDir ++ partner a)) := by
  obtain ⟨found, htracks, rfl⟩ := tracks_of_pair hleft h
  have honlyLeft : (found.left.map Sides.left).filterMap Sides.left? = found.left := by
    simp [List.filterMap_map, Function.comp_def, Sides.left?]
  have honlyRight : (found.right.map Sides.right).filterMap Sides.right? = found.right := by
    simp [List.filterMap_map, Function.comp_def, Sides.right?]
  have haccounts : DiffSet.Accounts { found.set with
      onlyLeft := found.left.map Sides.left, onlyRight := found.right.map Sides.right }
      left right := by
    refine ⟨?_, ?_, htracks.paired, ?_, ?_⟩
    · rw [honlyLeft]
      exact htracks.left
    · rw [honlyRight]
      exact htracks.right
    · simp
    · simp
  refine ⟨haccounts, fun hempty => ?_⟩
  obtain ⟨hentries, hnoLeft, hnoRight⟩ := DiffSet.isEmpty_iff.1 hempty
  obtain ⟨pairs, hpairs⟩ := exists_pairs htracks.paired
  have hleftPerm := htracks.left
  have hrightPerm := htracks.right
  rw [List.map_eq_nil_iff.1 hnoLeft, hpairs, List.append_nil, List.filterMap_map] at hleftPerm
  rw [List.map_eq_nil_iff.1 hnoRight, hpairs, List.append_nil, List.filterMap_map] at hrightPerm
  obtain ⟨partner, hbijective, hgraph⟩ := exists_bijOn_of_perm
    (by simpa [Function.comp_def, Sides.left?] using hleftPerm)
    (by simpa [Function.comp_def, Sides.right?] using hrightPerm) hleft hright
  have hmem : ∀ a b, .both a b ∈ found.set.paired ↔ a ∈ left ∧ partner a = b := by
    intro a b
    rw [← hgraph, hpairs]
    simp
  refine ⟨partner, hbijective, hmem, fun a ha => ?_⟩
  refine sameBlocks_of_recordOf? order (hleftBlocks a) (hrightBlocks (partner a))
    fun entry hentry => ?_
  apply hentries entry
  change entry ∈ found.set.blockDiffs
  rw [htracks.blockDiffs]
  exact List.mem_filterMap.2 ⟨_, (hmem a _).2 ⟨ha, rfl⟩, hentry⟩

/-- Two movies with one script each; it has another name in the second movie, and so has its only
block, which is stored with other line ends. -/
def renamedFiles : FileSystem where
  entries := [(["a"], .directory), (["a", "s"], .directory), (["a", "s", "A"], .directory),
    (["a", "s", "A", "f.pcode"], .file (Text.encode "Push 1\nPop\n")),
    (["b"], .directory), (["b", "s"], .directory), (["b", "s", "B"], .directory),
    (["b", "s", "B", "g.pcode"], .file (Text.encode "Push 1\r\nPop\r\n"))]

def renamedTree (movie : String) : Path → FileTree :=
  blockTree renamedFiles (ofString movie)

def renamedSet : DiffSet where
  paired := [.both (ofString "s/A") (ofString "s/B")]
  blockDiffs := [(.both (ofString "s/A") (ofString "s/B"),
    { paired := [{ names := .both "f" "g" }] })]

theorem pair_accounts_renamed :
    pair .listed (renamedTree "/a") (renamedTree "/b") [ofString "s/A"] [ofString "s/B"] =
        .ok renamedSet ∧ renamedSet.isEmpty ∧
      renamedSet.Accounts [ofString "s/A"] [ofString "s/B"] ∧
      ∃ partner : Path → Path,
        Set.BijOn partner {a | a ∈ [ofString "s/A"]} {b | b ∈ [ofString "s/B"]} ∧
        (∀ a b, .both a b ∈ renamedSet.paired ↔ a ∈ [ofString "s/A"] ∧ partner a = b) ∧
        ∀ a ∈ [ofString "s/A"],
          renamedFiles.SameBlocks (ofString "/a" ++ a) (ofString "/b" ++ partner a) := by
  have hpair : pair .listed (renamedTree "/a") (renamedTree "/b") [ofString "s/A"]
      [ofString "s/B"] = .ok renamedSet := eq_ok_of_toOption (by decide +kernel)
  have hempty : renamedSet.isEmpty := by decide +kernel
  obtain ⟨haccounts, hsound⟩ := pair_accounts (List.nodup_singleton _) (List.nodup_singleton _)
    (fun _ => .refl _) (fun _ => .refl _) hpair
  exact ⟨hpair, hempty, haccounts, hsound hempty⟩

end Scripts

end MovieDiff
