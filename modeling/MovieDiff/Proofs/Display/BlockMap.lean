import MovieDiff.Proofs.DebugInfo.Format
import MovieDiff.Proofs.Files.FileTree
import MovieDiff.Proofs.Display.RawSpans

/-!
The line map of a block. Main statement: the map has the p-code lines that are recorded for the
script within the block, and each is mapped to what is recorded for the nearest line of the block
that is not behind it and has an ActionScript line; which other scripts are wanted does not matter.
-/
namespace MovieDiff

open List

theorem Keyed.get?_put {κ α : Type} [DecidableEq κ] (key other : κ) (value : α) (table : Keyed κ α) :
    get? (put key value table) other = if other = key then some value else get? table other := by
  induction table with
  | nil => by_cases h : other = key <;> simp [get?, put, lookup_cons, beq_false_of_ne, h]
  | cons entry rest ih =>
    obtain ⟨first, found⟩ := entry
    by_cases hfirst : first = key
    · subst hfirst
      by_cases h : other = first <;> simp [get?, put, lookup_cons, beq_false_of_ne, h]
    · simp only [get?] at ih
      by_cases h : other = first <;>
        simp [get?, put, lookup_cons, beq_false_of_ne, hfirst, h, ih]

namespace DebugInfo

variable {pcode source : DebugFile} {name : String} {wanted : Option (List String)}

/-- The line of a record, counted from zero. -/
def OffsetRecord.key (r : OffsetRecord) : Int :=
  (r.line : Int) - 1

def isModuleOf (source : DebugFile) (name : String) (module : Nat) : Bool :=
  source.scripts.any fun script => script.module == module && scriptName script.name == name

def recordsOf (pcode source : DebugFile) (name : String) : List OffsetRecord :=
  pcode.offsets.filter fun o => isModuleOf source name o.module

/-- An ActionScript record for the offset of a p-code record, in the same module. -/
def IsShared (o r : OffsetRecord) : Prop :=
  r.module = o.module ∧ r.offset = o.offset

/-- What a line is mapped to by the records from `low` on that are not behind it: the line last
recorded for the nearest one that shares its offset. -/
inductive Nearest (source : DebugFile) (records : List OffsetRecord) (low line : Int) :
    Option Int → Prop
  | known (o r : OffsetRecord) (before after : List OffsetRecord) (hmem : o ∈ records)
      (hlow : low ≤ o.key) (hline : o.key ≤ line)
      (hsource : source.offsets = before ++ r :: after) (hshared : IsShared o r)
      (hlast : ∀ r' ∈ after, ¬ IsShared o r')
      (hnearest : ∀ o' ∈ records, o.key < o'.key → o'.key ≤ line →
        ∀ r' ∈ source.offsets, ¬ IsShared o' r') : Nearest source records low line (some r.key)
  | unknown (hnone : ∀ o ∈ records, low ≤ o.key → o.key ≤ line →
      ∀ r ∈ source.offsets, ¬ IsShared o r) : Nearest source records low line none

/-! ### The map of a script -/

def mapped? (source : DebugFile) (o : OffsetRecord) : Option Int :=
  (lineAt? source o.module o.offset).map fun line => (line : Int) - 1

theorem mapped?_eq (o : OffsetRecord) : mapped? source o =
    (source.offsets.reverse.find? fun r => r.module == o.module && r.offset == o.offset).map
      OffsetRecord.key := by
  unfold mapped? lineAt?
  cases source.offsets.reverse.find? fun r => r.module == o.module && r.offset == o.offset <;> rfl

/-- The last record that shares the offset counts. -/
theorem exists_of_mapped? {o : OffsetRecord} {line : Int} (h : mapped? source o = some line) :
    ∃ before r after, source.offsets = before ++ r :: after ∧ IsShared o r ∧
      (∀ r' ∈ after, ¬ IsShared o r') ∧ r.key = line := by
  simp only [mapped?_eq, Option.map_eq_some_iff, find?_eq_some_iff_append,
    Bool.and_eq_true, beq_iff_eq] at h
  obtain ⟨r, ⟨hshared, later, before, hreverse, hlater⟩, rfl⟩ := h
  refine ⟨before.reverse, r, later.reverse, ?_, hshared, fun r' hr' hboth => ?_, rfl⟩
  · rw [← reverse_reverse source.offsets, hreverse]
    simp
  · have := hlater r' (mem_reverse.1 hr')
    simp [hboth.1, hboth.2] at this

theorem mapped?_eq_none {o : OffsetRecord} (h : mapped? source o = none) :
    ∀ r ∈ source.offsets, ¬ IsShared o r := by
  intro r hr hshared
  simp only [mapped?_eq, Option.map_eq_none_iff, find?_eq_none, mem_reverse] at h
  exact h r hr (by simp [hshared.1, hshared.2])

def putRecord (source : DebugFile) (modules : Keyed Nat String) (maps : Keyed String LineMap)
    (o : OffsetRecord) : Keyed String LineMap :=
  match Keyed.get? modules o.module with
  | none => maps
  | some name =>
    Keyed.put name (Keyed.put o.key (mapped? source o) ((Keyed.get? maps name).getD [])) maps

theorem lineMaps_eq : lineMaps pcode source wanted =
    pcode.offsets.foldl (putRecord source (wantedModules source wanted)) [] := rfl

section Wanted

variable (hunique : (source.scripts.map ScriptRecord.module).Nodup)
  (hwanted : wanted.all (·.contains name))
include hunique hwanted

theorem get?_wantedModules (module : Nat) :
    Keyed.get? (wantedModules source wanted) module = some name ↔
      isModuleOf source name module := by
  let isWanted (script : ScriptRecord) : Bool := wanted.all (·.contains (scriptName script.name))
  have hnodup : ((source.scripts.filter isWanted).map ScriptRecord.module).Nodup :=
    hunique.sublist (filter_sublist.map _)
  have htable : wantedModules source wanted = (source.scripts.filter isWanted).map fun script =>
      (script.module, scriptName script.name) := by
    rw [← nil_append (map _ _), ← foldl_put_of_nodup (by simpa using hnodup), foldl_filter]
    rfl
  rw [htable, Keyed.get?, lookup_eq_some_iff_mem (by simpa [Function.comp_def] using hnodup)]
  simp only [mem_map, mem_filter, Prod.mk.injEq, isModuleOf, any_eq_true, Bool.and_eq_true,
    beq_iff_eq]
  constructor
  · rintro ⟨script, ⟨hscript, -⟩, hmodule, hname⟩
    exact ⟨script, hscript, hmodule, hname⟩
  · rintro ⟨script, hscript, hmodule, hname⟩
    exact ⟨script, ⟨hscript, by rwa [← hname] at hwanted⟩, hmodule, hname⟩

/-- The entry of a script is made of its own records alone. -/
theorem get?_lineMaps :
    Keyed.get? (lineMaps pcode source wanted) name =
      (recordsOf pcode source name).foldl (fun table? o =>
        some (Keyed.put o.key (mapped? source o) (table?.getD []))) none := by
  rw [lineMaps_eq, recordsOf, show none = Keyed.get? ([] : Keyed String LineMap) name from rfl]
  generalize ([] : Keyed String LineMap) = maps
  induction pcode.offsets generalizing maps with
  | nil => rfl
  | cons o offsets ih =>
    have hmodule := get?_wantedModules hunique hwanted o.module
    rw [foldl_cons, ih, putRecord]
    cases hfound : Keyed.get? (wantedModules source wanted) o.module with
    | none =>
      rw [hfound] at hmodule
      rw [filter_cons_of_neg (by simp [← hmodule])]
    | some other =>
      rw [hfound, Option.some_inj] at hmodule
      by_cases heq : other = name
      · subst heq
        rw [filter_cons_of_pos (by exact hmodule.1 rfl), foldl_cons, Keyed.get?_put, if_pos rfl]
      · rw [filter_cons_of_neg (by simp [← hmodule, heq]), Keyed.get?_put, if_neg (Ne.symm heq)]

/-- Records in increasing order of lines are the entries of their script, in this order. -/
theorem get?_lineMaps_of_increasing
    (hincreasing : (recordsOf pcode source name).Pairwise fun o o' => o.line < o'.line)
    (hne : recordsOf pcode source name ≠ []) :
    Keyed.get? (lineMaps pcode source wanted) name =
      some ((recordsOf pcode source name).map fun o => (o.key, mapped? source o)) := by
  have hnodup : ((recordsOf pcode source name).map OffsetRecord.key).Nodup :=
    pairwise_map.2 (hincreasing.imp fun hlt heq => by
      simp only [OffsetRecord.key] at heq
      omega)
  rw [get?_lineMaps hunique hwanted, ← nil_append (map _ _),
    ← foldl_put_of_nodup (by simpa using hnodup)]
  generalize recordsOf pcode source name = records at hne
  obtain ⟨o, others, rfl⟩ := exists_cons_of_ne_nil hne
  exact foldl_hom some fun _ _ => rfl

end Wanted

/-! ### Filling -/

theorem map_fst_fillFrom (last : Option Int) (table : LineMap) :
    (fillFrom last table).map Prod.fst = table.map Prod.fst := by
  induction table generalizing last with
  | nil => rfl
  | cons entry rest ih => exact congrArg (entry.1 :: ·) (ih _)

section Filled

variable {β : Type} {key : β → Int} {value : β → Option Int} {last found : Option Int} {line : Int}
  {xs : List β}

theorem exists_key_of_mem_fillFrom
    (h : (line, found) ∈ fillFrom last (xs.map fun x => (key x, value x))) :
    ∃ x ∈ xs, key x = line := by
  have hmem : line ∈ (fillFrom last (xs.map fun x => (key x, value x))).map Prod.fst :=
    mem_map_of_mem h
  rw [map_fst_fillFrom, map_map] at hmem
  exact mem_map.1 hmem

/-- An entry has the last value up to it, or what was known before all of them. -/
theorem cases_of_mem_fillFrom (hincreasing : xs.Pairwise fun x y => key x < key y)
    (h : (line, found) ∈ fillFrom last (xs.map fun x => (key x, value x))) :
    (found = last ∧ ∀ x ∈ xs, key x ≤ line → value x = none) ∨
      ∃ x ∈ xs, key x ≤ line ∧ value x = found ∧ found.isSome ∧
        ∀ y ∈ xs, key x < key y → key y ≤ line → value y = none := by
  induction xs generalizing last with
  | nil => cases h
  | cons first rest ih =>
    obtain ⟨hfirst, hrest⟩ := pairwise_cons.1 hincreasing
    rcases mem_cons.1 h with h | h
    · cases h
      cases hvalue : value first with
      | none => exact .inl ⟨by simp, by grind⟩
      | some found => exact .inr ⟨first, mem_cons_self, by grind⟩
    · obtain ⟨own, hown, hline⟩ := exists_key_of_mem_fillFrom h
      rcases ih hrest h with ⟨hfound, hnone⟩ | ⟨x, hx, hle, hfound, hsome, hlater⟩
      · cases hvalue : value first with
        | none => exact .inl (by grind)
        | some found => exact .inr ⟨first, mem_cons_self, by grind⟩
      · exact .inr ⟨x, mem_cons_of_mem _ hx, hle, hfound, hsome, by grind⟩

end Filled

/-- Filling the entries of increasing records from `low` on. -/
theorem nearest_of_mem_filled {records : List OffsetRecord} {low high line : Int}
    {found : Option Int} (hincreasing : records.Pairwise fun o o' => o.line < o'.line)
    (h : (line, found) ∈ LineMap.filled ((records.filter fun o => low ≤ o.key && o.key ≤ high).map
      fun o => (o.key, mapped? source o))) :
    Nearest source records low line found := by
  have hordered : (records.filter fun o => low ≤ o.key && o.key ≤ high).Pairwise
      fun o o' => o.key < o'.key :=
    (hincreasing.sublist filter_sublist).imp fun hlt => by
      simp only [OffsetRecord.key]
      omega
  have hmem : ∀ o, (o ∈ records.filter fun o => low ≤ o.key && o.key ≤ high) ↔
      o ∈ records ∧ low ≤ o.key ∧ o.key ≤ high := by
    simp
  obtain ⟨own, hown, rfl⟩ := exists_key_of_mem_fillFrom h
  have hhigh := ((hmem own).1 hown).2.2
  rcases cases_of_mem_fillFrom hordered h with ⟨rfl, hnone⟩ | ⟨o, ho, hle, hvalue, hsome, hlater⟩
  · exact .unknown fun o ho hlow hle =>
      mapped?_eq_none (hnone o ((hmem o).2 ⟨ho, hlow, by omega⟩) hle)
  · obtain ⟨value, rfl⟩ := Option.isSome_iff_exists.1 hsome
    obtain ⟨before, r, after, hsource, hshared, hlast, rfl⟩ := exists_of_mapped? hvalue
    obtain ⟨hrecord, hlow, -⟩ := (hmem o).1 ho
    exact .known o r before after hrecord hlow hle hsource hshared hlast fun o' ho' hlt hle' =>
      mapped?_eq_none (hlater o' ((hmem o').2 ⟨ho', by omega, by omega⟩) hlt hle')

end DebugInfo

namespace Display

open DebugInfo (DebugFile ScriptRecord OffsetRecord LineMap lineMaps recordsOf mapped? Nearest)
open Pcode (Block Line SourcesInOrder sourcesOf)

/-- The map of a block is the part of the script's map from the least source of its first line to
the greatest of its last, filled. -/
theorem exists_blockMap_eq {sources : List (List Int)} (hsources : ∀ numbers ∈ sources, numbers ≠ [])
    (hne : sources ≠ []) :
    ∃ low high, IsLeast {n | n ∈ sources.head hne} low ∧
      IsGreatest {n | n ∈ sources.getLast hne} high ∧ ∀ script, blockMap sources script =
        .ok (LineMap.filled (script.filter fun entry => low ≤ entry.1 && entry.1 ≤ high)) := by
  obtain ⟨low, hlow⟩ : ∃ low, (sources.head hne).min? = some low :=
    Option.ne_none_iff_exists'.1 fun hnone =>
      hsources _ (head_mem hne) (min?_eq_none_iff.1 hnone)
  obtain ⟨high, hhigh⟩ : ∃ high, (sources.getLast hne).max? = some high :=
    Option.ne_none_iff_exists'.1 fun hnone =>
      hsources _ (getLast_mem hne) (max?_eq_none_iff.1 hnone)
  refine ⟨low, high, min?_eq_some_iff.1 hlow, max?_eq_some_iff.1 hhigh, fun script => ?_⟩
  unfold blockMap
  rw [head?_eq_some_head hne, getLast?_eq_some_getLast hne]
  simp only [hlow, hhigh, bind, Except.bind, pure, Except.pure]

/-- Lines in order have the least source in the first and the greatest in the last. -/
theorem isHull_of_inOrder {sources : List (List Int)} (horder : SourcesInOrder sources)
    (hne : sources ≠ []) {low high : Int} (hlow : IsLeast {n | n ∈ sources.head hne} low)
    (hhigh : IsGreatest {n | n ∈ sources.getLast hne} high) :
    Span.IsHull ⟨low, high + 1⟩ sources.flatten := by
  have hfirst : [sources.head hne] ++ sources.tail = sources := cons_head_tail hne
  have hlast := dropLast_append_getLast hne
  rw [Span.IsHull, Int.add_sub_cancel]
  constructor
  · have hleast := SourcesInOrder.isLeast_append (n := low) (hfirst.symm ▸ horder)
      (by rwa [flatten_singleton])
    rwa [hfirst] at hleast
  · have hgreatest := SourcesInOrder.isGreatest_append (n := high) (hlast.symm ▸ horder)
      (by rwa [flatten_singleton])
    rwa [hlast] at hgreatest

/-- The entry of a script does not depend on the other scripts that are wanted, it is there if the
script has records, and what it gives for a block are the lines recorded between the least and the
greatest source of the block, each with the nearest ActionScript line. -/
structure FollowsRecords (pcode source : DebugFile) (wanted : Option (List String)) (name : String)
    (sources : List (List Int)) : Prop where
  entry : Keyed.get? (lineMaps pcode source wanted) name =
    Keyed.get? (lineMaps pcode source none) name
  isSome_iff : (Keyed.get? (lineMaps pcode source wanted) name).isSome ↔
    recordsOf pcode source name ≠ []
  block : ∃ range : Span, range.IsHull sources.flatten ∧
    ∀ script, Keyed.get? (lineMaps pcode source wanted) name = some script →
      ∃ table, blockMap sources script = .ok table ∧
        table.map Prod.fst = ((recordsOf pcode source name).map OffsetRecord.key).filter
          (fun line => range.start ≤ line && line < range.stop) ∧
        ∀ entry ∈ table, Nearest source (recordsOf pcode source name) range.start entry.1 entry.2

/-- The maps of normalised blocks, where every module is one script and the p-code records of the
script go forward. -/
theorem blockMap_followsRecords {pcode source : DebugFile} {name text : String}
    {lines : List Line} {blocks : List Block} {block normal : Block} {wanted : Option (List String)}
    (hunique : (source.scripts.map ScriptRecord.module).Nodup)
    (hincreasing : (recordsOf pcode source name).Pairwise fun o o' => o.line < o'.line)
    (hlines : Pcode.readText text = .ok lines) (hblocks : Pcode.splitBlocks lines = .ok blocks)
    (hblock : block ∈ blocks) (hnormal : Pcode.normalizeBlock block = .ok normal)
    (hne : normal.lines ≠ []) (hwanted : wanted.all (·.contains name)) :
    FollowsRecords pcode source wanted name (sourcesOf normal.lines) := by
  obtain ⟨horder, -⟩ := Pcode.inOrder_normalizeBlock hlines hblocks hblock hnormal
  have hsources : sourcesOf normal.lines ≠ [] := by simpa [sourcesOf] using hne
  obtain ⟨low, high, hlow, hhigh, hmap⟩ := exists_blockMap_eq horder.nonempty hsources
  have hentry := @DebugInfo.get?_lineMaps pcode source name wanted hunique hwanted
  have hentry' := @DebugInfo.get?_lineMaps pcode source name none hunique rfl
  refine ⟨hentry.trans hentry'.symm, ?_, ⟨low, high + 1⟩,
    isHull_of_inOrder horder hsources hlow hhigh, fun script hscript => ?_⟩
  · by_cases hrecords : recordsOf pcode source name = []
    · simp [hentry, hrecords]
    · simp [DebugInfo.get?_lineMaps_of_increasing hunique hwanted hincreasing hrecords, hrecords]
  have hrecords : recordsOf pcode source name ≠ [] := by
    intro hrecords
    rw [hentry, hrecords] at hscript
    cases hscript
  rw [DebugInfo.get?_lineMaps_of_increasing hunique hwanted hincreasing hrecords] at hscript
  cases hscript
  refine ⟨_, hmap _, ?_, fun entry hentry => ?_⟩
  · rw [LineMap.filled, DebugInfo.map_fst_fillFrom, filter_map, filter_map, map_map]
    simp only [Function.comp_def, Int.lt_add_one_iff]
  · rw [filter_map] at hentry
    exact DebugInfo.nearest_of_mem_filled hincreasing hentry

/-- Four lines with offsets, of which two have ActionScript lines; one is recorded twice. -/
def stepPcode : DebugFile :=
  ⟨[], [⟨7, 1, 10⟩, ⟨7, 2, 14⟩, ⟨8, 2, 14⟩, ⟨7, 3, 20⟩, ⟨7, 4, 25⟩, ⟨7, 9, 40⟩], []⟩

def stepSource : DebugFile :=
  ⟨[⟨7, 0, "main:\\s\\A", ""⟩, ⟨8, 0, "main:/s/B", ""⟩],
    [⟨7, 5, 14⟩, ⟨7, 6, 14⟩, ⟨8, 2, 20⟩, ⟨7, 9, 25⟩], []⟩

theorem followsRecords_joinedStep :
    Keyed.get? (lineMaps stepPcode stepSource (some ["s/A"])) "s/A" =
        some [(0, none), (1, some 5), (2, none), (3, some 8), (8, none)] ∧
      (blockMap (sourcesOf (joinedStepNormal [0, 1] [2, 3]))
        [(0, none), (1, some 5), (2, none), (3, some 8), (8, none)]).toOption =
          some [(0, none), (1, some 5), (2, some 5), (3, some 8)] ∧
      FollowsRecords stepPcode stepSource (some ["s/A"]) "s/A"
        (sourcesOf (joinedStepNormal [0, 1] [2, 3])) :=
  ⟨by decide +kernel, by decide +kernel,
    blockMap_followsRecords (by decide) (by decide +kernel) readText_joinedStep
      splitBlocks_joinedStep mem_cons_self normalizeBlock_joinedStep (cons_ne_nil _ _) (by decide)⟩

end Display

end MovieDiff
