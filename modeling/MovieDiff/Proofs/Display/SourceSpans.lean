import MovieDiff.Display.BlockText
import MovieDiff.Proofs.Matching.EditScript

/-!
Spans of ActionScript lines. A span of p-code lines is taken to ActionScript through a sparse map,
whose values stand in no order. Main statement: as long as the map leads into the script, every
span that is found lies in the script, the right way round, and the check that it does never fails.
-/
namespace MovieDiff

open List
open DebugInfo (LineMap)

def DebugInfo.LineMap.values (table : LineMap) : List Int :=
  table.filterMap Prod.snd

/-- Every line that a map leads to is a line of a script of so many lines. -/
def DebugInfo.LineMap.LeadsInto (table : LineMap) (count : Nat) : Prop :=
  ∀ line ∈ table.values, 0 ≤ line ∧ line < count

instance (table : LineMap) (count : Nat) : Decidable (table.LeadsInto count) :=
  inferInstanceAs (Decidable (∀ line ∈ table.values, _))

namespace Display

variable {line value : Int} (sources : List (List Int))

variable {table : LineMap} {count window : Nat} {span found : Span}

/-! ### Looking up lines -/

theorem mem_values_of_mem (h : (line, some value) ∈ table) : value ∈ table.values :=
  mem_filterMap.2 ⟨(line, some value), h, rfl⟩

theorem mem_of_line? (h : table.line? line = some value) : (line, some value) ∈ table := by
  unfold DebugInfo.LineMap.line? Keyed.get? at h
  have hlookup : table.lookup line = some (some value) := by
    cases hfound : table.lookup line with
    | none => rw [hfound] at h; cases h
    | some mapped => rw [hfound] at h; exact congrArg some h
  obtain ⟨before, after, htable, -⟩ := lookup_eq_some_iff.1 hlookup
  rw [htable]
  exact mem_append_right _ mem_cons_self

theorem mem_values_of_line? (h : table.line? line = some value) : value ∈ table.values :=
  mem_values_of_mem (mem_of_line? h)

theorem mem_values_of_mappedBefore? {start : Int}
    (h : mappedBefore? table start window = some value) : value ∈ table.values := by
  obtain ⟨n, -, hvalue⟩ := exists_of_findSome?_eq_some h
  dsimp only at hvalue
  split at hvalue
  · cases hvalue
  · exact mem_values_of_line? hvalue

theorem mem_values_of_mappedAfter? {start : Int}
    (h : mappedAfter? table start window = some value) : value ∈ table.values := by
  obtain ⟨n, -, hvalue⟩ := exists_of_findSome?_eq_some h
  exact mem_values_of_line? hvalue

/-- A line that is looked for in one way and then in another. -/
theorem mem_values_of_or {first second : Option Int}
    (hfirst : ∀ line, first = some line → line ∈ table.values)
    (hsecond : ∀ line, second = some line → line ∈ table.values)
    (h : first.or second = some value) : value ∈ table.values := by
  rcases Option.or_eq_some_iff.1 h with h | ⟨-, h⟩
  · exact hfirst value h
  · exact hsecond value h

theorem mem_values_of_mem_mappedWithin (h : value ∈ mappedWithin table span) :
    value ∈ table.values := by
  obtain ⟨⟨line, mapped⟩, hentry, hvalue⟩ := mem_filterMap.1 h
  dsimp only at hvalue
  split at hvalue
  · rw [hvalue] at hentry
    exact mem_values_of_mem hentry
  · cases hvalue

/-! ### Spans -/

/-- What is found for a span: a span of the script that is empty just if the span is, and that
reaches from one mapped line through another if the span is not. -/
structure Resolves (table : LineMap) (count : Nat) (span found : Span) : Prop where
  fits : found.FitsIn count
  empty_iff : found.start = found.stop ↔ span.start = span.stop
  ends : span.start < span.stop →
    found.start ∈ table.values ∧ found.stop - 1 ∈ table.values

/-- Two mapped lines in order give a span of the script. -/
theorem resolves_of_mem (htable : table.LeadsInto count) (hspan : span.start ≠ span.stop)
    {first last : Int} (hfirst : first ∈ table.values) (hlast : last ∈ table.values)
    (hle : first ≤ last) : Resolves table count span ⟨first, last + 1⟩ := by
  obtain ⟨hpos, -⟩ := htable first hfirst
  obtain ⟨-, hlt⟩ := htable last hlast
  refine ⟨⟨hpos, ?_, ?_⟩, ?_, fun _ => ⟨hfirst, ?_⟩⟩
  · show first ≤ last + 1
    omega
  · show last + 1 ≤ count
    omega
  · refine iff_of_false ?_ hspan
    show first ≠ last + 1
    omega
  · show last + 1 - 1 ∈ table.values
    rwa [Int.add_sub_cancel]

/-- A covering span resolves its span. -/
theorem resolves_coveringSpan? (htable : table.LeadsInto count) (hspan : span.start ≠ span.stop)
    (h : coveringSpan? table span = some found) : Resolves table count span found := by
  unfold coveringSpan? at h
  cases hwithin : mappedWithin table span with
  | nil =>
    rw [hwithin] at h
    cases h
  | cons first rest =>
    rw [hwithin] at h
    cases h
    have hmem : ∀ line ∈ first :: rest, line ∈ table.values := by
      intro line hline
      rw [← hwithin] at hline
      exact mem_values_of_mem_mappedWithin hline
    have hmin? : (first :: rest).min? = some (rest.foldl min first) := min?_cons'
    have hmax? : (first :: rest).max? = some (rest.foldl max first) := max?_cons'
    obtain ⟨hleast, hmin⟩ := min?_eq_some_iff.1 hmin?
    obtain ⟨hgreatest, -⟩ := max?_eq_some_iff.1 hmax?
    exact resolves_of_mem htable hspan (hmem _ hleast) (hmem _ hgreatest) (hmin _ hgreatest)

theorem resolves_anchorSpan? (htable : table.LeadsInto count) (hspan : span.start = span.stop)
    (h : anchorSpan? table span.start window = some found) : Resolves table count span found := by
  have hempty : ¬ span.start < span.stop := by omega
  unfold anchorSpan? at h
  dsimp only at h
  split at h
  · obtain ⟨line, hline, rfl⟩ := Option.map_eq_some_iff.1 h
    have hmem : line ∈ table.values :=
      mem_values_of_or (fun _ => mem_values_of_line?) (fun _ => mem_values_of_mappedBefore?) hline
    obtain ⟨hpos, hlt⟩ := htable line hmem
    refine ⟨⟨?_, Int.le_refl _, ?_⟩, iff_of_true rfl hspan, fun hlt => absurd hlt hempty⟩
    · show 0 ≤ line + 1
      omega
    · show line + 1 ≤ count
      omega
  · obtain ⟨line, hline, rfl⟩ := Option.map_eq_some_iff.1 h
    have hmem : line ∈ table.values :=
      mem_values_of_or (fun _ => mem_values_of_line?) (fun _ => mem_values_of_mappedAfter?) hline
    obtain ⟨hpos, hlt⟩ := htable line hmem
    exact ⟨⟨hpos, Int.le_refl _, Int.le_of_lt hlt⟩, iff_of_true rfl hspan,
      fun hlt => absurd hlt hempty⟩

/-- Whatever is found for a span resolves it. -/
theorem resolves_sourceSpan? (htable : table.LeadsInto count)
    (h : sourceSpan? table span window = some found) : Resolves table count span found := by
  unfold sourceSpan? at h
  split at h
  · cases h
  split at h
  next hspan => exact resolves_anchorSpan? htable hspan h
  next hspan =>
    dsimp only at h
    split at h
    next start last hstart hlast =>
      split at h
      · exact resolves_coveringSpan? htable hspan h
      next hle =>
        cases h
        have hfirst : start ∈ table.values :=
          mem_values_of_or (fun _ => mem_values_of_or (fun _ => mem_values_of_line?)
            fun _ => mem_values_of_mappedBefore?) (fun _ => mem_values_of_mappedAfter?) hstart
        have hlast' : last ∈ table.values :=
          mem_values_of_or (fun _ => mem_values_of_or (fun _ => mem_values_of_line?)
            fun _ => mem_values_of_mappedAfter?) (fun _ => mem_values_of_mappedBefore?) hlast
        exact resolves_of_mem htable hspan hfirst hlast' (Int.not_lt.1 hle)
    · cases h

/-- Without a mapped line nothing is found. -/
theorem sourceSpan?_of_values_nil (h : table.values = []) (span : Span) (window : Nat) :
    sourceSpan? table span window = none := by
  have hnone : table.all fun entry => entry.2.isNone := by
    rw [all_eq_true]
    rintro ⟨line, mapped⟩ hentry
    cases mapped with
    | none => rfl
    | some value =>
      have hmem := mem_values_of_mem hentry
      rw [h] at hmem
      cases hmem
  rw [sourceSpan?, if_pos hnone]

/-- A span is found if its first and its last line are mapped, in whatever order. -/
theorem isSome_sourceSpan? {first last : Int} (hspan : span.start < span.stop)
    (hfirst : table.line? span.start = some first)
    (hlast : table.line? (span.stop - 1) = some last) (window : Nat) :
    (sourceSpan? table span window).isSome := by
  obtain ⟨entry, hentry, hvalue⟩ := mem_filterMap.1 (mem_values_of_line? hfirst)
  have hmapped : ¬ table.all fun entry => entry.2.isNone := by
    intro hnone
    have := all_eq_true.1 hnone entry hentry
    rw [hvalue] at this
    cases this
  rw [sourceSpan?, if_neg hmapped, if_neg (Int.ne_of_lt hspan), hfirst, hlast]
  dsimp only [Option.or]
  split
  · have hwithin : first ∈ mappedWithin table span := by
      refine mem_filterMap.2 ⟨(span.start, some first), mem_of_line? hfirst, ?_⟩
      exact if_pos ⟨Int.le_refl _, hspan⟩
    unfold coveringSpan?
    split
    next hnil =>
      rw [hnil] at hwithin
      cases hwithin
    · rfl
  · rfl

/-! ### The check of what is found -/

def isOutsideScript : Fault → Bool
  | .spanOutsideScript .. => true
  | _ => false

/-- The computation does not end in a span outside its script. -/
def StaysInside {α : Type} (result : Except Fault α) : Prop :=
  ∀ fault, result = .error fault → isOutsideScript fault = false

namespace StaysInside

variable {α β : Type}

theorem ok (a : α) : StaysInside (.ok a) := by
  intro fault h
  cases h

theorem error {fault : Fault} (h : isOutsideScript fault = false) :
    StaysInside (.error fault : Except Fault α) := by
  intro fault' h'
  cases h'
  exact h

theorem throw_bind {fault : Fault} {next : α → Except Fault β}
    (h : isOutsideScript fault = false) : StaysInside (throw fault >>= next) :=
  error h

theorem ite {c : Prop} [Decidable c] {yes no : Except Fault α} (hyes : StaysInside yes)
    (hno : StaysInside no) : StaysInside (if c then yes else no) := by
  split
  · exact hyes
  · exact hno

theorem bind {result : Except Fault α} {next : α → Except Fault β} (h : StaysInside result)
    (hnext : ∀ a, StaysInside (next a)) : StaysInside (result >>= next) := by
  cases result with
  | error fault => exact error (h fault rfl)
  | ok a => exact hnext a

theorem mapM {f : α → Except Fault β} (h : ∀ a, StaysInside (f a)) (xs : List α) :
    StaysInside (xs.mapM f) := by
  induction xs with
  | nil => exact ok []
  | cons x xs ih =>
    rw [mapM_cons]
    exact (h x).bind fun y => ih.bind fun ys => ok (y :: ys)

end StaysInside

theorem staysInside_leastSource : StaysInside (leastSource sources) := by
  unfold leastSource
  split
  · exact .ok _
  · exact .error rfl

theorem staysInside_greatestSource : StaysInside (greatestSource sources) := by
  unfold greatestSource
  split
  · exact .ok _
  · exact .error rfl

theorem staysInside_rawSpan (span : Span) : StaysInside (rawSpan sources span) := by
  unfold rawSpan
  refine .ite (.throw_bind rfl) (.ite (.throw_bind rfl) (.ite (.ite ?_ ?_) ?_))
  · exact (staysInside_greatestSource _).bind fun _ => .ok _
  · exact (staysInside_leastSource _).bind fun _ => .ok _
  · exact (staysInside_leastSource _).bind fun _ =>
      (staysInside_greatestSource _).bind fun _ => .ok _

theorem staysInside_sideSources (side : BlockSide) : StaysInside (sideSources side) := by
  unfold sideSources
  split
  · exact .ok _
  · exact .error rfl

/-- A span of the script passes the check. -/
theorem staysInside_checkSpan {side : BlockSide} (h : found.FitsIn side.lineCount)
    (label : String) (origin : Span) : StaysInside (checkSpan label side origin found) := by
  unfold checkSpan
  split
  · exact .error rfl
  · unfold Span.FitsIn at h
    rw [if_pos h]
    exact .ok _

section Sides

variable {left right side : BlockSide} (hleft : left.map.LeadsInto left.lineCount)
  (hright : right.map.LeadsInto right.lineCount) (hside : side.map.LeadsInto side.lineCount)

include hleft hright in
theorem staysInside_resolvePaired (spans : List SpanPair) :
    StaysInside (resolvePaired left right spans) := by
  refine (staysInside_sideSources left).bind fun leftSources => ?_
  refine (staysInside_sideSources right).bind fun rightSources => ?_
  refine (StaysInside.mapM (fun s => ?_) spans).bind fun raw => ?_
  · exact (staysInside_rawSpan _ s.left).bind fun _ =>
      (staysInside_rawSpan _ s.right).bind fun _ => .ok _
  refine (StaysInside.mapM (fun s => ?_) raw).bind fun found => .ok _
  unfold resolvePair
  split
  next x y hx hy =>
    exact (staysInside_checkSpan (resolves_sourceSpan? hleft hx).fits _ _).bind fun _ =>
      (staysInside_checkSpan (resolves_sourceSpan? hright hy).fits _ _).bind fun _ => .ok _
  · exact .ok _

include hside in
theorem staysInside_resolveWhole (label : String) : StaysInside (resolveWhole label side) := by
  refine (staysInside_sideSources side).bind fun sources => ?_
  refine (staysInside_rawSpan _ _).bind fun raw => ?_
  split
  next span hspan =>
    exact (staysInside_checkSpan (resolves_sourceSpan? hside hspan).fits _ _).bind fun _ => .ok _
  · exact .ok _

end Sides

def LeadInto (sides : Sides BlockSide) : Prop :=
  ∀ side, sides.left? = some side ∨ sides.right? = some side → side.map.LeadsInto side.lineCount

/-- Maps into the scripts never lead outside. -/
theorem staysInside_resolveBlock {sides : Sides BlockSide} (h : LeadInto sides)
    (spans : List SpanPair) : StaysInside (resolveBlock sides spans) := by
  cases sides with
  | both left right =>
    exact (staysInside_resolvePaired (h left (.inl rfl)) (h right (.inr rfl)) spans).bind
      fun _ => .ok _
  | left side => exact (staysInside_resolveWhole (h side (.inl rfl)) "A").bind fun _ => .ok _
  | right side => exact (staysInside_resolveWhole (h side (.inr rfl)) "B").bind fun _ => .ok _

/-- A map that leads into a script takes every span into it: what is found is a span of the script,
empty just if the span is, and reaching from one mapped line through another if it is not. A span
is found if its first and last line are mapped, and none is where no line is. So the check of a
block's spans never fails, whatever the block and its spans. -/
theorem sourceSpan?_inside_script (table : LineMap) (count : Nat) (htable : table.LeadsInto count)
    (sides : Sides BlockSide) (hsides : LeadInto sides) (spans : List SpanPair) :
    (∀ span window,
      (∀ found, sourceSpan? table span window = some found → Resolves table count span found) ∧
      (span.start < span.stop → (table.line? span.start).isSome →
        (table.line? (span.stop - 1)).isSome → (sourceSpan? table span window).isSome) ∧
      (table.values = [] → sourceSpan? table span window = none)) ∧
    StaysInside (resolveBlock sides spans) := by
  refine ⟨fun span window => ⟨fun found => resolves_sourceSpan? htable, ?_,
    fun h => sourceSpan?_of_values_nil h span window⟩, staysInside_resolveBlock hsides spans⟩
  intro hspan hfirst hlast
  obtain ⟨first, hfirst⟩ := Option.isSome_iff_exists.1 hfirst
  obtain ⟨last, hlast⟩ := Option.isSome_iff_exists.1 hlast
  exact isSome_sourceSpan? hspan hfirst hlast window

/-- A loop: its condition stands last in p-code and first in ActionScript, and one line is not
mapped. -/
def loopMap : LineMap :=
  [(0, some 2), (1, none), (2, some 3), (3, some 1)]

def loopSide : BlockSide :=
  ⟨some (Path.ofString "frame_1.pcode"), "loop", some [[0], [1, 2], [3]], loopMap, 4⟩

/-- The whole of the loop, whose ends are inverted, and a place behind it. -/
def loopSpans : List SpanPair :=
  [⟨⟨0, 3⟩, ⟨1, 3⟩⟩, ⟨⟨3, 3⟩, ⟨3, 3⟩⟩]

theorem resolveBlock_loop_inside :
    loopMap.LeadsInto 4 ∧ Resolves loopMap 4 ⟨0, 4⟩ ⟨1, 4⟩ ∧
      StaysInside (resolveBlock (.both loopSide loopSide) loopSpans) := by
  have hmap : loopMap.LeadsInto 4 := by decide
  have hsides : LeadInto (.both loopSide loopSide) := by
    rintro side (hside | hside)
    · rw [← Option.some.inj hside]
      exact hmap
    · rw [← Option.some.inj hside]
      exact hmap
  obtain ⟨hfound, hinside⟩ :=
    sourceSpan?_inside_script loopMap 4 hmap (.both loopSide loopSide) hsides loopSpans
  exact ⟨hmap, (hfound ⟨0, 4⟩ defaultWindow).1 _ (by decide), hinside⟩

end Display

end MovieDiff
