import MovieDiff.Layout.Unified
import MovieDiff.Proofs.Matching.Regions

/-!
What the unified layout says, apart from how it looks. Each pair of annotated hunks that has lines
is one hunk with the two ranges of its header and a body of context, deletions and additions; and
the layout prints these hunks and nothing else. For two hunks that were marked against each other
the context and deletions are the left one, and the context and additions are the right one.
-/
namespace MovieDiff.Layout

open List
open Text (StyledText)
open Hunk (texts marked)

inductive DiffLine where
  | context (text : String)
  | deletion (text : String)
  | addition (text : String)
  deriving DecidableEq, Repr

/-- A hunk of a unified diff: the numbers in its header, and the lines below it. -/
structure UnifiedHunk where
  leftStart : Int
  leftLength : Nat
  rightStart : Int
  rightLength : Nat
  body : List DiffLine
  deriving DecidableEq, Repr

/-! ### Printing -/

def DiffLine.print : DiffLine → Except Fault StyledText
  | .context text => .ok (.ofPlain (" " ++ text))
  | .deletion text => inStyle "red" (Text.Markup.escape ("-" ++ text))
  | .addition text => inStyle "green" (Text.Markup.escape ("+" ++ text))

def UnifiedHunk.print (hunk : UnifiedHunk) : Except Fault (List StyledText) := do
  let header ← inStyle "cyan"
    (hunkHeader hunk.leftStart hunk.leftLength hunk.rightStart hunk.rightLength)
  return header :: (← hunk.body.mapM DiffLine.print)

def printUnified (leftPath rightPath : Option String) (hunks : List UnifiedHunk) :
    Except Fault (List StyledText) := do
  if leftPath.isNone && rightPath.isNone then throw .noUnifiedSide
  let leftHeader ← inStyle "bold" (Text.Markup.escape (fileHeader leftPath .a))
  let rightHeader ← inStyle "bold" (Text.Markup.escape (fileHeader rightPath .b))
  return leftHeader :: rightHeader :: (← hunks.mapM UnifiedHunk.print).flatten

def segmentBody (left right : Hunk) : List DiffLine :=
  if startsWithContext left || startsWithContext right then
    left.map fun line => .context line.text
  else
    (left.map fun line => .deletion line.text) ++ right.map fun line => .addition line.text

def UnifiedHunk.ofAnnotated? (left right : AnnotatedHunk) : Option UnifiedHunk :=
  if left.lines.isEmpty && right.lines.isEmpty then none
  else some ⟨startNumber left.lines, left.lines.length, startNumber right.lines,
    right.lines.length, (left.zip right).flatMap fun (x, y) => segmentBody x y⟩

theorem mapM_print_segmentBody (left right : Hunk) :
    (segmentBody left right).mapM DiffLine.print = segmentLines left right := by
  unfold segmentBody segmentLines
  split
  · rw [mapM_map]
    exact mapM_pure
  · rw [mapM_append, mapM_map, mapM_map]
    rfl

theorem mapM_flatMap {ε α β γ : Type} (f : α → List β) (g : β → Except ε γ) (xs : List α) :
    (xs.flatMap f).mapM g = (xs.mapM fun x => (f x).mapM g).map List.flatten := by
  induction xs with
  | nil => rfl
  | cons x xs ih =>
    rw [flatMap_cons, mapM_append, ih, mapM_cons]
    cases (f x).mapM g with
    | error e => rfl
    | ok ys => cases xs.mapM (fun x => (f x).mapM g) <;> rfl

/-- A pair prints its hunk, if it has lines. -/
theorem pairLines_eq_print (left right : AnnotatedHunk) :
    pairLines left right = match UnifiedHunk.ofAnnotated? left right with
      | some hunk => hunk.print
      | none => .ok [] := by
  unfold pairLines UnifiedHunk.ofAnnotated?
  by_cases hempty : (left.lines.isEmpty && right.lines.isEmpty) = true
  · rw [if_pos hempty, if_pos hempty]
    rfl
  · rw [if_neg hempty, if_neg hempty]
    have hbody : ((left.zip right).flatMap fun (x, y) => segmentBody x y).mapM DiffLine.print =
        ((left.zip right).mapM fun (x, y) => segmentLines x y).map List.flatten := by
      rw [mapM_flatMap]
      simp only [mapM_print_segmentBody]
    dsimp only [UnifiedHunk.print]
    rw [hbody]
    cases inStyle "cyan" (hunkHeader (startNumber left.lines) left.lines.length
        (startNumber right.lines) right.lines.length) with
    | error fault => rfl
    | ok header => cases (left.zip right).mapM (fun (x, y) => segmentLines x y) <;> rfl

theorem map_flatten_cons {ε γ : Type} (lines : List γ) (rest : Except ε (List (List γ))) :
    (do return lines :: (← rest) : Except ε (List (List γ))).map List.flatten =
      (rest.map List.flatten).map (lines ++ ·) := by
  cases rest <;> rfl

theorem mapM_pairLines (pairs : List (AnnotatedHunk × AnnotatedHunk)) :
    (pairs.mapM fun (x, y) => pairLines x y).map List.flatten =
      ((pairs.filterMap fun (x, y) => UnifiedHunk.ofAnnotated? x y).mapM UnifiedHunk.print).map
        List.flatten := by
  induction pairs with
  | nil => rfl
  | cons pair pairs ih =>
    obtain ⟨x, y⟩ := pair
    rw [mapM_cons, filterMap_cons]
    dsimp only
    rw [pairLines_eq_print]
    cases UnifiedHunk.ofAnnotated? x y with
    | none =>
      dsimp only
      rw [← ih]
      cases pairs.mapM (fun (x, y) => pairLines x y) <;> rfl
    | some hunk =>
      dsimp only
      rw [mapM_cons]
      cases hunk.print with
      | error fault => rfl
      | ok lines =>
        change (do return lines :: (← _) : Except Fault (List (List StyledText))).map _ =
          (do return lines :: (← _) : Except Fault (List (List StyledText))).map _
        rw [map_flatten_cons, map_flatten_cons, ih]

/-- The layout prints the hunks of the pairs that have lines. -/
theorem unifiedLines_eq_printUnified (leftPath rightPath : Option String)
    (pairs : List (AnnotatedHunk × AnnotatedHunk)) :
    unifiedLines leftPath rightPath pairs = printUnified leftPath rightPath
      (pairs.filterMap fun (x, y) => UnifiedHunk.ofAnnotated? x y) := by
  have hbody : ∀ (leftHeader rightHeader : StyledText)
      (lines : Except Fault (List (List StyledText))),
      (do return leftHeader :: rightHeader :: (← lines).flatten : Except Fault _) =
        (lines.map List.flatten).map fun body => leftHeader :: rightHeader :: body := by
    intro leftHeader rightHeader lines
    cases lines <;> rfl
  unfold unifiedLines printUnified
  simp only [hbody, mapM_pairLines]

/-! ### Marked hunks -/

def DiffLine.left? : DiffLine → Option String
  | .context text => some text
  | .deletion text => some text
  | .addition _ => none

def DiffLine.right? : DiffLine → Option String
  | .context text => some text
  | .deletion _ => none
  | .addition text => some text

/-- Context and deletions. -/
def UnifiedHunk.before (hunk : UnifiedHunk) : List String :=
  hunk.body.filterMap DiffLine.left?

/-- Context and additions. -/
def UnifiedHunk.after (hunk : UnifiedHunk) : List String :=
  hunk.body.filterMap DiffLine.right?

theorem texts_left (r : Region) (hunk : Hunk) : texts (r.left hunk) = r.left (texts hunk) := by
  unfold texts Region.left
  rw [map_drop, map_take]

theorem texts_right (r : Region) (hunk : Hunk) :
    texts (r.right hunk) = r.right (texts hunk) := by
  unfold texts Region.right
  rw [map_drop, map_take]

theorem texts_marked (mark : Mark) (hunk : Hunk) :
    texts (marked mark hunk) = texts hunk := by
  unfold texts marked
  rw [map_map]
  rfl

theorem startsWithContext_marked_context {hunk : Hunk} (h : hunk ≠ []) :
    startsWithContext (marked .context hunk) = true := by
  cases hunk with
  | nil => exact absurd rfl h
  | cons line rest => rfl

theorem startsWithContext_marked_of_ne {mark : Mark} (hmark : mark ≠ .context) (hunk : Hunk) :
    startsWithContext (marked mark hunk) = false := by
  cases hunk with
  | nil => rfl
  | cons line rest => exact beq_eq_false_iff_ne.2 hmark

/-- A segment with the same lines on both sides stands for them once. -/
theorem segmentBody_of_same {left right : Hunk} (hleft : left ≠ [])
    (hsame : texts left = texts right) :
    let body := segmentBody (marked .context left) (marked .context right)
    body.filterMap DiffLine.left? = texts left ∧
      body.filterMap DiffLine.right? = texts right := by
  dsimp only
  rw [segmentBody, startsWithContext_marked_context hleft, ← hsame, ← texts_marked .context left]
  simp [texts, filterMap_map, Function.comp_def, DiffLine.left?, DiffLine.right?]

theorem segmentBody_of_different (left right : Hunk) :
    let body := segmentBody (marked .deletion left) (marked .addition right)
    body.filterMap DiffLine.left? = texts left ∧
      body.filterMap DiffLine.right? = texts right := by
  dsimp only
  rw [segmentBody, startsWithContext_marked_of_ne (by decide),
    startsWithContext_marked_of_ne (by decide), ← texts_marked .deletion left,
    ← texts_marked .addition right]
  simp [texts, filterMap_map, Function.comp_def, DiffLine.left?, DiffLine.right?]

section Annotated

variable (a b : Hunk)

/-- The segments of a region, one for each side. -/
def markedRegion (r : Region) : Hunk × Hunk :=
  (marked (if r.same then .context else .deletion) (r.left a),
    marked (if r.same then .context else .addition) (r.right b))

theorem zip_annotate : (annotate a b).1.zip (annotate a b).2 =
    (regions (texts a) (texts b)).map (markedRegion a b) :=
  zip_map'

/-- A region keeps the lines of both sides. -/
theorem segmentBody_markedRegion {r : Region} (h : r ∈ regions (texts a) (texts b)) :
    (segmentBody (markedRegion a b r).1 (markedRegion a b r).2).filterMap DiffLine.left? =
        r.left (texts a) ∧
      (segmentBody (markedRegion a b r).1 (markedRegion a b r).2).filterMap DiffLine.right? =
        r.right (texts b) := by
  rw [← texts_left, ← texts_right]
  unfold markedRegion
  cases hsame : r.same with
  | true =>
    obtain ⟨heq, hne⟩ := left_eq_right_of_same h hsame
    rw [← texts_left, ← texts_right] at heq
    rw [← texts_left] at hne
    refine segmentBody_of_same (fun hnil => hne ?_) heq
    rw [hnil]
    rfl
  | false => exact segmentBody_of_different _ _

omit a b in
theorem map_index_marked (mark : Mark) (hunk : Hunk) :
    (marked mark hunk).map HunkLine.index = hunk.map HunkLine.index := by
  rw [marked, map_map]
  rfl

omit a b in
/-- Marking the parts of a hunk changes no more than the marks. -/
theorem marked_flatten_map {hunk : Hunk} {rs : List Region} (mark : Region → Mark)
    {part : Region → Hunk} (h : rs.flatMap part = hunk) :
    marked .plain (rs.map fun r => marked (mark r) (part r)).flatten = marked .plain hunk := by
  subst h
  simp only [marked, map_flatten, map_map, flatMap_def, Function.comp_def]

/-- Annotating changes marks only. -/
theorem marked_lines_annotate :
    marked .plain (annotate a b).1.lines = marked .plain a ∧
      marked .plain (annotate a b).2.lines = marked .plain b := by
  have hparts := @flatMap_regions _ _ (texts a) (texts b) _ _ a b (length_map _).symm
    (length_map _).symm
  exact ⟨marked_flatten_map _ hparts.1, marked_flatten_map _ hparts.2⟩

theorem map_index_lines_annotate :
    (annotate a b).1.lines.map HunkLine.index = a.map HunkLine.index ∧
      (annotate a b).2.lines.map HunkLine.index = b.map HunkLine.index := by
  obtain ⟨hleft, hright⟩ := marked_lines_annotate a b
  rw [← map_index_marked .plain a, ← map_index_marked .plain b, ← hleft, ← hright,
    map_index_marked, map_index_marked]
  exact ⟨rfl, rfl⟩

omit a b in
theorem startNumber_eq_of_map_index {a b : Hunk}
    (h : a.map HunkLine.index = b.map HunkLine.index) : startNumber a = startNumber b := by
  cases a with
  | nil =>
    cases b with
    | nil => rfl
    | cons y b => cases h
  | cons x a =>
    cases b with
    | nil => cases h
    | cons y b =>
      rw [map_cons, map_cons, List.cons.injEq] at h
      exact congrArg (· + 1) h.1

/-- Two hunks marked against each other, not both empty, make one hunk of the layout. Its numbers
and its lines are those of the two. -/
theorem ofAnnotated?_annotate (hne : a ≠ [] ∨ b ≠ []) :
    ∃ hunk, UnifiedHunk.ofAnnotated? (annotate a b).1 (annotate a b).2 = some hunk ∧
      hunk.leftStart = startNumber a ∧ hunk.leftLength = a.length ∧
      hunk.rightStart = startNumber b ∧ hunk.rightLength = b.length ∧
      hunk.before = texts a ∧ hunk.after = texts b := by
  obtain ⟨hleft, hright⟩ := map_index_lines_annotate a b
  have hlength : (annotate a b).1.lines.length = a.length := by
    rw [← length_map HunkLine.index, hleft, length_map]
  have hlength' : (annotate a b).2.lines.length = b.length := by
    rw [← length_map HunkLine.index, hright, length_map]
  have hempty : ¬ ((annotate a b).1.lines.isEmpty && (annotate a b).2.lines.isEmpty) = true := by
    rw [Bool.and_eq_true, isEmpty_iff_length_eq_zero, isEmpty_iff_length_eq_zero, hlength,
      hlength', length_eq_zero_iff, length_eq_zero_iff]
    rintro ⟨ha, hb⟩
    exact hne.elim (absurd ha) (absurd hb)
  have hbody : ((annotate a b).1.zip (annotate a b).2).flatMap (fun (x, y) => segmentBody x y) =
      (regions (texts a) (texts b)).flatMap fun r =>
        segmentBody (markedRegion a b r).1 (markedRegion a b r).2 := by
    rw [zip_annotate, flatMap_map]
  refine ⟨_, if_neg hempty, startNumber_eq_of_map_index hleft, hlength,
    startNumber_eq_of_map_index hright, hlength', ?_, ?_⟩
  · rw [UnifiedHunk.before, hbody, filterMap_flatMap, flatMap_def,
      map_congr_left fun r hr => (segmentBody_markedRegion a b hr).1, ← flatMap_def]
    exact (flatMap_regions rfl rfl).1
  · rw [UnifiedHunk.after, hbody, filterMap_flatMap, flatMap_def,
      map_congr_left fun r hr => (segmentBody_markedRegion a b hr).2, ← flatMap_def]
    exact (flatMap_regions rfl rfl).2

end Annotated

end MovieDiff.Layout
