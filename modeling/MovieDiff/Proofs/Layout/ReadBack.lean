import MovieDiff.Proofs.Layout.Unified
import MovieDiff.Proofs.Pcode.SourceMap
import MovieDiff.Proofs.Text.Markup

/-!
The unified layout, read back. A reader takes the header of a hunk for its numbers and the first
character of any other line for its sign. Main statement: hunks marked against each other lose
nothing, and where rendering keeps the lines, the layout of any number of them is read back as the
two sides of each pair with lines, numbers and all.
-/
namespace MovieDiff

open List

/-! ### Marked hunks -/

structure Hunk.IsShared (x y : Hunk) : Prop where
  nonempty : x ≠ []
  texts_eq : Hunk.texts x = Hunk.texts y
  left_marks : ∀ line ∈ x, line.mark = .context
  right_marks : ∀ line ∈ y, line.mark = .context

structure Hunk.IsReplaced (x y : Hunk) : Prop where
  nonempty : x ≠ [] ∨ y ≠ []
  left_marks : ∀ line ∈ x, line.mark = .deletion
  right_marks : ∀ line ∈ y, line.mark = .addition

/-- How two hunks are marked against each other: segment by segment, and up to their marks the
lines are those of the hunks. -/
structure IsAnnotation (a b : Hunk) (left right : AnnotatedHunk) : Prop where
  length_eq : left.length = right.length
  left_lines : Hunk.marked .plain left.lines = Hunk.marked .plain a
  right_lines : Hunk.marked .plain right.lines = Hunk.marked .plain b
  segments : ∀ s ∈ left.zip right, Hunk.IsShared s.1 s.2 ∨ Hunk.IsReplaced s.1 s.2

variable {mark : Mark} {hunk : Hunk}

theorem Hunk.mark_of_mem_marked {line : HunkLine} (h : line ∈ Hunk.marked mark hunk) :
    line.mark = mark := by
  obtain ⟨line, -, rfl⟩ := mem_map.1 h
  rfl

theorem Hunk.marked_eq_nil : Hunk.marked mark hunk = [] ↔ hunk = [] :=
  map_eq_nil_iff

variable {a b : Hunk} {r : Region}

theorem isReplaced_markedRegion (h : r ∈ regions (Hunk.texts a) (Hunk.texts b))
    (hsame : r.same = false) :
    Hunk.IsReplaced (Layout.markedRegion a b r).1 (Layout.markedRegion a b r).2 := by
  have hmem : r ∈ differences (Hunk.texts a) (Hunk.texts b) :=
    mem_filter.2 ⟨h, by rw [hsame]; rfl⟩
  obtain ⟨hdifference, -, -, hleft, hright⟩ := differences_bounds (ordered_all _ _) hmem
  rw [Hunk.texts, length_map] at hleft hright
  unfold Layout.markedRegion
  rw [hsame]
  refine ⟨?_, fun line hline => Hunk.mark_of_mem_marked hline,
    fun line hline => Hunk.mark_of_mem_marked hline⟩
  refine hdifference.nonempty.imp (fun hlt hnil => ?_) fun hlt hnil => ?_
  · have hlength := congrArg List.length (Hunk.marked_eq_nil.1 hnil)
    rw [Region.left, ← slice, length_slice hleft, length_nil] at hlength
    omega
  · have hlength := congrArg List.length (Hunk.marked_eq_nil.1 hnil)
    rw [Region.right, ← slice, length_slice hright, length_nil] at hlength
    omega

theorem isShared_markedRegion (h : r ∈ regions (Hunk.texts a) (Hunk.texts b))
    (hsame : r.same = true) :
    Hunk.IsShared (Layout.markedRegion a b r).1 (Layout.markedRegion a b r).2 := by
  obtain ⟨heq, hne⟩ := left_eq_right_of_same h hsame
  rw [← Layout.texts_left] at heq hne
  rw [← Layout.texts_right] at heq
  unfold Layout.markedRegion
  rw [hsame]
  refine ⟨fun hnil => hne ?_, ?_, fun line hline => Hunk.mark_of_mem_marked hline,
    fun line hline => Hunk.mark_of_mem_marked hline⟩
  · rw [Hunk.marked_eq_nil.1 hnil]
    rfl
  · rw [Layout.texts_marked, Layout.texts_marked, heq]

/-- Hunks are marked against each other. -/
theorem isAnnotation_annotate (a b : Hunk) :
    IsAnnotation a b (annotate a b).1 (annotate a b).2 := by
  obtain ⟨hleft, hright⟩ := Layout.marked_lines_annotate a b
  refine ⟨?_, hleft, hright, ?_⟩
  · simp only [annotate, length_map]
  · intro s hs
    rw [Layout.zip_annotate] at hs
    obtain ⟨r, hr, rfl⟩ := mem_map.1 hs
    cases hsame : r.same with
    | true => exact .inl (isShared_markedRegion hr hsame)
    | false => exact .inr (isReplaced_markedRegion hr hsame)

namespace Layout

open Text (StyledText)

/-! ### Reading -/

def DiffLine.read? (line : String) : Option DiffLine :=
  match line.toList with
  | ' ' :: text => some (.context (String.ofList text))
  | '-' :: text => some (.deletion (String.ofList text))
  | '+' :: text => some (.addition (String.ofList text))
  | _ => none

/-- What stands before a character, and what stands after it. -/
def cutAt? (stop : Char) (cs : List Char) : Option (String × List Char) :=
  match cs.dropWhile (· ≠ stop) with
  | _ :: rest => some (String.ofList (cs.takeWhile (· ≠ stop)), rest)
  | [] => none

def readRange? (cs : List Char) : Option ((Int × Nat) × List Char) := do
  let (start, cs) ← cutAt? ',' cs
  let (length, cs) ← cutAt? ' ' cs
  return ((← start.toInt?, ← length.toNat?), cs)

/-- The header of a hunk, as a hunk without lines. -/
def readHeader? (line : String) : Option UnifiedHunk :=
  match line.toList with
  | '@' :: '@' :: ' ' :: '-' :: cs => do
    match ← readRange? cs with
    | (left, '+' :: cs) =>
      let (right, cs) ← readRange? cs
      if cs = ['@', '@'] then some ⟨left.1, left.2, right.1, right.2, []⟩ else none
    | _ => none
  | _ => none

/-- The hunks in some lines, after the lines that come before the first header. -/
def readHunks : List String → Option (List DiffLine × List UnifiedHunk)
  | [] => some ([], [])
  | line :: rest => do
    let (body, hunks) ← readHunks rest
    match DiffLine.read? line with
    | some signed => return (signed :: body, hunks)
    | none => return ([], { (← readHeader? line) with body } :: hunks)

/-- What the unified layout shows of two files. -/
structure UnifiedDiff where
  leftHeader : String
  rightHeader : String
  hunks : List UnifiedHunk
  deriving DecidableEq, Repr

def readUnified : List String → Option UnifiedDiff
  | leftHeader :: rightHeader :: lines => do
    let ([], hunks) ← readHunks lines | none
    return ⟨leftHeader, rightHeader, hunks⟩
  | _ => none

/-! ### Lines and headers as they are written -/

def DiffLine.signed : DiffLine → String
  | .context text => " " ++ text
  | .deletion text => "-" ++ text
  | .addition text => "+" ++ text

def UnifiedHunk.header (hunk : UnifiedHunk) : String :=
  hunkHeader hunk.leftStart hunk.leftLength hunk.rightStart hunk.rightLength

def UnifiedHunk.texts (hunk : UnifiedHunk) : List String :=
  hunk.header :: hunk.body.map DiffLine.signed

/-- A line is read back by its sign. -/
theorem read?_signed (line : DiffLine) : DiffLine.read? line.signed = some line := by
  cases line <;> simp [DiffLine.read?, DiffLine.signed]

theorem cutAt?_append {stop : Char} {cs : List Char} (h : stop ∉ cs) (rest : List Char) :
    cutAt? stop (cs ++ stop :: rest) = some (String.ofList cs, rest) := by
  have hcs : ∀ c ∈ cs, decide (c ≠ stop) = true := fun c hc =>
    decide_eq_true fun heq => h (heq ▸ hc)
  have hstop : ∀ c ∈ (stop :: rest).head?, decide (c ≠ stop) = false := by
    rintro c ⟨⟩
    simp
  rw [cutAt?, Text.takeWhile_append_of_head hcs hstop, Text.dropWhile_append_of_head hcs hstop]

variable {c : Char}

theorem mem_toString {n : Int} (h : c ∈ (toString n).toList) : c = '-' ∨ Text.Json.isDecimal c := by
  rw [Text.Json.toList_toString, mem_append] at h
  obtain h | h := h
  · split at h
    · cases h
    · exact .inl (mem_singleton.1 h)
  · exact .inr (Text.Json.isDecimal_of_mem_toDigits h)

theorem not_mem_toString (hminus : c ≠ '-') (hc : Text.Json.isDecimal c = false) (n : Int) :
    c ∉ (toString n).toList := by
  intro h
  obtain rfl | hdecimal := mem_toString h
  · exact hminus rfl
  · rw [hc] at hdecimal
    cases hdecimal

theorem readRange?_append (start : Int) (length : Nat) (rest : List Char) :
    readRange? ((toString start).toList ++
        ',' :: ((toString (length : Int)).toList ++ ' ' :: rest)) =
      some ((start, length), rest) := by
  have hstart : (toString start).toInt? = some start := by
    rw [Int.toString_eq_repr, Int.toInt?_repr]
  have hlength : (toString (length : Int)).toNat? = some length := Nat.toNat?_repr length
  have hcomma : ',' ∉ (toString start).toList := not_mem_toString (by decide) (by decide) start
  have hblank : ' ' ∉ (toString (length : Int)).toList :=
    not_mem_toString (by decide) (by decide) length
  simp only [readRange?, cutAt?_append hcomma, cutAt?_append hblank, Option.bind_eq_bind,
    Option.bind_some, String.ofList_toList, hstart, hlength]
  rfl

theorem toList_header (hunk : UnifiedHunk) : hunk.header.toList =
    '@' :: '@' :: ' ' :: '-' :: ((toString hunk.leftStart).toList ++
      ',' :: ((toString (hunk.leftLength : Int)).toList ++ ' ' :: '+' ::
        ((toString hunk.rightStart).toList ++
          ',' :: ((toString (hunk.rightLength : Int)).toList ++ [' ', '@', '@'])))) := by
  simp only [UnifiedHunk.header, hunkHeader, String.toList_append, append_assoc]
  rfl

theorem readHeader?_header (hunk : UnifiedHunk) :
    readHeader? hunk.header = some { hunk with body := [] } := by
  rw [readHeader?, toList_header]
  simp only [readRange?_append, Option.bind_eq_bind, Option.bind_some]
  rfl

variable {hunks : List UnifiedHunk}

theorem readHunks_texts (hunk : UnifiedHunk) {rest : List String}
    (h : readHunks rest = some ([], hunks)) :
    readHunks (hunk.texts ++ rest) = some ([], hunk :: hunks) := by
  have hbody : ∀ body : List DiffLine, readHunks (body.map DiffLine.signed ++ rest) =
      some (body, hunks) := by
    intro body
    induction body with
    | nil => exact h
    | cons line body ih =>
      rw [map_cons, cons_append, readHunks, ih]
      simp only [read?_signed, Option.bind_eq_bind, Option.bind_some]
      rfl
  have hheader : DiffLine.read? hunk.header = none := by
    rw [DiffLine.read?, toList_header]
    rfl
  rw [UnifiedHunk.texts, cons_append, readHunks, hbody]
  simp only [hheader, readHeader?_header, Option.bind_eq_bind, Option.bind_some]
  rfl

/-- Hunks are read back in order. -/
theorem readHunks_flatMap_texts (hunks : List UnifiedHunk) :
    readHunks (hunks.flatMap UnifiedHunk.texts) = some ([], hunks) := by
  induction hunks with
  | nil => rfl
  | cons hunk hunks ih => exact readHunks_texts hunk ih

/-! ### Rendering -/

/-- Escaped text in a style comes out as it is. -/
def Renders (style text : String) : Prop :=
  ∃ line, inStyle style (Text.Markup.escape text) = .ok line ∧ line.plain = text

variable {style text : String}

theorem isDropped_of_renders (h : Renders style text) (hc : c ∈ text.toList) :
    Text.isDropped c = false := by
  obtain ⟨line, hline, rfl⟩ := h
  exact Text.Markup.isDropped_of_mem_ofMarkup hline hc

/-- Whether a text has neither backslashes nor characters that are dropped. -/
def isPlainText (text : String) : Bool :=
  text.toList.all fun c => c != '\\' && !Text.isDropped c

theorem isPlainText_iff : isPlainText text ↔
    ∀ c ∈ text.toList, c ≠ '\\' ∧ Text.isDropped c = false := by
  simp [isPlainText]

/-- Such a text comes out as it is, in all styles of the layout. -/
theorem renders_of_isPlainText (hstyle : style ∈ ["bold", "cyan", "red", "green"])
    (h : isPlainText text) :
    Renders style text := by
  have hword : Text.Markup.IsStyleWord style style := by
    fin_cases hstyle
    · exact ⟨⟨_, _, rfl, by decide, by decide⟩, rfl, rfl, rfl, rfl, by decide⟩
    · exact ⟨⟨_, _, rfl, by decide, by decide⟩, rfl, rfl, rfl, rfl, by decide⟩
    · exact ⟨⟨_, _, rfl, by decide, by decide⟩, rfl, rfl, rfl, rfl, by decide⟩
    · exact ⟨⟨_, _, rfl, by decide, by decide⟩, rfl, rfl, rfl, rfl, by decide⟩
  rw [isPlainText_iff] at h
  exact Text.Markup.ofMarkup_styled hword (fun hmem => (h _ hmem).1 rfl) fun c hc => (h c hc).2

theorem isDropped_of_isDecimal (h : Text.Json.isDecimal c) : Text.isDropped c = false := by
  simp only [Text.Json.isDecimal, Bool.and_eq_true, decide_eq_true_eq, Char.le_def,
    UInt32.le_iff_toNat_le] at h
  have hlow : 48 ≤ c.toNat := h.1
  simp only [Text.isDropped, Bool.or_eq_false_iff, beq_eq_false_iff_ne]
  omega

variable {hunk : UnifiedHunk}

/-- Headers are written with signs, commas and digits. -/
theorem mem_header (h : c ∈ hunk.header.toList) :
    c ∈ ['@', ' ', '-', ',', '+'] ∨ Text.Json.isDecimal c := by
  have hnumber : ∀ n : Int, c ∈ (toString n).toList → c = '-' ∨ Text.Json.isDecimal c :=
    fun _ => mem_toString
  rw [toList_header] at h
  simp only [mem_cons, mem_append, not_mem_nil, or_false] at h ⊢
  grind

/-- The header of a hunk is markup that comes out as it is. -/
theorem inStyle_header (hunk : UnifiedHunk) :
    ∃ line, inStyle "cyan" hunk.header = .ok line ∧ line.plain = hunk.header := by
  have hplain : ∀ c ∈ hunk.header.toList,
      c ≠ '[' ∧ c ≠ '\\' ∧ Text.isDropped c = false := by
    intro c hc
    obtain hsign | hdigit := mem_header hc
    · fin_cases hsign <;> decide
    · exact ⟨Text.Json.isDecimal_ne hdigit (by decide), Text.Json.isDecimal_ne hdigit (by decide),
        isDropped_of_isDecimal hdigit⟩
  have hrenders : Renders "cyan" hunk.header := renders_of_isPlainText (by decide)
    (isPlainText_iff.2 fun c hc => (hplain c hc).2)
  have hescape := Text.Markup.escape_eq_self fun c hc => ⟨(hplain c hc).1, (hplain c hc).2.1⟩
  rwa [Renders, hescape] at hrenders

def DiffLine.IsKept : DiffLine → Prop
  | .context text => Renders "red" ("-" ++ text)
  | .deletion text => Renders "red" ("-" ++ text)
  | .addition text => Renders "green" ("+" ++ text)

theorem exists_print_line {line : DiffLine} (h : line.IsKept) :
    ∃ printed, line.print = .ok printed ∧ printed.plain = line.signed := by
  cases line with
  | context text =>
    -- Context is no markup, but the characters that it would lose are lost in markup as well.
    refine ⟨_, rfl, Text.dropControls_eq_self fun c hc => ?_⟩
    rw [String.toList_append, mem_append] at hc
    obtain hblank | htext := hc
    · rw [mem_singleton.1 hblank]
      rfl
    · exact isDropped_of_renders h (by
        rw [String.toList_append]
        exact mem_append_right _ htext)
  | deletion text => exact h
  | addition text => exact h

theorem exists_print_hunk (h : ∀ line ∈ hunk.body, line.IsKept) :
    ∃ lines, hunk.print = .ok lines ∧ lines.map StyledText.plain = hunk.texts := by
  obtain ⟨header, hheader, hplain⟩ := inStyle_header hunk
  obtain ⟨body, hbody, hplains⟩ := exists_mapM_eq_ok fun line hline =>
    exists_print_line (h line hline)
  refine ⟨header :: body, ?_, by rw [map_cons, hplain, hplains, UnifiedHunk.texts]⟩
  rw [UnifiedHunk.header] at hheader
  rw [UnifiedHunk.print, hheader, hbody]
  rfl

/-- Rendering keeps all headers and lines. -/
theorem exists_printUnified {leftPath rightPath : Option String}
    (hpath : leftPath.isSome ∨ rightPath.isSome) (hleft : Renders "bold" (fileHeader leftPath .a))
    (hright : Renders "bold" (fileHeader rightPath .b))
    (h : ∀ hunk ∈ hunks, ∀ line ∈ hunk.body, line.IsKept) :
    ∃ lines, printUnified leftPath rightPath hunks = .ok lines ∧
      lines.map StyledText.plain = fileHeader leftPath .a :: fileHeader rightPath .b ::
        hunks.flatMap UnifiedHunk.texts := by
  obtain ⟨leftHeader, hleft, hleftPlain⟩ := hleft
  obtain ⟨rightHeader, hright, hrightPlain⟩ := hright
  obtain ⟨parts, hparts, hplains⟩ := exists_mapM_eq_ok fun hunk hhunk =>
    exists_print_hunk (h hunk hhunk)
  refine ⟨leftHeader :: rightHeader :: parts.flatten, ?_, ?_⟩
  · have hnone : (leftPath.isNone && rightPath.isNone) = false := by
      rw [Bool.and_eq_false_iff, Option.isNone_eq_false_iff, Option.isNone_eq_false_iff]
      exact hpath
    rw [printUnified, hnone, hleft, hright, hparts]
    rfl
  · rw [map_cons, map_cons, hleftPlain, hrightPlain, map_flatten, hplains,
      flatMap_def]

/-! ### Both sides of each pair -/

/-- The hunk has the numbers and the lines of both sides. A side without lines starts at zero. -/
structure UnifiedHunk.IsOf (hunk : UnifiedHunk) (pair : Hunk × Hunk) : Prop where
  leftStart_eq : hunk.leftStart = startNumber pair.1
  leftLength_eq : hunk.leftLength = pair.1.length
  rightStart_eq : hunk.rightStart = startNumber pair.2
  rightLength_eq : hunk.rightLength = pair.2.length
  before_eq : hunk.before = Hunk.texts pair.1
  after_eq : hunk.after = Hunk.texts pair.2

/-- Rendering keeps the headers of the files, the left lines as deletions and the right lines as
additions. -/
structure RendersAll (leftPath rightPath : Option String) (pairs : List (Hunk × Hunk)) : Prop where
  leftHeader : Renders "bold" (fileHeader leftPath .a)
  rightHeader : Renders "bold" (fileHeader rightPath .b)
  leftLines : ∀ pair ∈ pairs, ∀ line ∈ pair.1, Renders "red" ("-" ++ line.text)
  rightLines : ∀ pair ∈ pairs, ∀ line ∈ pair.2, Renders "green" ("+" ++ line.text)

def hasLines (pair : Hunk × Hunk) : Bool :=
  !(pair.1.isEmpty && pair.2.isEmpty)

def unifiedHunk? (pair : Hunk × Hunk) : Option UnifiedHunk :=
  UnifiedHunk.ofAnnotated? (annotate pair.1 pair.2).1 (annotate pair.1 pair.2).2

variable {pair : Hunk × Hunk}

theorem unifiedHunk?_of_hasLines (h : hasLines pair) :
    ∃ hunk, unifiedHunk? pair = some hunk ∧ hunk.IsOf pair := by
  have hne : pair.1 ≠ [] ∨ pair.2 ≠ [] := by
    rw [← not_and_or]
    rintro ⟨hleft, hright⟩
    simp [hasLines, hleft, hright] at h
  obtain ⟨hunk, hhunk, hleft, hleft', hright, hright', hbefore, hafter⟩ :=
    ofAnnotated?_annotate _ _ hne
  exact ⟨hunk, hhunk, hleft, hleft', hright, hright', hbefore, hafter⟩

theorem unifiedHunk?_of_not_hasLines (h : hasLines pair = false) : unifiedHunk? pair = none := by
  simp only [hasLines, Bool.not_eq_false', Bool.and_eq_true, List.isEmpty_iff] at h
  obtain ⟨hleft, hright⟩ := map_index_lines_annotate pair.1 pair.2
  rw [h.1, h.2, map_nil, map_eq_nil_iff] at hleft hright
  rw [unifiedHunk?, UnifiedHunk.ofAnnotated?, h.1, h.2, hleft, hright]
  rfl

theorem isOf_of_unifiedHunk? (h : unifiedHunk? pair = some hunk) : hunk.IsOf pair := by
  cases hlines : hasLines pair with
  | true =>
    obtain ⟨found, hfound, hof⟩ := unifiedHunk?_of_hasLines hlines
    rwa [Option.some.inj (h.symm.trans hfound)]
  | false =>
    rw [unifiedHunk?_of_not_hasLines hlines] at h
    cases h

theorem forall₂_unifiedHunk? (pairs : List (Hunk × Hunk)) :
    Forall₂ UnifiedHunk.IsOf (pairs.filterMap unifiedHunk?) (pairs.filter hasLines) := by
  induction pairs with
  | nil => exact .nil
  | cons pair pairs ih =>
    cases h : hasLines pair with
    | true =>
      obtain ⟨hunk, hhunk, hof⟩ := unifiedHunk?_of_hasLines h
      rw [filterMap_cons_some hhunk, filter_cons_of_pos h]
      exact .cons hof ih
    | false =>
      rw [filterMap_cons_none (unifiedHunk?_of_not_hasLines h),
        filter_cons_of_neg (by simp [h])]
      exact ih

theorem UnifiedHunk.IsOf.isKept (h : hunk.IsOf pair)
    (hleft : ∀ line ∈ pair.1, Renders "red" ("-" ++ line.text))
    (hright : ∀ line ∈ pair.2, Renders "green" ("+" ++ line.text)) :
    ∀ line ∈ hunk.body, line.IsKept := by
  have hbefore : ∀ text ∈ hunk.before, Renders "red" ("-" ++ text) := by
    rw [h.before_eq]
    exact forall_mem_map.2 hleft
  have hafter : ∀ text ∈ hunk.after, Renders "green" ("+" ++ text) := by
    rw [h.after_eq]
    exact forall_mem_map.2 hright
  intro line hline
  cases line with
  | context text => exact hbefore text (mem_filterMap.2 ⟨_, hline, rfl⟩)
  | deletion text => exact hbefore text (mem_filterMap.2 ⟨_, hline, rfl⟩)
  | addition text => exact hafter text (mem_filterMap.2 ⟨_, hline, rfl⟩)

/-- Marking hunks and laying them out loses nothing. -/
theorem readUnified_unifiedLines (leftPath rightPath : Option String)
    (pairs : List (Hunk × Hunk)) (hpath : leftPath.isSome ∨ rightPath.isSome) :
    (∀ pair ∈ pairs, IsAnnotation pair.1 pair.2 (annotate pair.1 pair.2).1
      (annotate pair.1 pair.2).2) ∧
    (RendersAll leftPath rightPath pairs → ∃ lines diff,
      unifiedLines leftPath rightPath (pairs.map fun pair => annotate pair.1 pair.2) = .ok lines ∧
      readUnified (lines.map StyledText.plain) = some diff ∧
      diff.leftHeader = fileHeader leftPath .a ∧ diff.rightHeader = fileHeader rightPath .b ∧
      Forall₂ UnifiedHunk.IsOf diff.hunks (pairs.filter hasLines)) := by
  refine ⟨fun pair _ => isAnnotation_annotate pair.1 pair.2, fun hrenders => ?_⟩
  have hof := forall₂_unifiedHunk? pairs
  have hkept : ∀ hunk ∈ pairs.filterMap unifiedHunk?, ∀ line ∈ hunk.body, line.IsKept := by
    intro hunk hhunk
    obtain ⟨pair, hpair, hsome⟩ := List.mem_filterMap.1 hhunk
    exact (isOf_of_unifiedHunk? hsome).isKept (hrenders.leftLines pair hpair)
      (hrenders.rightLines pair hpair)
  obtain ⟨lines, hlines, hplain⟩ :=
    exists_printUnified hpath hrenders.leftHeader hrenders.rightHeader hkept
  refine ⟨lines, ⟨fileHeader leftPath .a, fileHeader rightPath .b, pairs.filterMap unifiedHunk?⟩,
    ?_, ?_, rfl, rfl, hof⟩
  · rw [unifiedLines_eq_printUnified, List.filterMap_map]
    exact hlines
  · rw [hplain, readUnified, readHunks_flatMap_texts]
    rfl

/-- Lines with brackets, one side without lines, and a pair without any. -/
def bracketPairs : List (Hunk × Hunk) :=
  [([⟨4, "push [bold]", .plain⟩, ⟨5, "pop", .plain⟩],
      [⟨6, "push [bold]", .plain⟩, ⟨7, "pop [/red]", .plain⟩]),
    ([], [⟨9, "[", .plain⟩]),
    ([], [])]

theorem readUnified_unifiedLines_bracketPairs :
    RendersAll (some "menu[1].pcode") none bracketPairs ∧ ∃ lines diff,
      unifiedLines (some "menu[1].pcode") none
        (bracketPairs.map fun pair => annotate pair.1 pair.2) = .ok lines ∧
      readUnified (lines.map StyledText.plain) = some diff ∧
      diff.leftHeader = "--- a/menu[1].pcode" ∧ diff.rightHeader = "+++ /dev/null" ∧
      Forall₂ UnifiedHunk.IsOf diff.hunks (bracketPairs.filter hasLines) := by
  have hrenders : RendersAll (some "menu[1].pcode") none bracketPairs := by
    have hleft : ∀ pair ∈ bracketPairs, ∀ line ∈ pair.1, isPlainText ("-" ++ line.text) := by
      decide
    have hright : ∀ pair ∈ bracketPairs, ∀ line ∈ pair.2, isPlainText ("+" ++ line.text) := by
      decide
    exact ⟨renders_of_isPlainText (by decide) rfl, renders_of_isPlainText (by decide) rfl,
      fun pair hpair line hline =>
        renders_of_isPlainText (by decide) (hleft pair hpair line hline),
      fun pair hpair line hline =>
        renders_of_isPlainText (by decide) (hright pair hpair line hline)⟩
  exact ⟨hrenders, (readUnified_unifiedLines _ _ bracketPairs (.inl rfl)).2 hrenders⟩

end Layout

end MovieDiff
