import Mathlib.Data.List.Forall2
import Mathlib.Data.List.Induction
import Mathlib.Data.List.Infix
import MovieDiff.Proofs.Pcode.Readable

/-!
Braces in p-code. Any line of a text may open a brace, but reading forgets the brace, and only
definitions are counted where the end of a function is looked for. Main statement: in a text of
well-nested braces the end of a function is its closing line exactly when nothing but definitions
opens a brace inside it, and all blocks hold as many opening as closing lines exactly when this is
so from the definition of each block on and what stands before the definition is balanced.
-/
namespace MovieDiff.Pcode

open List
open Text (isBlankText strip)

variable {before lines rest : List Line} {definition : Line} {text : String}

/-! ### Nesting -/

/-- Whether braces are nested well: none closes before one opened, and in the end all are closed. -/
structure WellNested {α : Type} (opening closing : α → Bool) (xs : List α) : Prop where
  within : ∀ part more, xs = part ++ more → part.countP closing ≤ part.countP opening
  closed : xs.countP closing = xs.countP opening

section Nesting

variable {α β : Type} {opening closing : α → Bool} {xs ys : List α}

theorem forall_append_iff {p : List α → List α → Prop} :
    (∀ part more, xs = part ++ more → p part more) ↔
      ∀ n ∈ range (xs.length + 1), p (xs.take n) (xs.drop n) := by
  constructor
  · exact fun h n _ => h _ _ (take_append_drop n xs).symm
  · rintro h part more rfl
    have hpart := h part.length (mem_range.2 (by rw [length_append]; omega))
    rwa [take_left, drop_left] at hpart

instance : Decidable (WellNested opening closing xs) :=
  decidable_of_iff (_ ∧ _) ⟨fun h => ⟨forall_append_iff.2 h.1, h.2⟩,
    fun h => ⟨forall_append_iff.1 h.within, h.closed⟩⟩

theorem countP_filter_of_not {p keep : α → Bool} (h : ∀ x ∈ xs, keep x = false → p x = false) :
    (xs.filter keep).countP p = xs.countP p := by
  rw [countP_filter]
  refine countP_congr fun x hx => ?_
  cases hkeep : keep x with
  | true => simp
  | false => simp [h x hx hkeep]

/-- Elements that neither open nor close do not matter. -/
theorem WellNested.filter (h : WellNested opening closing xs) {keep : α → Bool}
    (hkeep : ∀ x ∈ xs, keep x = false → opening x = false ∧ closing x = false) :
    WellNested opening closing (xs.filter keep) where
  within := by
    intro part more heq
    obtain ⟨before, after, hxs, rfl, rfl⟩ := filter_eq_append_iff.1 heq
    have hbefore : ∀ x ∈ before, keep x = false → opening x = false ∧ closing x = false :=
      fun x hx => hkeep x (hxs ▸ mem_append_left after hx)
    rw [countP_filter_of_not fun x hx hnot => (hbefore x hx hnot).1,
      countP_filter_of_not fun x hx hnot => (hbefore x hx hnot).2]
    exact h.within before after hxs
  closed := by
    rw [countP_filter_of_not fun x hx hnot => (hkeep x hx hnot).1,
      countP_filter_of_not fun x hx hnot => (hkeep x hx hnot).2]
    exact h.closed

theorem countP_of_forall₂ {p : α → Bool} {q : β → Bool} {zs : List β}
    (h : Forall₂ (fun x z => p x = q z) xs zs) : xs.countP p = zs.countP q := by
  induction h with
  | nil => rfl
  | cons heq _ ih => rw [countP_cons, countP_cons, ih, heq]

theorem WellNested.of_forall₂ {opening' closing' : β → Bool} {zs : List β}
    (h : WellNested opening closing xs)
    (hpairs : Forall₂ (fun z x => opening' z = opening x ∧ closing' z = closing x) zs xs) :
    WellNested opening' closing' zs where
  within := by
    rintro part more rfl
    have hpart := forall₂_take part.length hpairs
    rw [take_left] at hpart
    rw [countP_of_forall₂ (hpart.imp fun _ _ heq => heq.1),
      countP_of_forall₂ (hpart.imp fun _ _ heq => heq.2)]
    exact h.within _ _ (take_append_drop part.length xs).symm
  closed := by
    rw [countP_of_forall₂ (hpairs.imp fun _ _ heq => heq.1),
      countP_of_forall₂ (hpairs.imp fun _ _ heq => heq.2)]
    exact h.closed

/-- What follows a balanced part is nested well. -/
theorem WellNested.append_left (h : WellNested opening closing (xs ++ ys))
    (hbalanced : xs.countP closing = xs.countP opening) : WellNested opening closing ys where
  within := by
    rintro part more rfl
    have hpart := h.within (xs ++ part) more (append_assoc xs part more).symm
    rw [countP_append, countP_append] at hpart
    omega
  closed := by
    have hclosed := h.closed
    rw [countP_append, countP_append] at hclosed
    omega

end Nesting

/-! ### The end of a function -/

section Lines

variable {opening : Line → Bool} {body : List Line}

def OnlyDefinitionsOpen (opening : Line → Bool) (lines : List Line) : Prop :=
  ∀ line ∈ lines, opening line → line.isDefinition

def DefinitionsOpen (opening : Line → Bool) (lines : List Line) : Prop :=
  ∀ line ∈ lines, line.isDefinition → opening line

instance : Decidable (OnlyDefinitionsOpen opening lines) :=
  inferInstanceAs (Decidable (∀ line ∈ lines, opening line → line.isDefinition))

instance : Decidable (DefinitionsOpen opening lines) :=
  inferInstanceAs (Decidable (∀ line ∈ lines, line.isDefinition → opening line))

variable {part : List Line}

theorem OnlyDefinitionsOpen.subset (h : OnlyDefinitionsOpen opening lines) (hpart : part ⊆ lines) :
    OnlyDefinitionsOpen opening part :=
  fun line hline => h line (hpart hline)

theorem DefinitionsOpen.subset (h : DefinitionsOpen opening lines) (hpart : part ⊆ lines) :
    DefinitionsOpen opening part :=
  fun line hline => h line (hpart hline)

/-- The lines behind one that opens a brace, through the one that closes it. -/
structure IsBraceBody (opening : Line → Bool) (body : List Line) : Prop where
  closed : closes body = body.countP opening + 1
  within : ∀ part more, body = part ++ more → more ≠ [] → closes part ≤ part.countP opening

instance : Decidable (IsBraceBody opening body) :=
  decidable_of_iff (_ ∧ _) ⟨fun h => ⟨h.1, forall_append_iff.2 h.2⟩,
    fun h => ⟨h.closed, forall_append_iff.1 h.within⟩⟩

theorem opens_le (h : DefinitionsOpen opening lines) : opens lines ≤ lines.countP opening :=
  countP_mono_left h

theorem opens_eq_iff (h : DefinitionsOpen opening lines) :
    opens lines = lines.countP opening ↔ OnlyDefinitionsOpen opening lines := by
  induction lines with
  | nil => simp [opens, OnlyDefinitionsOpen]
  | cons line lines ih =>
    obtain ⟨hline, hlines⟩ := forall_mem_cons.1 h
    have hle := opens_le hlines
    have hiff := ih hlines
    rw [OnlyDefinitionsOpen, forall_mem_cons, opens_cons, countP_cons]
    change _ ↔ _ ∧ OnlyDefinitionsOpen opening lines
    rw [← hiff]
    cases hdefinition : line.isDefinition with
    | true => simp [hline hdefinition]
    | false =>
      cases hopening : opening line with
      | true =>
        simp
        omega
      | false => simp

/-- A brace that is closed in the end is closed at some line. -/
theorem exists_isBraceBody {depth : Nat} (hdepth : 0 < depth)
    (h : lines.countP opening + depth ≤ closes lines) :
    ∃ body after, lines = body ++ after ∧ closes body = body.countP opening + depth ∧
      ∀ part more, body = part ++ more → more ≠ [] → closes part < part.countP opening + depth := by
  induction lines generalizing depth with
  | nil =>
    simp only [closes, countP_nil] at h
    omega
  | cons line lines ih =>
    have hopens := fun part : List Line => countP_cons (p := opening) (a := line) (l := part)
    have hcloses := fun part : List Line => closes_cons line part
    rw [hopens, hcloses] at h
    by_cases hlast : depth + (if opening line then 1 else 0) = if line.isClosing then 1 else 0
    · refine ⟨[line], lines, rfl, ?_, fun part more heq hmore => ?_⟩
      · rw [hopens, hcloses, closes, countP_nil, countP_nil]
        omega
      · obtain ⟨rfl, -⟩ | ⟨-, rfl⟩ := singleton_eq_append_iff.1 heq
        · simpa [closes] using hdepth
        · exact absurd rfl hmore
    · -- The depth after this line is still positive, and the rest closes it.
      obtain ⟨next, hnext⟩ : ∃ next,
          next + (if line.isClosing then 1 else 0) = depth + if opening line then 1 else 0 := by
        refine ⟨depth + (if opening line then 1 else 0) - if line.isClosing then 1 else 0, ?_⟩
        split <;> split <;> omega
      have hpos : 0 < next := by omega
      have hrest : lines.countP opening + next ≤ closes lines := by omega
      obtain ⟨body, after, rfl, hclosed, hwithin⟩ := ih hpos hrest
      refine ⟨line :: body, after, rfl, ?_, fun part more heq hmore => ?_⟩
      · rw [hopens, hcloses]
        omega
      · cases part with
        | nil => simpa [closes] using hdepth
        | cons first part =>
          obtain ⟨rfl, hbody⟩ := List.cons.inj heq
          have hpart := hwithin part more hbody hmore
          rw [hopens, hcloses]
          omega

/-- Where the search for the end stops. -/
theorem functionEnd_eq (h : definition.isDefinition) (before rest : List Line) :
    functionEnd (before ++ definition :: rest) before.length =
      .ok (before.length + (untilClosed 1 rest).length) := by
  have hdrop : (before ++ definition :: rest).drop (before.length : Int).toNat =
      definition :: rest := by simp
  rw [functionEnd, if_neg (by omega), hdrop, closingOffset_definition h,
    length_untilClosed Nat.one_pos]
  cases closingOffset (1 : Nat) true rest <;> simp
  omega

/-- The search for the end of a function counts definitions only. -/
theorem functionEnd_eq_iff {after : List Line} (hdefinition : definition.isDefinition)
    (hbody : IsBraceBody opening body) (hopen : DefinitionsOpen opening body) :
    functionEnd (before ++ definition :: (body ++ after)) before.length =
        .ok (before.length + body.length) ↔ OnlyDefinitionsOpen opening body := by
  have hle := opens_le hopen
  have hclosed := hbody.closed
  obtain ⟨hwithin, hatMost, hend⟩ := closes_untilClosed Nat.one_pos (body ++ after)
  have hparts := untilClosed_append_afterClosed 1 (body ++ after)
  rw [functionEnd_eq hdefinition, ← opens_eq_iff hopen]
  generalize untilClosed 1 (body ++ after) = found, afterClosed 1 (body ++ after) = others at *
  -- The body closes more braces than definitions opened, so the search ends in it.
  obtain ⟨more, rfl⟩ : ∃ more, body = found ++ more := by
    rcases append_eq_append_iff.1 hparts with ⟨more, hmore, -⟩ | ⟨more, hmore, -⟩
    · exact ⟨more, hmore⟩
    · by_cases hnil : more = []
      · exact ⟨[], by simp [hmore, hnil]⟩
      · have hlt := hwithin body more hmore hnil
        omega
  by_cases hnil : more = []
  · subst hnil
    rw [append_nil] at *
    exact iff_of_true rfl (by omega)
  · have hpart := hbody.within found more rfl hnil
    have hsubset := subset_append_left found more
    refine iff_of_false (fun heq => ?_) fun heq => ?_
    · have hlength := Except.ok.inj heq
      have hpos := length_pos_iff.2 hnil
      rw [length_append] at hlength
      omega
    · have hequal := (opens_eq_iff (hopen.subset hsubset)).2
        (((opens_eq_iff hopen).1 heq).subset hsubset)
      have hothers : others ≠ [] := by
        rintro rfl
        simp [hnil] at hparts
      have hend := hend.resolve_right hothers
      omega

/-! ### Blocks -/

def IsBalanced (opening : Line → Bool) (lines : List Line) : Prop :=
  closes lines = lines.countP opening

instance : Decidable (IsBalanced opening lines) :=
  inferInstanceAs (Decidable (closes lines = lines.countP opening))

def beforeDefinition (lines : List Line) : List Line :=
  lines.takeWhile fun line => !line.isDefinition

def fromDefinition (lines : List Line) : List Line :=
  lines.dropWhile fun line => !line.isDefinition

theorem before_append_from (lines : List Line) :
    beforeDefinition lines ++ fromDefinition lines = lines :=
  takeWhile_append_dropWhile

theorem IsGap.beforeDefinition_append {gap : List Line} (h : IsGap gap)
    (hrest : ∀ line ∈ rest.head?, line.isDefinition) :
    beforeDefinition (gap ++ rest) = gap ∧ fromDefinition (gap ++ rest) = rest := by
  have hgap : ∀ line ∈ gap, (!line.isDefinition) = true := fun line hline => by simp [h line hline]
  have hstop : ∀ line ∈ rest.head?, (!line.isDefinition) = false := fun line hline => by
    simp [hrest line hline]
  exact ⟨Text.takeWhile_append_of_head hgap hstop, Text.dropWhile_append_of_head hgap hstop⟩

theorem closes_append (part more : List Line) : closes (part ++ more) = closes part + closes more :=
  countP_append

theorem opens_append (part more : List Line) : opens (part ++ more) = opens part + opens more :=
  countP_append

variable {function : List Line}

theorem IsFunction.closes_le (h : IsFunction function rest) : closes function ≤ opens function := by
  obtain ⟨definition, body, rfl, hdefinition⟩ := h.starts
  obtain ⟨hsame, -⟩ := h.unique (isFunction_cutFunction hdefinition (body ++ rest))
    (cutFunction_append _).symm
  obtain ⟨-, hle, -⟩ := closes_untilClosed Nat.one_pos (body ++ rest)
  have hcounts := counts_definition hdefinition (untilClosed 1 (body ++ rest))
  rw [hsame, cutFunction_eq hdefinition]
  dsimp only
  omega

variable {piece : List Line}

/-- A block of a function is balanced exactly when the lines before the definition are and nothing
but definitions opens a brace from there on. -/
theorem isBalanced_functionBlock_iff (hblock : IsFunctionBlock piece rest)
    (hnested : WellNested opening Line.isClosing (piece ++ rest))
    (hopen : DefinitionsOpen opening piece) :
    IsBalanced opening piece ↔ IsBalanced opening (beforeDefinition piece) ∧
      OnlyDefinitionsOpen opening (fromDefinition piece) := by
  obtain ⟨before, function, after, rfl, hgap, -, hfunction, hafter⟩ := hblock
  have hhead : ∀ line ∈ (function ++ after).head?, line.isDefinition := by
    obtain ⟨definition, body, rfl, hdefinition⟩ := hfunction.starts
    rintro line ⟨⟩
    exact hdefinition
  have hafter' : closes after = 0 ∧ opens after = 0 := by
    rcases hafter with rfl | ⟨line, rfl, hline⟩
    · exact ⟨rfl, rfl⟩
    · have hclosing : line.isClosing = false := by
        cases hbody : line.body <;> simp_all [Line.isClosing, Line.hasOpcode, Line.opcode?]
      simp [closes, opens, hclosing, isDefinition_of_setMember hline]
  simp only [append_assoc] at hnested hopen ⊢
  obtain ⟨hbefore, hfrom⟩ := hgap.beforeDefinition_append hhead
  have hopenFunction := hopen.subset (subset_append_right before _)
  rw [hbefore, hfrom, ← opens_eq_iff hopenFunction]
  have hwithin := hnested.within before _ rfl
  have hclosed := hnested.closed
  have hle := hfunction.closes_le
  have hle' := opens_le (hopenFunction.subset (subset_append_left function after))
  change closes before ≤ _ at hwithin
  change closes _ = _ at hclosed
  simp only [IsBalanced, closes_append, opens_append, countP_append] at hclosed ⊢
  constructor
  · intro hbalanced
    omega
  · rintro ⟨hbalanced, honly⟩
    rcases hfunction.ends with hends | hrest
    · omega
    · obtain ⟨rfl, rfl⟩ := append_eq_nil_iff.1 hrest
      have hnil : closes [] = 0 := rfl
      simp only [countP_nil] at hclosed honly ⊢
      omega

theorem isBalanced_piece_iff (hkind : IsGap piece ∨ IsFunctionBlock piece rest)
    (hnested : WellNested opening Line.isClosing (piece ++ rest))
    (hopen : DefinitionsOpen opening piece) :
    IsBalanced opening piece ↔ IsBalanced opening (beforeDefinition piece) ∧
      OnlyDefinitionsOpen opening (fromDefinition piece) := by
  rcases hkind with hgap | hblock
  · have hwhole : beforeDefinition (piece ++ []) = piece ∧ fromDefinition (piece ++ []) = [] :=
      hgap.beforeDefinition_append (by simp)
    rw [append_nil] at hwhole
    simp [hwhole.1, hwhole.2, OnlyDefinitionsOpen]
  · exact isBalanced_functionBlock_iff hblock hnested hopen

theorem isBalanced_beforeDefinition (hnested : WellNested opening Line.isClosing (piece ++ rest))
    (honly : OnlyDefinitionsOpen opening piece) : IsBalanced opening (beforeDefinition piece) := by
  have hnone : (beforeDefinition piece).countP opening = 0 := by
    rw [countP_eq_zero]
    intro line hline hopening
    have hdefinition := honly line (takeWhile_subset _ hline) hopening
    have hnot := mem_takeWhile_imp hline
    simp [hdefinition] at hnot
  have hwithin := hnested.within (beforeDefinition piece) (fromDefinition piece ++ rest)
    (by rw [← append_assoc, before_append_from])
  change closes (beforeDefinition piece) ≤ _ at hwithin
  unfold IsBalanced
  omega

variable {pieces : List (List Line)}

/-- The blocks of a file, one after the other: each starts where all braces before it are closed. -/
theorem forall_isBalanced (hkind : ∀ earlier piece later, pieces = earlier ++ piece :: later →
      IsGap piece ∨ IsFunctionBlock piece later.flatten)
    (hnested : WellNested opening Line.isClosing pieces.flatten)
    (hopen : DefinitionsOpen opening pieces.flatten) :
    ((∀ piece ∈ pieces, IsBalanced opening piece) ↔
      ∀ piece ∈ pieces, IsBalanced opening (beforeDefinition piece) ∧
        OnlyDefinitionsOpen opening (fromDefinition piece)) ∧
      (OnlyDefinitionsOpen opening pieces.flatten → ∀ piece ∈ pieces, IsBalanced opening piece) := by
  induction pieces with
  | nil => simp
  | cons piece pieces ih =>
    rw [flatten_cons] at hnested hopen ⊢
    have hpiece := isBalanced_piece_iff (hkind [] piece pieces rfl) hnested
      (hopen.subset (subset_append_left _ _))
    have hrest := fun hbalanced : IsBalanced opening piece =>
      ih (fun earlier other later heq => hkind (piece :: earlier) other later (by rw [heq]; rfl))
        (hnested.append_left hbalanced) (hopen.subset (subset_append_right _ _))
    rw [forall_mem_cons, forall_mem_cons, ← hpiece]
    refine ⟨and_congr_right fun hbalanced => (hrest hbalanced).1, fun honly => ?_⟩
    have honlyPiece := honly.subset (subset_append_left piece pieces.flatten)
    have hbalanced := hpiece.2
      ⟨isBalanced_beforeDefinition hnested honlyPiece, honlyPiece.subset (dropWhile_subset _)⟩
    exact ⟨hbalanced, (hrest hbalanced).2 (honly.subset (subset_append_right _ _))⟩

end Lines

/-! ### Texts -/

def textLines (text : String) : List String :=
  Text.splitLines (String.ofList (Text.unifyNewlines text.toList))

def opensBrace (text : String) : Bool :=
  (tokenTexts (dropLabel text).toList).getLast? == some ['\x7b']

def closesBrace (text : String) : Bool :=
  strip (dropLabel text).toList == ['\x7d']

/-- Whether a line was read from one of some texts that opens a brace. -/
def Line.opensIn (texts : List String) (line : Line) : Bool :=
  line.sources.any fun source => texts[source.toNat]?.any opensBrace

open Line (opensIn)

theorem opensBrace_of_blank (h : isBlankText text.toList) :
    opensBrace text = false ∧ closesBrace text = false := by
  have hblank : ∀ c ∈ text.toList, Text.isBlank c := all_eq_true.1 h
  have hstrip : Text.stripLeft text.toList = [] := dropWhile_eq_nil_iff.2 hblank
  have hlabel : dropLabel text = text := by
    simp [dropLabel, splitLabel, labelPrefix?, hstrip]
  have htokens : tokenTexts text.toList = [] := by
    generalize text.toList = cs at hblank
    induction cs with
    | nil => rfl
    | cons c cs ih =>
      obtain ⟨hc, hcs⟩ := forall_mem_cons.1 hblank
      rw [tokenTexts_blank hc, ih hcs]
  simp [opensBrace, closesBrace, hlabel, htokens, strip, hstrip, Text.stripRight]

/-- Every line that was read opens and closes what its text does. -/
theorem forall₂_readLinesFrom {texts raw earlier : List String}
    (hraw : raw = earlier ++ texts) (h : readLinesFrom earlier.length texts = .ok lines) :
    Forall₂ (fun line text => line.opensIn raw = opensBrace text ∧
      line.isClosing = closesBrace text) lines
      (texts.filter fun text => !isBlankText text.toList) := by
  induction texts generalizing earlier lines with
  | nil =>
    cases h
    exact .nil
  | cons text texts ih =>
    obtain ⟨first, hfirst, hrest⟩ := exists_of_bind_eq_ok h
    obtain ⟨others, hothers, heq⟩ := exists_of_bind_eq_ok hrest
    have hlength : ((earlier.length : Int) + 1) = ((earlier ++ [text]).length : Nat) := by simp
    rw [hlength] at hothers
    have hpairs := ih (by rw [hraw, append_assoc]; rfl) hothers
    cases heq
    rcases readLine_cases hfirst with ⟨hblank, rfl⟩ | ⟨hblank, line, rfl, hbody⟩
    · rw [filter_cons_of_neg (by simp [hblank])]
      exact hpairs
    · obtain ⟨hsources, hclosing⟩ := sources_readBody hbody
      rw [filter_cons_of_pos (by simp [hblank])]
      refine .cons ⟨?_, hclosing⟩ hpairs
      simp [opensIn, hsources, hraw]

/-- What is read from a text of well-nested braces is well nested. -/
theorem wellNested_readText (hread : readText text = .ok lines)
    (h : WellNested opensBrace closesBrace (textLines text)) :
    WellNested (opensIn (textLines text)) Line.isClosing lines := by
  have hpairs := forall₂_readLinesFrom (nil_append (textLines text)).symm hread
  refine (h.filter fun line _ hblank => ?_).of_forall₂ hpairs
  exact opensBrace_of_blank (by simpa using hblank)

/-- A definition that opens a brace has a line that closes it. -/
theorem WellNested.exists_isBraceBody {opening : Line → Bool}
    (h : WellNested opening Line.isClosing (before ++ definition :: rest))
    (hdefinition : definition.isDefinition) (hopening : opening definition) :
    ∃ body after, rest = body ++ after ∧ IsBraceBody opening body := by
  have hwithin := h.within before _ rfl
  have hclosed := h.closed
  rw [countP_append, countP_append, countP_cons, countP_cons,
    isClosing_of_isDefinition hdefinition, hopening] at hclosed
  have hdepth : rest.countP opening + 1 ≤ closes rest := by
    simp only [if_true, Bool.false_eq_true, if_false] at hclosed
    change _ ≤ rest.countP Line.isClosing
    omega
  obtain ⟨body, after, hrest, hend, hbody⟩ := Pcode.exists_isBraceBody Nat.one_pos hdepth
  refine ⟨body, after, hrest, hend, fun part more heq hmore => ?_⟩
  exact Nat.le_of_lt_succ (hbody part more heq hmore)

/-- In a text of well-nested braces whose definitions all open one, each definition has a line that
closes it. The end of the function is that line exactly when nothing but definitions opens a brace
in between. All blocks hold as many opening as closing lines exactly when this is so from the
definition of each block on and what stands before it is balanced, so whenever nothing but
definitions opens a brace. -/
theorem functionEnd_eq_closing_iff {text : String} {lines : List Line}
    (hread : readText text = .ok lines)
    (hnested : WellNested opensBrace closesBrace (textLines text))
    (hopen : DefinitionsOpen (opensIn (textLines text)) lines) :
    (∀ before definition rest, lines = before ++ definition :: rest → definition.isDefinition →
      ∃ body after, rest = body ++ after ∧ IsBraceBody (opensIn (textLines text)) body ∧
        (functionEnd lines before.length = .ok (before.length + body.length) ↔
          OnlyDefinitionsOpen (opensIn (textLines text)) body)) ∧
    ∀ blocks, splitBlocks lines = .ok blocks →
      ((∀ block ∈ blocks, IsBalanced (opensIn (textLines text)) block.lines) ↔
        ∀ block ∈ blocks,
          IsBalanced (opensIn (textLines text)) (beforeDefinition block.lines) ∧
          OnlyDefinitionsOpen (opensIn (textLines text)) (fromDefinition block.lines)) ∧
      (OnlyDefinitionsOpen (opensIn (textLines text)) lines →
        ∀ block ∈ blocks, IsBalanced (opensIn (textLines text)) block.lines) := by
  have hlines := wellNested_readText hread hnested
  constructor
  · rintro before definition rest rfl hdefinition
    have hopening := hopen definition (by simp) hdefinition
    obtain ⟨body, after, rfl, hbody⟩ := hlines.exists_isBraceBody hdefinition hopening
    have hopenBody : DefinitionsOpen (opensIn (textLines text)) body :=
      hopen.subset fun line hline => by simp [hline]
    exact ⟨body, after, rfl, hbody, functionEnd_eq_iff hdefinition hbody hopenBody⟩
  · intro blocks hblocks
    obtain ⟨pieces, hpieces, heq⟩ := exists_of_bind_eq_ok hblocks
    have hpartition := isPartition_splitFrom (fun _ hline => by cases hline) hpieces
    rw [← map_lines_numberBlocks [] pieces, Except.ok.inj heq] at hpartition
    rw [List.reverse_nil, List.nil_append] at hpartition
    rw [← hpartition.flatten] at hlines hopen ⊢
    simpa only [List.forall_mem_map] using forall_isBalanced hpartition.kind hlines hopen

/-- A block with braces before a function, and a function that holds another one. -/
def nestedText : String :=
  "With \x7b\nPush 1\n\x7d\nDefineFunction \"f\", 0 \x7b\nDefineFunction \"g\", 0 \x7b\n" ++
    "Pop\n\x7d\n\x7d\n"

def nestedLines : List Line :=
  [⟨[0], none, .instruction "With" []⟩, ⟨[1], none, .instruction "Push" [.ofNumeral "1"]⟩,
    ⟨[2], none, .structural "\x7d"⟩,
    ⟨[3], none, .instruction "DefineFunction" [.ofString "f", .ofNumeral "0"]⟩,
    ⟨[4], none, .instruction "DefineFunction" [.ofString "g", .ofNumeral "0"]⟩,
    ⟨[5], none, .instruction "Pop" []⟩, ⟨[6], none, .structural "\x7d"⟩,
    ⟨[7], none, .structural "\x7d"⟩]

theorem nestedText_balanced :
    readText nestedText = .ok nestedLines ∧
      WellNested opensBrace closesBrace (textLines nestedText) ∧
      DefinitionsOpen (opensIn (textLines nestedText)) nestedLines ∧
      (∃ body after, nestedLines.drop 4 = body ++ after ∧
        IsBraceBody (opensIn (textLines nestedText)) body ∧
        (functionEnd nestedLines 3 = .ok (3 + body.length) ↔
          OnlyDefinitionsOpen (opensIn (textLines nestedText)) body)) ∧
      ∀ block ∈ [nestedLines.take 3, nestedLines.drop 3],
        IsBalanced (opensIn (textLines nestedText)) block := by
  have hread : readText nestedText = .ok nestedLines := eq_ok_of_toOption (by decide +kernel)
  have hnested : WellNested opensBrace closesBrace (textLines nestedText) := by decide +kernel
  have hopen : DefinitionsOpen (opensIn (textLines nestedText)) nestedLines := by
    decide +kernel
  have hsplit : splitBlocks nestedLines =
      .ok [⟨"__toplevel", nestedLines.take 3⟩, ⟨"f", nestedLines.drop 3⟩] :=
    eq_ok_of_toOption (by decide +kernel)
  obtain ⟨hend, hblocks⟩ := functionEnd_eq_closing_iff hread hnested hopen
  refine ⟨hread, hnested, hopen, ?_, ?_⟩
  · exact hend (nestedLines.take 3) _ _ rfl (by decide)
  · have hall := (hblocks _ hsplit).1.2 (by decide +kernel)
    simpa using hall

def withText : String :=
  "DefineFunction \"f\", 0 \x7b\nWith \x7b\nPush 1\n\x7d\nPush 2\n\x7d\n"

def withLines : List Line :=
  [⟨[0], none, .instruction "DefineFunction" [.ofString "f", .ofNumeral "0"]⟩,
    ⟨[1], none, .instruction "With" []⟩, ⟨[2], none, .instruction "Push" [.ofNumeral "1"]⟩,
    ⟨[3], none, .structural "\x7d"⟩, ⟨[4], none, .instruction "Push" [.ofNumeral "2"]⟩,
    ⟨[5], none, .structural "\x7d"⟩]

/-- The function ends at the brace that closes the inner block, and its last lines are in a block of
their own. -/
theorem functionEnd_inner_block :
    readText withText = .ok withLines ∧
      WellNested opensBrace closesBrace (textLines withText) ∧
      IsBraceBody (opensIn (textLines withText)) withLines.tail ∧
      functionEnd withLines 0 = .ok 3 ∧
      splitBlocks withLines = .ok [⟨"f", withLines.take 4⟩, ⟨"__toplevel", withLines.drop 4⟩] ∧
      ¬ IsBalanced (opensIn (textLines withText)) (withLines.take 4) := by
  refine ⟨eq_ok_of_toOption (by decide +kernel), by decide +kernel, by decide +kernel,
    by decide +kernel, eq_ok_of_toOption (by decide +kernel), by decide +kernel⟩

end MovieDiff.Pcode
