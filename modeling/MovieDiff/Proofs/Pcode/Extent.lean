import MovieDiff.Proofs.Files.Listing
import MovieDiff.Proofs.Pcode.WellFormed
import MovieDiff.Proofs.Text.Utf8

/-!
How far a normal form reaches. Main statements: every line of a normal form stands for source lines
and is written as one line of text, whatever was read; a normal form has no line left exactly when
each of its raw lines is a label and nothing else; and the file of a block has as many lines as the
block, except that the file of an empty block has one.
-/
namespace MovieDiff.Pcode

open List
open Text (isSingleLine)

/-! ### Lines with sources -/

/-- A line that stands for source lines and is written as one line of text. -/
structure Line.IsSourced (line : Line) : Prop extends line.FitsLine where
  sources : line.sources ≠ []

theorem mergeSources_ne_nil {sources : List (List Int)} {numbers : List Int}
    (hmem : numbers ∈ sources) (hne : numbers ≠ []) : mergeSources sources ≠ [] := by
  obtain ⟨n, hn⟩ := exists_mem_of_ne_nil numbers hne
  have hmerged : n ∈ mergeSources sources :=
    mem_eraseReps.2 (mem_mergeSort.2 (mem_flatten.2 ⟨numbers, hmem, hn⟩))
  exact ne_nil_of_mem hmerged

variable {o : Operand}

theorem isSingleLine_of_readOperand {token : List Char} (h : readOperand token = .ok o)
    (hline : isSingleLine token) :
    isSingleLine o.value.spelling.toList := by
  have htoken : isSingleLine (String.ofList token).toList := by rwa [String.toList_ofList]
  unfold readOperand at h
  split at h
  next tail =>
    split at h
    next inner hreverse =>
      cases h
      refine isSingleLine_of_subset hline fun c hc => mem_cons_of_mem _ ?_
      have hc : c ∈ inner.reverse := by rwa [← String.toList_ofList (l := inner.reverse)]
      rw [← reverse_reverse tail, hreverse, reverse_cons]
      exact mem_append_left _ hc
    · cases h
  · dsimp only at h
    split at h
    · cases h
      exact htoken
    · split at h
      · cases h
        decide
      · split at h
        · cases h
          decide
        · cases h
          exact htoken

theorem isSourced_of_readBody {index : Int} {label : Option String} {rest : String} {line : Line}
    (h : readBody index label rest = .ok line)
    (hlabel : ∀ name ∈ label, isLabelWord name.toList) (hrest : isSingleLine rest.toList) :
    line.IsSourced := by
  have hlabel' : ∀ name ∈ label, isSingleLine name.toList :=
    fun name hname => isSingleLine_of_isLabelWord (hlabel name hname)
  unfold readBody at h
  split at h
  · cases h
    exact ⟨⟨hlabel', forall_mem_nil _⟩, cons_ne_nil _ _⟩
  split at h
  · cases h
    exact ⟨⟨hlabel', forall_mem_singleton.2 (by decide)⟩, cons_ne_nil _ _⟩
  split at h
  · cases h
  next opcode texts htokens =>
    obtain ⟨operands, hoperands, h⟩ := exists_of_bind_eq_ok h
    cases h
    have htoken : ∀ token ∈ opcode :: texts, isSingleLine token := by
      intro token htoken
      rw [← htokens] at htoken
      exact isSingleLine_of_subset hrest (mem_of_mem_tokenTexts token htoken).2
    refine ⟨⟨hlabel', ?_⟩, cons_ne_nil _ _⟩
    rw [Body.texts, forall_mem_cons, forall_mem_map, String.toList_ofList]
    refine ⟨htoken opcode mem_cons_self, fun o ho => ?_⟩
    obtain ⟨token, hmem, hread⟩ := (mem_of_mapM_eq_ok hoperands).1 ho
    exact isSingleLine_of_readOperand hread
      (htoken token (mem_cons_of_mem opcode (mem_of_mem_filter hmem)))

namespace Line.IsSourced

variable {line : Line} (h : line.IsSourced)
include h

theorem operands : ∀ o ∈ line.operands, isSingleLine o.value.spelling.toList := by
  intro o ho
  unfold Line.operands at ho
  split at ho
  next opcode operands hbody =>
    refine h.body _ ?_
    rw [hbody]
    exact mem_cons_of_mem opcode (mem_map_of_mem ho)
  · cases ho

theorem withOperands {operands : List Operand}
    (hoperands : ∀ o ∈ operands, isSingleLine o.value.spelling.toList) :
    (line.withOperands operands).IsSourced := by
  unfold Line.withOperands
  split
  next opcode before hbody =>
    refine ⟨⟨h.label, ?_⟩, h.sources⟩
    have hopcode : isSingleLine opcode.toList :=
      h.body opcode (by rw [hbody]; exact mem_cons_self)
    rw [Body.texts, forall_mem_cons, forall_mem_map]
    exact ⟨hopcode, hoperands⟩
  · exact h

theorem pushedString {text : String} (htext : line.pushedString? = some text) :
    isSingleLine text.toList := by
  obtain ⟨operand, hbody, -, rfl⟩ := exists_of_pushedString? htext
  refine h.operands operand ?_
  rw [Line.operands, hbody]
  exact mem_cons_self

end Line.IsSourced

theorem isSourced_unitStep {one step : Line} (h : one.IsSourced) :
    (unitStep one step).IsSourced := by
  refine ⟨⟨fun _ hlabel => absurd hlabel (Option.not_mem_none _), ?_⟩,
    mergeSources_ne_nil mem_cons_self h.sources⟩
  refine forall_mem_singleton.2 ?_
  split <;> decide

/-- A joined push has the sources of both. -/
theorem isSourced_joinedPush? {first second add joined : Line} (hfirst : first.IsSourced)
    (hsecond : second.IsSourced) (h : joinedPush? first second add = some joined) :
    joined.IsSourced := by
  obtain ⟨left, right, hleft, hright, -, -, -, hsources, hlabel, hbody⟩ := exists_of_joinedPush? h
  refine ⟨⟨by rw [hlabel]; exact hfirst.label, ?_⟩, ?_⟩
  · rw [hbody, Body.texts, forall_mem_cons, map_singleton, forall_mem_singleton]
    refine ⟨by decide, ?_⟩
    change isSingleLine (left ++ right).toList
    rw [String.toList_append, Text.isSingleLine_append]
    exact ⟨hfirst.pushedString hleft, hsecond.pushedString hright⟩
  · rw [hsources]
    exact mergeSources_ne_nil mem_cons_self hfirst.sources

theorem isSingleLine_plain (h : isSingleLine o.value.spelling.toList) :
    isSingleLine o.plain.value.spelling.toList := by
  unfold Operand.plain
  split
  · change isSingleLine (plainNumeral o.value.spelling).toList
    rcases plainNumeral_cases o.value.spelling with heq | heq | ⟨-, heq⟩ <;> rw [heq]
    · decide
    · exact h
    · rw [String.toList_ofList]
      exact isSingleLine_of_subset h fun c hc => mem_of_mem_take hc
  · exact h

theorem isSingleLine_number (n : Nat) : isSingleLine (toString n).toList :=
  Text.isSingleLine_of_no_blank fun _ hc => Text.isBlank_of_isDigit (isDigit_of_mem_toString hc)

theorem isSingleLine_numbered {name : String} (h : isSingleLine name.toList) (n : Nat) :
    isSingleLine (name ++ toString n).toList := by
  rw [String.toList_append, Text.isSingleLine_append]
  exact ⟨h, isSingleLine_number n⟩

/-- To have sources and to fit on a line is kept by every step. -/
theorem lineInvariant_isSourced :
    LineInvariant Line.IsSourced fun o => isSingleLine o.value.spelling.toList where
  operands h := h.operands
  withOperands h hoperands := h.withOperands hoperands
  numberLabel n h :=
    ⟨⟨fun _ htext => Option.some.inj htext ▸ isSingleLine_numbered (by decide) n, h.body⟩,
      h.sources⟩
  dropLabel h _ := ⟨⟨fun _ htext => absurd htext (Option.not_mem_none _), h.body⟩, h.sources⟩
  header h hoperands :=
    ⟨⟨h.label, forall_mem_cons.2 ⟨by decide, forall_mem_map.2 hoperands⟩⟩, h.sources⟩
  unitStep h _ := isSourced_unitStep h
  joinedPush hfirst hsecond _ := isSourced_joinedPush? hfirst hsecond
  plain := isSingleLine_plain
  number := isSingleLine_number
  register := isSingleLine_numbered (by decide)
  target := isSingleLine_numbered (by decide)
  emptyString := rfl

/-! ### Lines that are labels alone -/

def Line.isLabelAlone (line : Line) : Bool :=
  line.label.isSome && line.body == .labelOnly

theorem isLabelAlone_withOperands (line : Line) (operands : List Operand) :
    (line.withOperands operands).isLabelAlone = line.isLabelAlone := by
  unfold Line.isLabelAlone Line.withOperands
  split
  next hbody => rw [hbody]; rfl
  · rfl

variable {lines : List Line}

/-- Splitting keeps the labels that stand alone. -/
theorem forall_splitPushes_iff :
    (∀ line ∈ splitPushes lines, line.isLabelAlone) ↔ ∀ line ∈ lines, line.isLabelAlone := by
  have hsplit : ∀ line, (∀ out ∈ splitPush line, out.isLabelAlone) ↔ line.isLabelAlone := by
    intro line
    unfold splitPush
    split
    next first second others hbody =>
      rw [forall_mem_cons, isLabelAlone_withOperands]
      have hnot : line.isLabelAlone = false := by
        rw [Line.isLabelAlone, hbody]
        exact Bool.and_false _
      simp [hnot]
    · exact forall_mem_singleton
  constructor
  · intro h line hline
    exact (hsplit line).1 fun out hout => h out (mem_flatMap.2 ⟨line, hline, hout⟩)
  · intro h out hout
    obtain ⟨line, hline, hout⟩ := mem_flatMap.1 hout
    exact (hsplit line).2 (h line hline) out hout

theorem isLabelAlone_plainHeader (line : Line) :
    (plainHeader line).isLabelAlone = line.isLabelAlone := by
  unfold plainHeader
  split
  next hdefinition =>
    have hbody : line.body ≠ .labelOnly := by
      intro heq
      rw [Line.isDefinition, Line.hasOpcode, Line.hasOpcode, Line.opcode?, heq] at hdefinition
      cases hdefinition
    unfold Line.isLabelAlone
    rw [beq_eq_false_iff_ne.2 hbody]
    rfl
  · rfl

variable {out : List Line}

theorem forall_renumberRegisters_iff (h : renumberRegisters lines = .ok out) :
    (∀ line ∈ out, line.isLabelAlone) ↔ ∀ line ∈ lines, line.isLabelAlone := by
  have hall := forall₂_renumberRegisters h
  clear h
  induction hall with
  | nil => rfl
  | cons hfirst _ ih =>
    obtain ⟨operands, rfl⟩ := hfirst.exists_withOperands
    rw [forall_mem_cons, forall_mem_cons, isLabelAlone_withOperands]
    exact and_congr_right fun _ => ih

theorem jumpKey?_of_isLabelAlone {line : Line} (h : line.isLabelAlone) : line.jumpKey? = none := by
  have hbody : line.body = .labelOnly := by
    unfold Line.isLabelAlone at h
    simpa using (Bool.and_eq_true_iff.1 h).2
  simp [Line.jumpKey?, Line.isJump, Line.hasOpcode, Line.opcode?, hbody]

/-- Labels alone name no label, so that none of them is used. -/
theorem dropUnusedLabels_eq_nil_iff :
    dropUnusedLabels lines = [] ↔ ∀ line ∈ lines, line.isLabelAlone := by
  unfold dropUnusedLabels
  rw [filterMap_eq_nil_iff]
  constructor
  · intro h line hline
    have hnone := h line hline
    rcases dropLabelUnless_cases (labelReferences lines) line with
      hkept | ⟨-, hlabel, hbody⟩ | ⟨hkept, -⟩
    · cases hkept.symm.trans hnone
    · rw [Line.isLabelAlone, hlabel, hbody]
      rfl
    · cases hkept.symm.trans hnone
  · intro h line hline
    have hreferences : labelReferences lines = [] :=
      filterMap_eq_nil_iff.2 fun other hother => jumpKey?_of_isLabelAlone (h other hother)
    have halone := h line hline
    rw [Line.isLabelAlone, Bool.and_eq_true] at halone
    obtain ⟨label, hlabel⟩ := Option.isSome_iff_exists.1 halone.1
    rw [hreferences, dropLabelUnless, hlabel]
    simp [halone.2]

/-! ### Steps that leave a line -/

theorem renumberLabels_eq_nil_iff : renumberLabels lines = [] ↔ lines = [] := by
  rw [renumberLabels_eq, map_eq_nil_iff]

theorem dropDoubleNots_eq_nil_iff : dropDoubleNots lines = [] ↔ lines = [] := by
  fun_cases dropDoubleNots lines <;> simp_all

theorem foldUnitSteps_eq_nil_iff : foldUnitSteps lines = [] ↔ lines = [] := by
  unfold foldUnitSteps
  fun_cases foldUnitStepsFrom none lines <;> simp_all

theorem joinStrings_eq_nil_iff : joinStrings lines = [] ↔ lines = [] := by
  fun_cases joinStrings lines <;> simp_all

/-- Only a label that no jump names is ever dropped without a line left in its place. -/
theorem normalizeLines_eq_nil_iff (h : normalizeLines lines = .ok out) :
    out = [] ↔ ∀ line ∈ lines, line.isLabelAlone := by
  obtain ⟨numbered, hnumbered, rfl⟩ := exists_of_normalizeLines h
  rw [zeroUrlMethods, map_eq_nil_iff, joinStrings_eq_nil_iff, emptyConstantPools,
    map_eq_nil_iff, foldUnitSteps_eq_nil_iff, dropDoubleNots_eq_nil_iff,
    renumberLabels_eq_nil_iff, dropUnusedLabels_eq_nil_iff,
    forall_renumberRegisters_iff hnumbered, plainHeaders, plainLiterals, forall_mem_map,
    forall_mem_map]
  simp only [isLabelAlone_plainHeader, isLabelAlone_withOperands]
  exact forall_splitPushes_iff

/-! ### Files of blocks -/

/-- The file of a block ends its last line, and a file has at least one line. -/
theorem length_lines_render {block : Block} (h : ∀ line ∈ block.lines, line.FitsLine) :
    (Bytes.lines (Text.encode (block.render ++ "\n"))).length = max 1 block.lines.length := by
  have hsingle := isSingleLine_renderLines h
  rw [Bytes.lines, Text.decodeLenient_encode, Block.render,
    Text.unifyNewlines_joinLines_newline hsingle, String.ofList_toList]
  cases hlines : block.lines with
  | nil => rfl
  | cons line lines =>
    rw [hlines] at hsingle
    rw [Text.splitLines_joinLines_newline hsingle (by simp [renderLines])]
    simp [renderLines]

/-- Every line in normal form has sources. -/
theorem isSourced_of_normalizeScript {text : String} {blocks : List Block}
    (hlines : readText text = .ok lines) (hblocks : normalizeScript lines = .ok blocks) :
    ∀ block ∈ blocks, ∀ line ∈ block.lines, line.IsSourced :=
  lineInvariant_isSourced.normalizeScript (forall_of_readText isSourced_of_readBody hlines) hblocks

end MovieDiff.Pcode
