import MovieDiff.Proofs.Alignment.Labels
import MovieDiff.Proofs.Pcode.Token
import MovieDiff.Proofs.Pcode.Unsourced
import MovieDiff.Proofs.Text.Lines

/-!
Lines that come back from their text. A readable line is written on one line of text, its opcode and
bare operands are words, and its quoted operands end where their quotes do. Main statement: the text
of a block of readable lines is read as these lines, in the same order and with none left out.
-/
namespace MovieDiff.Pcode

open List
open MovieDiff.Alignment (splitLabel_of_none splitLabel_write)
open Text (isBlank isBlankText isSingleLine strip StartsClear EndsClear)
open String (toList_append)

variable {c : Char} {cs rest : List Char} {body divider opcode : String} {line : Line}

/-! ### Well-formed lines -/

/-- A character of an opcode or of a bare operand: no quote, blank or separator. -/
def isBareChar (c : Char) : Bool :=
  !isDivider c && c != '"'

/-- Whether quotes around a text end at its end: every quote in it comes after a backslash, and no
backslash is left over. -/
def isQuotable : List Char → Bool
  | [] => true
  | '\\' :: rest =>
    match rest with
    | [] => false
    | _ :: rest => isQuotable rest
  | c :: rest => c != '"' && isQuotable rest

def Operand.isWellFormed (o : Operand) : Bool :=
  match o.kind with
  | .string => isQuotable o.value.spelling.toList
  | .boolean => true
  | .numeric | .symbol => o.value.spelling.toList.all isBareChar

def Line.isWellFormed (line : Line) : Bool :=
  match line.body with
  | .instruction opcode operands =>
    opcode.toList.all isBareChar && operands.all Operand.isWellFormed
  | _ => true

theorem isBareChar_iff : isBareChar c ↔ isDivider c = false ∧ c ≠ '"' := by
  simp [isBareChar]

theorem isBlank_of_isBareChar (h : isBareChar c) : isBlank c = false := by
  have hdivider := (isBareChar_iff.1 h).1
  simp only [isDivider, Bool.or_eq_false_iff] at hdivider
  exact hdivider.2

theorem ne_of_isBareChar {d : Char} (h : isBareChar c) (hd : isBareChar d = false) : c ≠ d := by
  rintro rfl
  rw [hd] at h
  cases h

theorem isQuotable_escape (c : Char) (rest : List Char) :
    isQuotable ('\\' :: c :: rest) = isQuotable rest := rfl

theorem isQuotable_cons (h : c ≠ '\\') (rest : List Char) :
    isQuotable (c :: rest) = (c != '"' && isQuotable rest) := by
  rw [isQuotable]
  simpa using h

/-- Where one quotable text ends another one goes on. -/
theorem isQuotable_append {ds : List Char} (hcs : isQuotable cs) (hds : isQuotable ds) :
    isQuotable (cs ++ ds) := by
  fun_induction isQuotable cs with
  | case1 => exact hds
  | case2 => cases hcs
  | case3 c rest ih =>
    rw [cons_append, cons_append, isQuotable_escape]
    exact ih hcs
  | case4 c rest hc ih =>
    rw [Bool.and_eq_true] at hcs
    rw [cons_append, isQuotable_cons hc, Bool.and_eq_true]
    exact ⟨hcs.1, ih hcs.2⟩

/-- The scanner leaves the quotes at the end of a quotable text and not before. -/
theorem cutWord_quoted (h : isQuotable cs) (rest : List Char) :
    cutWord .quoted (cs ++ '"' :: rest) =
      (cs ++ '"' :: (cutWord .plain rest).1, (cutWord .plain rest).2) := by
  fun_induction isQuotable cs with
  | case1 => simp [cutWord, ScanMode.next]
  | case2 => cases h
  | case3 c more ih => simp [cutWord, ScanMode.next, ih h]
  | case4 c more hc ih =>
    simp only [Bool.and_eq_true, bne_iff_ne] at h
    have hc : c ≠ '\\' := hc
    simp [cutWord, ScanMode.next, hc, h.1, ih h.2]

/-! ### Readable operands -/

inductive Operand.IsReadable : Operand → Prop where
  | string {s : String} (hquotable : isQuotable s.toList) (hline : isSingleLine s.toList) :
      IsReadable (.ofString s)
  | numeral {s : String} (hbare : ∀ c ∈ s.toList, isBareChar c) (hnumeral : isNumeral s.toList) :
      IsReadable (.ofNumeral s)
  | flag (b : Bool) : IsReadable (.ofFlag b)
  | symbol {s : String} (hne : s.toList ≠ []) (hbare : ∀ c ∈ s.toList, isBareChar c)
      (hnumeral : isNumeral s.toList = false) (htrue : Text.lowercase s ≠ "true")
      (hfalse : Text.lowercase s ≠ "false") : IsReadable (.ofSymbol s)

variable {word : List Char}

theorem isToken_of_isBareChar (hne : word ≠ []) (hword : ∀ c ∈ word, isBareChar c)
    (hrest : ∀ c ∈ rest.head?, isDivider c) :
    IsToken word rest :=
  isToken_of_plain hne (fun c hc => isBareChar_iff.1 (hword c hc)) hrest

theorem readOperand_bare {token : List Char} (h : ∀ c ∈ token, isBareChar c) :
    readOperand token =
      if isNumeral token then .ok (.ofNumeral (String.ofList token))
      else if Text.lowercase (String.ofList token) = "true" then .ok (.ofFlag true)
      else if Text.lowercase (String.ofList token) = "false" then .ok (.ofFlag false)
      else .ok (.ofSymbol (String.ofList token)) := by
  unfold readOperand
  split
  next tail => exact absurd rfl (ne_of_isBareChar (h '"' mem_cons_self) (by decide))
  · rfl

namespace Operand

variable {o : Operand} (h : o.IsReadable)
include h

omit h in
theorem render_ofString (s : String) : (ofString s).render.toList = '"' :: (s.toList ++ ['"']) := by
  simp [ofString, render, OperandValue.spelling]

/-- The text of an operand stands in quotes, or it is bare. -/
theorem render_cases :
    (∃ cs, isQuotable cs ∧ o.render.toList = '"' :: (cs ++ ['"'])) ∨
      o.render.toList ≠ [] ∧ ∀ c ∈ o.render.toList, isBareChar c := by
  cases h with
  | @string s hquotable hline => exact .inl ⟨s.toList, hquotable, render_ofString s⟩
  | @numeral s hbare hnumeral =>
    refine .inr ⟨fun hnil => ?_, hbare⟩
    rw [show s.toList = [] from hnil] at hnumeral
    cases hnumeral
  | flag b =>
    have hbare : (ofFlag b).render.toList.all isBareChar := by cases b <;> decide
    exact .inr ⟨by cases b <;> decide, all_eq_true.1 hbare⟩
  | symbol hne hbare => exact .inr ⟨hne, hbare⟩

/-- The text of an operand is one token. -/
theorem isToken_render (hrest : ∀ c ∈ rest.head?, isDivider c) :
    IsToken o.render.toList rest := by
  rcases render_cases h with ⟨cs, hquotable, htext⟩ | ⟨hne, hbare⟩
  · have hcut := cutWord_quoted hquotable rest
    rw [cutWord_plain_of_divider hrest] at hcut
    have hopen : isDivider '"' = false := by decide
    rw [htext]
    refine ⟨by simp, ?_⟩
    simp [cutWord, hopen, ScanMode.next, hcut]
  · exact isToken_of_isBareChar hne hbare hrest

/-- An operand is read back. -/
theorem readOperand_render : readOperand o.render.toList = .ok o := by
  cases h with
  | @string s hquotable hline =>
    rw [render_ofString]
    simp [readOperand]
  | @numeral s hbare hnumeral =>
    rw [show (ofNumeral s).render = s from rfl, readOperand_bare hbare, if_pos hnumeral,
      String.ofList_toList]
  | flag b => cases b <;> decide
  | @symbol s hne hbare hnumeral htrue hfalse =>
    rw [show (ofSymbol s).render = s from rfl, readOperand_bare hbare, String.ofList_toList,
      if_neg (by simp [hnumeral]), if_neg htrue, if_neg hfalse]

theorem isSingleLine_spelling : isSingleLine o.value.spelling.toList := by
  cases h with
  | string hquotable hline => exact hline
  | numeral hbare =>
    exact Text.isSingleLine_of_no_blank fun c hc => isBlank_of_isBareChar (hbare c hc)
  | flag b => cases b <;> decide
  | symbol hne hbare =>
    exact Text.isSingleLine_of_no_blank fun c hc => isBlank_of_isBareChar (hbare c hc)

theorem endsClear_render : EndsClear o.render.toList := by
  rcases render_cases h with ⟨cs, -, htext⟩ | ⟨-, hbare⟩
  · rw [htext, ← cons_append]
    exact Text.endsClear_append (by simp) (Text.endsClear_of_forall (by simp [isBlank_quote]))
  · exact Text.endsClear_of_forall fun c hc => isBlank_of_isBareChar (hbare c hc)

omit h in
theorem isSingleLine_render (hline : isSingleLine o.value.spelling.toList) :
    isSingleLine o.render.toList := by
  unfold render
  split
  · rw [toList_append, toList_append, Text.isSingleLine_append,
      Text.isSingleLine_append]
    exact ⟨⟨by decide, hline⟩, by decide⟩
  · split <;> decide
  · exact hline

end Operand

/-! ### Readable lines -/

inductive Line.IsReadable : Line → Prop where
  | instruction {sources : List Int} {label : Option String} {opcode : String}
      {operands : List Operand} (hlabel : ∀ text ∈ label, isLabelWord text.toList)
      (hne : opcode.toList ≠ []) (hopcode : ∀ c ∈ opcode.toList, isBareChar c)
      (hoperands : ∀ o ∈ operands, o.IsReadable) :
      IsReadable ⟨sources, label, .instruction opcode operands⟩
  | closing {sources : List Int} {label : Option String}
      (hlabel : ∀ text ∈ label, isLabelWord text.toList) :
      IsReadable ⟨sources, label, .structural "\x7d"⟩
  | labelOnly {sources : List Int} {label : String} (hlabel : isLabelWord label.toList) :
      IsReadable ⟨sources, some label, .labelOnly⟩

def operandTexts (cs : List Char) : List (List Char) :=
  (tokenTexts cs).filter fun text => text != [','] && text != ['\x7b']

theorem mapM_readOperand (tokens : List Token) :
    ((tokens.filter isOperandToken).mapM fun token => readOperand token.text) =
      ((tokens.map Token.text).filter
        fun text => text != [','] && text != ['\x7b']).mapM readOperand := by
  rw [filter_map, mapM_map]
  rfl

theorem operandTexts_skip (h : isBlank c ∨ c = ',' ∨ c = '\x7b') (rest : List Char) :
    operandTexts (c :: rest) = operandTexts rest := by
  rcases h with hblank | rfl | rfl
  · rw [operandTexts, tokenTexts_blank hblank, ← operandTexts]
  · rw [operandTexts, tokenTexts_separator (by decide)]
    rfl
  · rw [operandTexts, tokenTexts_separator (by decide)]
    rfl

theorem operandTexts_word (h : IsToken word rest) :
    operandTexts (word ++ rest) = word :: operandTexts rest := by
  have hne : ∀ d, isDivider d → word ≠ [d] := by
    rintro d hd rfl
    rw [h.head d rfl] at hd
    cases hd
  rw [operandTexts, tokenTexts_word h, filter_cons_of_pos]
  · rfl
  · simp [hne ',' (by decide), hne '\x7b' (by decide)]

variable {operands : List Operand}

/-- Operands divided by commas are tokens of their own, up to a divider. -/
theorem operandTexts_intercalate (h : ∀ o ∈ operands, o.IsReadable)
    (hrest : ∀ c ∈ rest.head?, isDivider c) :
    operandTexts ((", ".intercalate (operands.map Operand.render)).toList ++ rest) =
      operands.map (fun o => o.render.toList) ++ operandTexts rest := by
  induction operands with
  | nil => simp
  | cons o operands ih =>
    have ho := h o mem_cons_self
    cases hothers : operands with
    | nil =>
      rw [map_singleton, String.intercalate_singleton, operandTexts_word
        (Operand.isToken_render ho hrest)]
      rfl
    | cons next others =>
      have hlater := ih fun other hother => h other (mem_cons_of_mem o hother)
      have htext : (", ".intercalate ((o :: operands).map Operand.render)).toList ++ rest =
          o.render.toList ++ ',' :: ' ' ::
            ((", ".intercalate (operands.map Operand.render)).toList ++ rest) := by
        rw [hothers, map_cons, map_cons, String.intercalate_cons_cons]
        simp
      have hcomma : IsToken o.render.toList (',' :: ' ' ::
          ((", ".intercalate (operands.map Operand.render)).toList ++ rest)) := by
        refine Operand.isToken_render ho ?_
        rintro c ⟨⟩
        decide
      rw [← hothers, htext, operandTexts_word hcomma, operandTexts_skip (.inr (.inl rfl)),
        operandTexts_skip (.inl (by decide)), hlater]
      rfl

theorem isSingleLine_intercalate {texts : List String}
    (hdivider : isSingleLine divider.toList) (h : ∀ text ∈ texts, isSingleLine text.toList) :
    isSingleLine (divider.intercalate texts).toList := by
  induction texts with
  | nil => rfl
  | cons text texts ih =>
    have htext := h text mem_cons_self
    have hothers := ih fun other hother => h other (mem_cons_of_mem text hother)
    cases texts with
    | nil => rwa [String.intercalate_singleton]
    | cons next texts =>
      rw [String.intercalate_cons_cons, toList_append, toList_append,
        Text.isSingleLine_append, Text.isSingleLine_append]
      exact ⟨⟨htext, hdivider⟩, hothers⟩

theorem endsClear_intercalate {texts : List String} (hne : texts ≠ [])
    (h : ∀ text ∈ texts, text.toList ≠ [] ∧ EndsClear text.toList) :
    (divider.intercalate texts).toList ≠ [] ∧ EndsClear (divider.intercalate texts).toList := by
  induction texts with
  | nil => exact absurd rfl hne
  | cons text texts ih =>
    cases texts with
    | nil =>
      rw [String.intercalate_singleton]
      exact h text mem_cons_self
    | cons next texts =>
      obtain ⟨hnext, hends⟩ :=
        ih (by simp) fun other hother => h other (mem_cons_of_mem text hother)
      rw [String.intercalate_cons_cons, toList_append]
      exact ⟨append_ne_nil_of_right_ne_nil _ hnext, Text.endsClear_append hnext hends⟩

def Line.tailText (line : Line) : String :=
  (if line.operands.isEmpty then ""
    else " " ++ ", ".intercalate (line.operands.map Operand.render)) ++
  (if line.isDefinition then " \x7b" else "")

theorem render_instruction (sources : List Int) (label : Option String) (opcode : String)
    (operands : List Operand) :
    let line : Line := ⟨sources, label, .instruction opcode operands⟩
    line.render = line.labelText ++ (opcode ++ line.tailText) := by
  simp [Line.render, Line.tailText, Line.operands, String.append_assoc]

namespace Line

variable (h : ∀ o ∈ line.operands, o.IsReadable)
include h

/-- The operands are found in the text. -/
theorem operandTexts_tailText :
    operandTexts line.tailText.toList = line.operands.map fun o => o.render.toList := by
  have hbrace : operandTexts (if line.isDefinition then " \x7b" else "").toList = [] := by
    split <;> decide
  have hdivider : ∀ c ∈ (if line.isDefinition then " \x7b" else "").toList.head?,
      isDivider c := by
    split
    · rintro c ⟨⟩
      decide
    · rintro c ⟨⟩
  rw [tailText, toList_append]
  split
  next hempty =>
    rw [List.isEmpty_iff.1 hempty]
    exact hbrace
  next =>
    rw [toList_append]
    have hspace := operandTexts_skip (.inl (by decide : isBlank ' '))
      ((", ".intercalate (line.operands.map Operand.render)).toList ++
        (if line.isDefinition then " \x7b" else "").toList)
    rw [operandTexts_intercalate h hdivider, hbrace, append_nil] at hspace
    exact hspace

/-- After an opcode comes nothing, or a space and a word that is no colon. -/
theorem tailText_cases : line.tailText.toList = [] ∨
    ∃ c more, line.tailText.toList = ' ' :: c :: more ∧ isBlank c = false ∧ c ≠ ':' := by
  unfold tailText
  cases hoperands : line.operands with
  | nil =>
    cases line.isDefinition with
    | true => exact .inr ⟨'\x7b', [], rfl, by decide, by decide⟩
    | false => exact .inl rfl
  | cons o operands =>
    have htoken : IsToken o.render.toList [] :=
      Operand.isToken_render (h o (hoperands ▸ mem_cons_self)) (by simp)
    obtain ⟨c, more, hrender⟩ := exists_cons_of_ne_nil htoken.nonempty
    have hdivider : isDivider c = false := htoken.head c (by rw [hrender]; rfl)
    have hclear : isBlank c = false ∧ c ≠ ':' := by
      refine ⟨?_, ?_⟩
      · simp only [isDivider, Bool.or_eq_false_iff] at hdivider
        exact hdivider.2
      · rintro rfl
        exact absurd hdivider (by decide)
    refine .inr ⟨c, ?_⟩
    cases operands with
    | nil => simp [hrender, hclear]
    | cons next operands => simp [String.intercalate_cons_cons, hrender, hclear]

theorem endsClear_tailText : EndsClear line.tailText.toList := by
  have hbrace : EndsClear " \x7b".toList :=
    @Text.endsClear_append [' '] ['\x7b'] (by simp) (by rintro c ⟨⟩; decide)
  unfold tailText
  cases hdefinition : line.isDefinition with
  | true =>
    rw [if_pos rfl, toList_append]
    exact Text.endsClear_append (by decide) hbrace
  | false =>
    rw [if_neg Bool.false_ne_true, String.append_empty]
    cases hoperands : line.operands with
    | nil => rintro c ⟨⟩
    | cons o operands =>
      rw [← hoperands, if_neg (by simp [hoperands]), toList_append]
      obtain ⟨hne, hends⟩ := @endsClear_intercalate ", " (line.operands.map Operand.render)
        (by simp [hoperands]) fun text htext => by
          obtain ⟨o, ho, rfl⟩ := mem_map.1 htext
          exact ⟨(@Operand.isToken_render [] o (h o ho) (by simp)).nonempty,
            Operand.endsClear_render (h o ho)⟩
      exact Text.endsClear_append hne hends

omit h in
theorem isSingleLine_tailText
    (hlines : ∀ o ∈ line.operands, isSingleLine o.value.spelling.toList) :
    isSingleLine line.tailText.toList := by
  rw [tailText, toList_append, Text.isSingleLine_append]
  refine ⟨?_, by split <;> decide⟩
  split
  · decide
  · rw [toList_append, Text.isSingleLine_append]
    refine ⟨by decide, isSingleLine_intercalate (by decide) fun text htext => ?_⟩
    obtain ⟨o, ho, rfl⟩ := mem_map.1 htext
    exact Operand.isSingleLine_render (hlines o ho)

end Line

theorem labelPrefix?_of_no_colon (h : ':' ∉ cs) : labelPrefix? cs = none := by
  unfold labelPrefix?
  split
  · rfl
  next c tail hstrip =>
    have htail : ∀ d ∈ tail, d ∈ cs := by
      intro d hd
      have hmem : d ∈ Text.stripLeft cs := hstrip ▸ mem_cons_of_mem c hd
      exact dropWhile_subset _ hmem
    split
    · split
      next rest hrest =>
        have hmem : ':' ∈ Text.stripLeft (tail.dropWhile isLabelChar) :=
          hrest ▸ mem_cons_self
        exact absurd (htail _ (dropWhile_subset _ (dropWhile_subset _ hmem))) h
      · rfl
    · rfl

/-! ### Reading one line -/

theorem isLabelWord_ne_nil (h : isLabelWord cs) : cs ≠ [] := by
  rintro rfl
  cases h

theorem labelText_some {label : String} (h : line.label = some label)
    (hlabel : isLabelWord label.toList) : line.labelText = label ++ ":" := by
  have hne : label.isEmpty = false := by
    simpa using isLabelWord_ne_nil hlabel
  simp [Line.labelText, h, hne]

theorem labelText_none (h : line.label = none) : line.labelText = "" := by
  simp [Line.labelText, h]

/-- A label before a text without one is read back. -/
theorem splitLabel_labelText (hlabel : ∀ text ∈ line.label, isLabelWord text.toList)
    (hclear : StartsClear body.toList) (hline : isSingleLine body.toList)
    (hnone : labelPrefix? body.toList = none) :
    splitLabel (line.labelText ++ body) = (body, line.label) := by
  cases hcase : line.label with
  | none =>
    rw [labelText_none hcase, String.empty_append]
    exact splitLabel_of_none hnone
  | some label =>
    have hword := hlabel label hcase
    rw [labelText_some hcase hword]
    exact splitLabel_write hword hclear (Text.newline_not_mem hline)

theorem isBlankText_of_startsClear (hne : cs ≠ []) (hclear : StartsClear cs) :
    isBlankText cs = false := by
  obtain ⟨c, cs, rfl⟩ := exists_cons_of_ne_nil hne
  simp [isBlankText, Text.startsClear_cons.1 hclear]

theorem isBlankText_labelText (hlabel : ∀ text ∈ line.label, isLabelWord text.toList)
    (hclear : StartsClear body.toList) (h : line.label = none → body.toList ≠ []) :
    isBlankText (line.labelText ++ body).toList = false := by
  cases hcase : line.label with
  | none =>
    rw [labelText_none hcase, String.empty_append]
    exact isBlankText_of_startsClear (h hcase) hclear
  | some label =>
    have hword := hlabel label hcase
    obtain ⟨c, tail, hcs, hc, -⟩ := isWordOf_iff.1 hword
    have hblank := isBlank_of_isLabelChar (isLabelChar_of_isLabelStart hc)
    rw [labelText_some hcase hword, toList_append, toList_append, hcs]
    exact isBlankText_of_startsClear (cons_ne_nil _ _) (Text.startsClear_cons.2 hblank)

def readBody (index : Int) (label : Option String) (rest : String) : Except Fault Line :=
  if label.isSome && (strip rest.toList).isEmpty then .ok ⟨[index], label, .labelOnly⟩
  else if strip rest.toList == ['\x7d'] then .ok ⟨[index], label, .structural "\x7d"⟩
  else match tokenTexts rest.toList with
    | [] => .error .missingOperand
    | opcode :: texts => do
      let operands ← (texts.filter fun text => text != [','] && text != ['\x7b']).mapM readOperand
      return ⟨[index], label, .instruction (String.ofList opcode) operands⟩

theorem readLine_eq (index : Int) (text : String) :
    readLine index text =
      if isBlankText text.toList then .ok none
      else (readBody index (splitLabel text).2 (splitLabel text).1).map some := by
  unfold readLine readBody tokenTexts
  split
  · rfl
  · generalize splitLabel text = parts
    obtain ⟨rest, label⟩ := parts
    dsimp only
    split
    · rfl
    split
    · rfl
    cases tokenize rest.toList with
    | nil => rfl
    | cons opcode tokens =>
      rw [map_cons]
      dsimp only
      rw [mapM_readOperand]
      cases ((tokens.map Token.text).filter
        fun text => text != [','] && text != ['\x7b']).mapM readOperand <;> rfl

theorem readLine_cases {index : Int} {text : String} {first : Option Line}
    (h : readLine index text = .ok first) :
    isBlankText text.toList ∧ first = none ∨ isBlankText text.toList = false ∧
      ∃ line, first = some line ∧
        readBody index (splitLabel text).2 (splitLabel text).1 = .ok line := by
  rw [readLine_eq] at h
  cases hblank : isBlankText text.toList with
  | true =>
    rw [hblank] at h
    cases h
    exact .inl ⟨rfl, rfl⟩
  | false =>
    rw [hblank] at h
    obtain ⟨line, hbody, rfl⟩ := exists_of_map_eq_ok h
    exact .inr ⟨rfl, line, rfl, hbody⟩

theorem sources_readBody {index : Int} {label : Option String} {rest : String}
    (h : readBody index label rest = .ok line) :
    line.sources = [index] ∧ line.isClosing = (strip rest.toList == ['\x7d']) := by
  unfold readBody at h
  split at h
  next hempty =>
    cases h
    have hstrip : strip rest.toList = [] := by simp_all
    simp [Line.isClosing, hstrip]
  · split at h
    next hbrace =>
      cases h
      simp [Line.isClosing, hbrace]
    next hbrace =>
      split at h
      · cases h
      · obtain ⟨operands, -, heq⟩ := exists_of_bind_eq_ok h
        cases heq
        exact ⟨rfl, (Bool.eq_false_iff.2 hbrace).symm⟩

theorem readLine_labelText (index : Int) (hlabel : ∀ text ∈ line.label, isLabelWord text.toList)
    (hne : line.label = none → body.toList ≠ [])
    (hclear : StartsClear body.toList) (hline : isSingleLine body.toList)
    (hnone : labelPrefix? body.toList = none) :
    readLine index (line.labelText ++ body) = (readBody index line.label body).map some := by
  rw [readLine_eq, isBlankText_labelText hlabel hclear hne, if_neg Bool.false_ne_true,
    splitLabel_labelText hlabel hclear hline hnone]

theorem mapM_readOperand_render (h : ∀ o ∈ operands, o.IsReadable) :
    (operands.map fun o => o.render.toList).mapM readOperand = .ok operands := by
  induction operands with
  | nil => rfl
  | cons o operands ih =>
    rw [map_cons, mapM_cons, Operand.readOperand_render (h o mem_cons_self),
      ih fun other hother => h other (mem_cons_of_mem o hother)]
    rfl

section Instruction

variable (hne : opcode.toList ≠ [])
  (hopcode : ∀ c ∈ opcode.toList, isBareChar c) (hoperands : ∀ o ∈ line.operands, o.IsReadable)
include hne hopcode hoperands

theorem labelPrefix?_instruction : labelPrefix? (opcode ++ line.tailText).toList = none := by
  obtain ⟨c, word, hcs⟩ := exists_cons_of_ne_nil hne
  have hc : isBareChar c := hopcode c (hcs ▸ mem_cons_self)
  have hword : ∀ d ∈ word, isBlank d = false ∧ d ≠ ':' := fun d hd => by
    have hbare := hopcode d (hcs ▸ mem_cons_of_mem c hd)
    exact ⟨isBlank_of_isBareChar hbare, ne_of_isBareChar hbare (by decide)⟩
  rw [toList_append, hcs, cons_append]
  -- A colon can stand in a quoted operand only, and a blank comes before that.
  rcases Line.tailText_cases hoperands with hnil | ⟨d, more, hmore, hd, hcolon⟩
  · rw [hnil, append_nil]
    refine labelPrefix?_of_no_colon fun hmem => ?_
    exact ne_of_isBareChar (hopcode ':' (hcs ▸ hmem)) (by decide) rfl
  · rw [hmore]
    exact labelPrefix?_of_words (isBlank_of_isBareChar hc) hword hd hcolon

omit hoperands in
theorem startsClear_instruction : StartsClear (opcode ++ line.tailText).toList := by
  obtain ⟨c, word, hcs⟩ := exists_cons_of_ne_nil hne
  rw [toList_append, hcs]
  exact Text.startsClear_cons.2 (isBlank_of_isBareChar (hopcode c (hcs ▸ mem_cons_self)))

omit hne in
theorem isSingleLine_instruction : isSingleLine (opcode ++ line.tailText).toList := by
  rw [toList_append, Text.isSingleLine_append]
  exact ⟨Text.isSingleLine_of_no_blank fun d hd => isBlank_of_isBareChar (hopcode d hd),
    Line.isSingleLine_tailText fun o ho => Operand.isSingleLine_spelling (hoperands o ho)⟩

omit hne in
theorem endsClear_instruction : EndsClear (opcode ++ line.tailText).toList := by
  rw [toList_append]
  by_cases htail : line.tailText.toList = []
  · rw [htail, append_nil]
    exact Text.endsClear_of_forall fun c hc => isBlank_of_isBareChar (hopcode c hc)
  · exact Text.endsClear_append htail (Line.endsClear_tailText hoperands)

theorem tokenTexts_instruction : tokenTexts (opcode ++ line.tailText).toList =
    opcode.toList :: tokenTexts line.tailText.toList := by
  have hdivider : ∀ d ∈ line.tailText.toList.head?, isDivider d := by
    rcases Line.tailText_cases hoperands with hnil | ⟨d, more, hmore, -⟩
    · simp [hnil]
    · rw [hmore]
      rintro e ⟨⟩
      decide
  rw [toList_append]
  exact tokenTexts_word (isToken_of_isBareChar hne hopcode hdivider)

/-- An instruction is read back. -/
theorem readBody_instruction (index : Int) :
    readBody index line.label (opcode ++ line.tailText) =
      .ok ⟨[index], line.label, .instruction opcode line.operands⟩ := by
  obtain ⟨c, word, hcs⟩ := exists_cons_of_ne_nil hne
  have hc : isBareChar c := hopcode c (hcs ▸ mem_cons_self)
  have hbrace : c ≠ '\x7d' := ne_of_isBareChar hc (by decide)
  have hfilter := Line.operandTexts_tailText hoperands
  rw [operandTexts] at hfilter
  unfold readBody
  rw [tokenTexts_instruction hne hopcode hoperands, Text.strip_eq_self
    (startsClear_instruction hne hopcode) (endsClear_instruction hopcode hoperands), toList_append,
    hcs, cons_append]
  dsimp only
  rw [hfilter, mapM_readOperand_render hoperands, ← hcs]
  simp [hbrace]

end Instruction

theorem readLine_instruction (hbody : line.body = .instruction opcode operands)
    (hlabel : ∀ text ∈ line.label, isLabelWord text.toList) (hne : opcode.toList ≠ [])
    (hopcode : ∀ c ∈ opcode.toList, isBareChar c) (hoperands : ∀ o ∈ operands, o.IsReadable)
    (index : Int) :
    readLine index (line.labelText ++ (opcode ++ line.tailText)) =
      .ok (some { line with sources := [index] }) := by
  have hlist : line.operands = operands := by rw [Line.operands, hbody]
  have hreadable : ∀ o ∈ line.operands, o.IsReadable := by rwa [hlist]
  rw [readLine_labelText index hlabel (fun _ => by simp [toList_append, hne])
    (startsClear_instruction hne hopcode) (isSingleLine_instruction hopcode hreadable)
    (labelPrefix?_instruction hne hopcode hreadable),
    readBody_instruction hne hopcode hreadable, hlist, ← hbody]
  rfl

/-- A readable line is read back. -/
theorem readLine_render (h : line.IsReadable) (index : Int) :
    readLine index line.render = .ok (some { line with sources := [index] }) := by
  cases h with
  | @instruction sources label opcode operands hlabel hne hopcode hoperands =>
    rw [render_instruction]
    exact readLine_instruction rfl hlabel hne hopcode hoperands index
  | @closing sources label hlabel =>
    have hread : readLine index (Line.labelText ⟨sources, label, .structural "\x7d"⟩ ++ "\x7d") =
        (readBody index label "\x7d").map some :=
      readLine_labelText index hlabel (fun _ => by decide) (Text.startsClear_cons.2 (by decide))
        (by decide) rfl
    have hbody : readBody index label "\x7d" = .ok ⟨[index], label, .structural "\x7d"⟩ := by
      cases label <;> rfl
    rw [hbody] at hread
    exact hread
  | @labelOnly sources label hlabel =>
    have hread : readLine index (Line.labelText ⟨sources, some label, .labelOnly⟩ ++ "") = _ :=
      readLine_labelText index (fun text htext => Option.some.inj htext ▸ hlabel) (by simp)
        (by simp [StartsClear]) (by decide) rfl
    rw [String.append_empty] at hread
    exact hread

/-! ### Lines of text -/

def Body.texts : Body → List String
  | .instruction opcode operands => opcode :: operands.map (·.value.spelling)
  | .structural mark => [mark]
  | .labelOnly => []

/-- A line that no part of it breaks when it is written. -/
structure Line.FitsLine (line : Line) : Prop where
  label : ∀ text ∈ line.label, isSingleLine text.toList
  body : ∀ text ∈ line.body.texts, isSingleLine text.toList

theorem isSingleLine_labelText (hlabel : ∀ text ∈ line.label, isSingleLine text.toList) :
    isSingleLine line.labelText.toList := by
  unfold Line.labelText
  split
  next label hcase =>
    split
    · rfl
    · rw [toList_append, Text.isSingleLine_append]
      exact ⟨hlabel label hcase, by decide⟩
  · rfl

theorem isSingleLine_render (h : line.FitsLine) :
    isSingleLine line.render.toList := by
  obtain ⟨hlabel, hbody⟩ := h
  have hfront := isSingleLine_labelText hlabel
  obtain ⟨sources, label, body⟩ := line
  cases body with
  | instruction opcode operands =>
    rw [render_instruction, toList_append, toList_append, Text.isSingleLine_append,
      Text.isSingleLine_append]
    refine ⟨hfront, hbody opcode mem_cons_self, Line.isSingleLine_tailText fun o ho => ?_⟩
    exact hbody _ (mem_cons_of_mem opcode (mem_map_of_mem ho))
  | structural mark =>
    rw [Line.render, toList_append, Text.isSingleLine_append]
    exact ⟨hfront, hbody mark mem_cons_self⟩
  | labelOnly => exact hfront

theorem isSingleLine_of_isLabelWord (h : isLabelWord cs) : isSingleLine cs :=
  Text.isSingleLine_of_no_blank fun _ hc =>
    isBlank_of_isTargetChar (isTargetChar_of_mem (isTargetWord_of_isLabelWord h) hc)

theorem Line.IsReadable.fitsLine (h : line.IsReadable) : line.FitsLine := by
  cases h with
  | instruction hlabel hne hopcode hoperands =>
    refine ⟨fun text htext => isSingleLine_of_isLabelWord (hlabel text htext), ?_⟩
    rw [Body.texts, forall_mem_cons, forall_mem_map]
    exact ⟨Text.isSingleLine_of_no_blank fun c hc => isBlank_of_isBareChar (hopcode c hc),
      fun o ho => Operand.isSingleLine_spelling (hoperands o ho)⟩
  | closing hlabel =>
    exact ⟨fun text htext => isSingleLine_of_isLabelWord (hlabel text htext),
      forall_mem_singleton.2 (by decide)⟩
  | labelOnly hlabel =>
    exact ⟨fun text htext => Option.some.inj htext ▸ isSingleLine_of_isLabelWord hlabel,
      forall_mem_nil _⟩

variable {lines : List Line}

theorem isSingleLine_renderLines (h : ∀ line ∈ lines, line.FitsLine) :
    ∀ text ∈ renderLines lines, isSingleLine text.toList := by
  intro text htext
  obtain ⟨line, hline, rfl⟩ := mem_map.1 htext
  exact isSingleLine_render (h line hline)

/-! ### Reading a block -/

/-- Every readable line is read, with its place for the only source line. -/
theorem readLinesFrom_renderLines (h : ∀ line ∈ lines, line.IsReadable) (index : Int) :
    ∃ found, readLinesFrom index (renderLines lines) = .ok found ∧
      found.map Line.unsourced = lines.map Line.unsourced := by
  induction lines generalizing index with
  | nil => exact ⟨[], rfl, rfl⟩
  | cons line lines ih =>
    obtain ⟨found, hfound, hsame⟩ :=
      ih (fun other hother => h other (mem_cons_of_mem line hother)) (index + 1)
    refine ⟨{ line with sources := [index] } :: found, ?_, ?_⟩
    · rw [renderLines] at hfound ⊢
      rw [map_cons, readLinesFrom, readLine_render (h line mem_cons_self), hfound]
      rfl
    · rw [map_cons, map_cons, hsame]
      rfl

theorem readText_joinLines {lines : List String} (h : ∀ line ∈ lines, isSingleLine line.toList) :
    readText (Text.joinLines lines ++ "\n") = readLines lines := by
  rw [readText, Text.unifyNewlines_joinLines_newline h, String.ofList_toList]
  cases lines with
  | nil => rfl
  | cons line lines => rw [Text.splitLines_joinLines_newline h (by simp)]

/-- The text of a block is read as its lines, apart from their sources. -/
theorem readText_render {block : Block} (h : ∀ line ∈ block.lines, line.IsReadable) :
    ∃ found, readText (block.render ++ "\n") = .ok found ∧
      found.map Line.unsourced = block.lines.map Line.unsourced := by
  have hsingle := isSingleLine_renderLines fun line hline => (h line hline).fitsLine
  rw [Block.render, readText_joinLines hsingle]
  exact readLinesFrom_renderLines h 0

end MovieDiff.Pcode
