import MovieDiff.Proofs.Pcode.BlockNames
import MovieDiff.Proofs.Pcode.Invariant
import MovieDiff.Proofs.Pcode.Preparation
import MovieDiff.Proofs.Pcode.Readable

/-!
Well-formed text stays readable. The lines of a text whose opcodes and operands are well formed are
readable, and every step towards the normal form keeps them so: what it writes itself is a numeral,
a numbered name or a quotable text.
-/
namespace MovieDiff.Pcode

open List
open MovieDiff.Alignment (splitLabel_eq_some)
open Text (isDigit isSingleLine)

variable {cs body : List Char} {index : Int} {text name : String} {lines : List Line} {c : Char}
  {blocks : List Block} (n : Nat) {o : Operand} {block : Block}

/-! ### Reading -/

theorem mem_of_mem_tokenTexts : ∀ text ∈ tokenTexts cs, text ≠ [] ∧ ∀ c ∈ text, c ∈ cs := by
  induction cs using tokenInduction with
  | nil => intro text htext; cases htext
  | blank c rest hc ih =>
    intro text htext
    rw [tokenTexts_blank hc] at htext
    exact ⟨(ih text htext).1, fun d hd => mem_cons_of_mem c ((ih text htext).2 d hd)⟩
  | separator c rest hc ih =>
    intro text htext
    rw [tokenTexts_separator hc] at htext
    rcases mem_cons.1 htext with rfl | htext
    · exact ⟨by simp, fun d hd => mem_singleton.1 hd ▸ mem_cons_self⟩
    · exact ⟨(ih text htext).1, fun d hd => mem_cons_of_mem c ((ih text htext).2 d hd)⟩
  | word token rest htoken ih =>
    intro text htext
    rw [tokenTexts_word htoken] at htext
    rcases mem_cons.1 htext with rfl | htext
    · exact ⟨htoken.nonempty, fun d hd => mem_append_left rest hd⟩
    · exact ⟨(ih text htext).1, fun d hd => mem_append_right token ((ih text htext).2 d hd)⟩

theorem isSingleLine_of_subset {ds : List Char} (h : isSingleLine cs) (hsub : ∀ c ∈ ds, c ∈ cs) :
    isSingleLine ds :=
  Text.isSingleLine_iff.2 fun c hc => Text.isSingleLine_iff.1 h c (hsub c hc)

theorem mem_of_splitLabel {line rest : String} {label : Option String}
    (h : splitLabel line = (rest, label)) : ∀ c ∈ rest.toList, c ∈ line.toList := by
  unfold splitLabel at h
  split at h
  next word body hprefix =>
    cases h
    rw [String.toList_ofList]
    exact (labelPrefix?_eq_some hprefix).2.2.2
  · cases h
    exact fun c hc => hc

/-- Well-formed operands are readable. -/
theorem isReadable_of_readOperand {token : List Char}
    (h : readOperand token = .ok o) (hne : token ≠ []) (hline : isSingleLine token)
    (hformed : o.isWellFormed) : o.IsReadable := by
  unfold readOperand at h
  split at h
  next tail =>
    split at h
    next inner hreverse =>
      cases h
      have htail : tail = inner.reverse ++ ['"'] := by
        rw [← reverse_reverse tail, hreverse, reverse_cons]
      have hsingle : isSingleLine (String.ofList inner.reverse).toList := by
        refine isSingleLine_of_subset hline fun c hc => ?_
        rw [String.toList_ofList] at hc
        rw [htail]
        exact mem_cons_of_mem _ (mem_append_left _ hc)
      exact .string hformed hsingle
    · cases h
  next hquote =>
    dsimp only at h
    split at h
    next hnumeral =>
      cases h
      refine .numeral (all_eq_true.1 hformed) ?_
      rwa [String.toList_ofList]
    next hnumeral =>
      split at h
      · cases h
        exact .flag true
      next htrue =>
        split at h
        · cases h
          exact .flag false
        next hfalse =>
          cases h
          refine .symbol (by simpa using hne) (all_eq_true.1 hformed) ?_ htrue hfalse
          rw [String.toList_ofList]
          simpa using hnumeral

theorem isReadable_of_readBody {label : Option String} {rest : String} {line : Line}
    (h : readBody index label rest = .ok line) (hlabel : ∀ name ∈ label, isLabelWord name.toList)
    (hrest : isSingleLine rest.toList) (hformed : line.isWellFormed) : line.IsReadable := by
  unfold readBody at h
  split at h
  next hempty =>
    cases h
    obtain ⟨name, rfl⟩ := Option.isSome_iff_exists.1 (Bool.and_eq_true_iff.1 hempty).1
    exact .labelOnly (hlabel name rfl)
  split at h
  · cases h
    exact .closing hlabel
  split at h
  · cases h
  next opcode texts htokens =>
    obtain ⟨operands, hoperands, h⟩ := exists_of_bind_eq_ok h
    cases h
    have htoken : ∀ token ∈ opcode :: texts, token ≠ [] ∧ isSingleLine token := by
      intro token htoken
      rw [← htokens] at htoken
      obtain ⟨hne, hmem⟩ := mem_of_mem_tokenTexts token htoken
      exact ⟨hne, isSingleLine_of_subset hrest hmem⟩
    obtain ⟨hopcode, hall⟩ := Bool.and_eq_true_iff.1 hformed
    refine .instruction hlabel ?_ (all_eq_true.1 hopcode) fun o ho => ?_
    · rw [String.toList_ofList]
      exact (htoken opcode mem_cons_self).1
    · obtain ⟨token, hmem, hread⟩ := (mem_of_mapM_eq_ok hoperands).1 ho
      obtain ⟨hne, hline⟩ :=
        htoken token (mem_cons_of_mem opcode (mem_of_mem_filter hmem))
      exact isReadable_of_readOperand hread hne hline (all_eq_true.1 hall o ho)

section Reading

/-! A property that every line has whose text, apart from its label, is a single line. -/

variable {p : Line → Prop} (hbody : ∀ {index : Int} {label : Option String} {rest : String}
  {line : Line}, readBody index label rest = .ok line →
    (∀ name ∈ label, isLabelWord name.toList) → isSingleLine rest.toList → p line)
include hbody

theorem of_readLine {line : Line} (h : readLine index text = .ok (some line))
    (htext : isSingleLine text.toList) : p line := by
  obtain ⟨-, ⟨⟩⟩ | ⟨-, found, ⟨⟩, hread⟩ := readLine_cases h
  refine hbody hread (fun name hname => ?_) (isSingleLine_of_subset htext (mem_of_splitLabel rfl))
  exact (splitLabel_eq_some (Prod.ext rfl hname)).1

theorem forall_of_readLinesFrom {texts : List String} (h : readLinesFrom index texts = .ok lines)
    (htexts : ∀ text ∈ texts, isSingleLine text.toList) : ∀ line ∈ lines, p line := by
  induction texts generalizing index lines with
  | nil =>
    cases h
    intro line hline
    cases hline
  | cons text texts ih =>
    obtain ⟨first, hfirst, h⟩ := exists_of_bind_eq_ok h
    obtain ⟨others, hothers, h⟩ := exists_of_bind_eq_ok h
    cases h
    intro line hline
    rcases mem_append.1 hline with hmem | hmem
    · rw [Option.mem_toList] at hmem
      rw [hmem] at hfirst
      exact of_readLine hbody hfirst (htexts text mem_cons_self)
    · exact ih hothers (fun other hother => htexts other (mem_cons_of_mem text hother))
        line hmem

theorem forall_of_readText (h : readText text = .ok lines) : ∀ line ∈ lines, p line :=
  forall_of_readLinesFrom hbody h fun _ hline => Text.isSingleLine_of_mem_splitLines hline

end Reading

/-- Well-formed text is readable. -/
theorem isReadable_of_readText (h : readText text = .ok lines)
    (hformed : ∀ line ∈ lines, line.isWellFormed) : ∀ line ∈ lines, line.IsReadable :=
  fun line hline => forall_of_readText (p := fun line => line.isWellFormed → line.IsReadable)
    isReadable_of_readBody h line hline (hformed line hline)

/-! ### What the steps write -/

theorem isBareChar_of_isDigit (h : isDigit c) : isBareChar c := by
  refine isBareChar_iff.2 ⟨isDivider_of_isDigit h, ?_⟩
  rintro rfl
  exact absurd h (by decide +kernel)

theorem toList_toString_ne_nil : (toString n).toList ≠ [] := by
  rw [Nat.toString_eq_repr, Nat.toList_repr]
  exact Nat.toDigits_ne_nil

def unsignedPart (cs : List Char) : List Char :=
  match cs with
  | '-' :: rest => rest
  | _ => cs

theorem isNumeral_eq (cs : List Char) :
    isNumeral cs =
      match (unsignedPart cs).dropWhile isDigit with
      | [] => !((unsignedPart cs).takeWhile isDigit).isEmpty
      | '.' :: fraction => !((unsignedPart cs).takeWhile isDigit).isEmpty && !fraction.isEmpty &&
          fraction.all isDigit
      | _ => false := rfl

theorem isWhole_eq (cs : List Char) :
    isWhole cs = (!(unsignedPart cs).isEmpty && (unsignedPart cs).all isDigit) := rfl

theorem isWholeDecimal_eq (cs : List Char) :
    isWholeDecimal cs = (!((unsignedPart cs).takeWhile isDigit).isEmpty &&
      (unsignedPart cs).dropWhile isDigit == ['.', '0']) := rfl

theorem unsignedPart_of_ne (h : c ≠ '-') (cs : List Char) : unsignedPart (c :: cs) = c :: cs := by
  unfold unsignedPart
  split
  next heq => exact absurd (List.cons.inj heq).1 h
  · rfl

theorem isWhole_of_digits (hne : cs ≠ []) (h : ∀ c ∈ cs, isDigit c) : isWhole cs := by
  obtain ⟨c, rest, rfl⟩ := exists_cons_of_ne_nil hne
  have hsign : c ≠ '-' := by
    rintro rfl
    exact absurd (h '-' mem_cons_self) (by decide +kernel)
  rw [isWhole_eq, unsignedPart_of_ne hsign, all_eq_true.2 h]
  rfl

theorem isNumeral_of_isWhole (h : isWhole cs) : isNumeral cs := by
  rw [isWhole_eq, Bool.and_eq_true, all_eq_true] at h
  rw [isNumeral_eq, dropWhile_eq_nil_iff.2 h.2, takeWhile_eq_self_iff.2 h.2]
  exact h.1

theorem isNumeral_of_head (hsign : c ≠ '-') (hdigit : isDigit c = false) (cs : List Char) :
    isNumeral (c :: cs) = false := by
  have hnot : ¬ isDigit c := by simp [hdigit]
  rw [isNumeral_eq, unsignedPart_of_ne hsign, dropWhile_cons_of_neg hnot,
    takeWhile_cons_of_neg hnot]
  split <;> simp_all

theorem isWhole_minus (hne : cs ≠ []) (h : ∀ c ∈ cs, isDigit c) : isWhole ('-' :: cs) := by
  rw [isWhole_eq, Bool.and_eq_true]
  exact ⟨by simpa [unsignedPart] using hne, all_eq_true.2 h⟩

theorem exists_of_isWholeDecimal (h : isWholeDecimal cs) :
    ∃ whole, cs = whole ++ ['.', '0'] ∧ isWhole whole := by
  rw [isWholeDecimal_eq, Bool.and_eq_true, beq_iff_eq] at h
  have hdigits : ∀ c ∈ (unsignedPart cs).takeWhile isDigit, isDigit c :=
    fun c hc => mem_takeWhile_imp hc
  have hne : (unsignedPart cs).takeWhile isDigit ≠ [] := by simpa using h.1
  have hcut : unsignedPart cs = (unsignedPart cs).takeWhile isDigit ++ ['.', '0'] := by
    rw [← h.2, takeWhile_append_dropWhile]
  cases cs with
  | nil => exact absurd rfl hne
  | cons c rest =>
    by_cases hsign : c = '-'
    · subst hsign
      exact ⟨'-' :: rest.takeWhile isDigit, congrArg ('-' :: ·) hcut, isWhole_minus hne hdigits⟩
    · rw [unsignedPart_of_ne hsign] at hcut hne hdigits
      exact ⟨_, hcut, isWhole_of_digits hne hdigits⟩

theorem isWhole_toString : isWhole (toString n).toList :=
  isWhole_of_digits (toList_toString_ne_nil n) fun _ => isDigit_of_mem_toString

theorem isReadable_number : (Operand.ofNumeral (toString n)).IsReadable :=
  .numeral (fun _ hc => isBareChar_of_isDigit (isDigit_of_mem_toString hc))
    (isNumeral_of_isWhole (isWhole_toString n))

theorem isReadable_zero : (Operand.ofNumeral "0").IsReadable :=
  isReadable_number 0

/-- A numbered name is a symbol when the name starts with a letter that starts no other operand. -/
theorem isReadable_numbered {d : Char} {rest lowered : List Char}
    (hname : name.toList = c :: rest) (hbare : name.toList.all isBareChar) (hsign : c ≠ '-')
    (hdigit : isDigit c = false) (hascii : isAscii name)
    (hlower : (Text.lowercase name).toList = d :: lowered) (htrue : d ≠ 't') (hfalse : d ≠ 'f')
    (n : Nat) : (Operand.ofSymbol (name ++ toString n)).IsReadable := by
  have htext : (name ++ toString n).toList = c :: (rest ++ (toString n).toList) := by
    rw [String.toList_append, hname, cons_append]
  have hfirst : (Text.lowercase (name ++ toString n)).toList.head? = some d := by
    rw [lowercase_append hascii (isAscii_toString n), String.toList_append, hlower]
    rfl
  refine .symbol (by simp) (fun e he => ?_) ?_ (fun heq => ?_) (fun heq => ?_)
  · rw [String.toList_append] at he
    rcases mem_append.1 he with he | he
    · exact all_eq_true.1 hbare e he
    · exact isBareChar_of_isDigit (isDigit_of_mem_toString he)
  · rw [htext]
    exact isNumeral_of_head hsign hdigit _
  · rw [heq] at hfirst
    exact htrue (Option.some.inj hfirst).symm
  · rw [heq] at hfirst
    exact hfalse (Option.some.inj hfirst).symm

theorem isReadable_register : (Operand.ofSymbol ("register" ++ toString n)).IsReadable :=
  isReadable_numbered rfl (by decide) (by decide) (by decide) (by decide) rfl (by decide)
    (by decide) n

theorem isReadable_target : (Operand.ofSymbol ("L" ++ toString n)).IsReadable :=
  isReadable_numbered rfl (by decide) (by decide) (by decide) (by decide) rfl (by decide)
    (by decide) n

theorem isLabelWord_numbered : isLabelWord ("L" ++ toString n).toList := by
  refine isWordOf_iff.2 ⟨'L', (toString n).toList, by simp, by decide, fun c hc => ?_⟩
  simp [isLabelChar, isDigit_of_mem_toString hc]

/-- A numeral without its zero fraction. -/
theorem isReadable_of_isWholeDecimal {s : String} (hbare : ∀ c ∈ s.toList, isBareChar c)
    (hdecimal : isWholeDecimal s.toList) :
    (Operand.ofNumeral (String.ofList (s.toList.take (s.toList.length - 2)))).IsReadable := by
  obtain ⟨whole, htext, hwhole⟩ := exists_of_isWholeDecimal hdecimal
  have htake : s.toList.take (s.toList.length - 2) = whole := by
    rw [htext, length_append]
    exact take_left
  rw [htake]
  refine .numeral (fun c hc => ?_) ?_
  · rw [String.toList_ofList] at hc
    exact hbare c (htext ▸ mem_append_left _ hc)
  · rw [String.toList_ofList]
    exact isNumeral_of_isWhole hwhole

theorem plainNumeral_cases (s : String) : plainNumeral s = "0" ∨ plainNumeral s = s ∨
    isWholeDecimal s.toList ∧
      plainNumeral s = String.ofList (s.toList.take (s.toList.length - 2)) := by
  unfold plainNumeral
  dsimp only
  by_cases hzero : (if isWholeDecimal s.toList then
      String.ofList (s.toList.take (s.toList.length - 2)) else s) = "-0"
  · rw [if_pos hzero]
    exact .inl rfl
  · rw [if_neg hzero]
    split
    next hdecimal => exact .inr (.inr ⟨hdecimal, rfl⟩)
    · exact .inr (.inl rfl)

/-- Plain operands stay readable. -/
theorem Operand.IsReadable.plain (h : o.IsReadable) : o.plain.IsReadable := by
  cases h with
  | @numeral s hbare hnumeral =>
    change (Operand.ofNumeral (plainNumeral s)).IsReadable
    rcases plainNumeral_cases s with heq | heq | ⟨hdecimal, heq⟩ <;> rw [heq]
    · exact isReadable_zero
    · exact .numeral hbare hnumeral
    · exact isReadable_of_isWholeDecimal hbare hdecimal
  | string hquotable hline => exact .string hquotable hline
  | flag b => exact .flag b
  | symbol hne hbare hnumeral htrue hfalse => exact .symbol hne hbare hnumeral htrue hfalse

/-! ### Lines -/

namespace Line.IsReadable

variable {line : Line} (h : line.IsReadable)
include h

theorem label : ∀ text ∈ line.label, isLabelWord text.toList := by
  cases h with
  | instruction hlabel => exact hlabel
  | closing hlabel => exact hlabel
  | labelOnly hlabel => exact fun text htext => Option.some.inj htext ▸ hlabel

theorem operands : ∀ o ∈ line.operands, o.IsReadable := by
  cases h with
  | instruction hlabel hne hopcode hoperands => exact hoperands
  | closing hlabel => exact forall_mem_nil _
  | labelOnly hlabel => exact forall_mem_nil _

theorem withOperands {operands : List Operand} (hoperands : ∀ o ∈ operands, o.IsReadable) :
    (line.withOperands operands).IsReadable := by
  cases h with
  | instruction hlabel hne hopcode => exact .instruction hlabel hne hopcode hoperands
  | closing hlabel => exact .closing hlabel
  | labelOnly hlabel => exact .labelOnly hlabel

theorem withLabel (hname : isLabelWord name.toList) :
    ({ line with label := some name } : Line).IsReadable := by
  have hlabel : ∀ text ∈ some name, isLabelWord text.toList :=
    fun text htext => Option.some.inj htext ▸ hname
  cases h with
  | instruction _ hne hopcode hoperands => exact .instruction hlabel hne hopcode hoperands
  | closing _ => exact .closing hlabel
  | labelOnly _ => exact .labelOnly hname

theorem withoutLabel (hbody : line.body ≠ .labelOnly) :
    ({ line with label := none } : Line).IsReadable := by
  have hlabel : ∀ text ∈ (none : Option String), isLabelWord text.toList :=
    fun text htext => absurd htext (Option.not_mem_none text)
  cases h with
  | instruction _ hne hopcode hoperands => exact .instruction hlabel hne hopcode hoperands
  | closing _ => exact .closing hlabel
  | labelOnly _ => exact absurd rfl hbody

end Line.IsReadable

/-! ### Steps -/

theorem isReadable_unitStep (one step : Line) : (unitStep one step).IsReadable := by
  unfold unitStep
  have hoperands : ∀ o ∈ ([] : List Operand), o.IsReadable := forall_mem_nil _
  have hlabel : ∀ text ∈ (none : Option String), isLabelWord text.toList :=
    fun text htext => absurd htext (Option.not_mem_none text)
  split
  · exact .instruction hlabel (by decide) (all_eq_true.1 (by decide)) hoperands
  · exact .instruction hlabel (by decide) (all_eq_true.1 (by decide)) hoperands

theorem quotable_of_pushedString? {line : Line} (h : line.IsReadable)
    (htext : line.pushedString? = some text) :
    isQuotable text.toList ∧ isSingleLine text.toList := by
  obtain ⟨operand, hbody, hkind, rfl⟩ := exists_of_pushedString? htext
  have hoperand : operand.IsReadable := by
    have hall := h.operands
    rw [Line.operands, hbody] at hall
    exact hall operand mem_cons_self
  cases hoperand with
  | string hquotable hline => exact ⟨hquotable, hline⟩
  | numeral => cases hkind
  | flag => cases hkind
  | symbol => cases hkind

/-- Joined strings stay readable. -/
theorem isReadable_joinedPush? {first second add joined : Line} (hfirst : first.IsReadable)
    (hsecond : second.IsReadable) (h : joinedPush? first second add = some joined) :
    joined.IsReadable := by
  obtain ⟨left, right, hleft, hright, -, -, -, -, hlabel, hbody⟩ := exists_of_joinedPush? h
  obtain ⟨hquotable, hline⟩ := quotable_of_pushedString? hfirst hleft
  obtain ⟨hquotable', hline'⟩ := quotable_of_pushedString? hsecond hright
  obtain ⟨sources, label, body⟩ := joined
  cases hbody
  cases hlabel
  refine .instruction hfirst.label (by decide) (all_eq_true.1 (by decide)) fun o ho => ?_
  rw [mem_singleton.1 ho]
  refine .string ?_ ?_
  · rw [String.toList_append]
    exact isQuotable_append hquotable hquotable'
  · rw [String.toList_append]
    exact Text.isSingleLine_append.2 ⟨hline, hline'⟩

/-- To be read back is kept by every step. -/
theorem lineInvariant_isReadable : LineInvariant Line.IsReadable Operand.IsReadable where
  operands := Line.IsReadable.operands
  withOperands h hoperands := h.withOperands hoperands
  numberLabel n h := h.withLabel (isLabelWord_numbered n)
  dropLabel := Line.IsReadable.withoutLabel
  header h := .instruction h.label (by decide) (all_eq_true.1 (by decide))
  unitStep _ _ := isReadable_unitStep _ _
  joinedPush hfirst hsecond _ := isReadable_joinedPush? hfirst hsecond
  plain := Operand.IsReadable.plain
  number := isReadable_number
  register := isReadable_register
  target := isReadable_target
  emptyString := .string rfl rfl

def AllReadable (lines : List Line) : Prop :=
  ∀ line ∈ lines, line.IsReadable

/-! ### Blocks -/

theorem sublist_of_mem_splitBlocks (h : splitBlocks lines = .ok blocks) (hblock : block ∈ blocks) :
    block.lines.Sublist lines := by
  obtain ⟨plain, hplain, h⟩ := exists_of_bind_eq_ok h
  cases h
  have hflatten := (isPartition_splitFrom (forall_mem_nil _) hplain).flatten
  rw [← map_lines_numberBlocks []] at hflatten
  have hsublist := sublist_flatten_of_mem (mem_map_of_mem (f := Block.lines) hblock)
  rwa [hflatten] at hsublist

theorem mem_of_mem_splitBlocks (h : splitBlocks lines = .ok blocks) (hblock : block ∈ blocks) :
    ∀ line ∈ block.lines, line ∈ lines :=
  fun _ hline => (sublist_of_mem_splitBlocks h hblock).subset hline

/-- What every step keeps holds of the lines in normal form if it held of the lines before. -/
theorem LineInvariant.normalizeScript {p : Line → Prop} {q : Operand → Prop}
    (hkept : LineInvariant p q) (h : ∀ line ∈ lines, p line)
    (hblocks : Pcode.normalizeScript lines = .ok blocks) :
    ∀ block ∈ blocks, ∀ line ∈ block.lines, p line := by
  obtain ⟨raw, hraw, hblocks⟩ := exists_of_bind_eq_ok hblocks
  intro block hblock
  obtain ⟨before, hbefore, hnormal⟩ := (mem_of_mapM_eq_ok hblocks).1 hblock
  exact hkept.normalizeLines
    (fun line hline => h line (mem_of_mem_splitBlocks hraw hbefore line hline))
    (normalizeBlock_eq_ok hnormal)

/-- The blocks of well-formed lines are readable once they are in normal form. -/
theorem allReadable_normalizeScript (h : AllReadable lines)
    (hblocks : normalizeScript lines = .ok blocks) : ∀ block ∈ blocks, AllReadable block.lines :=
  lineInvariant_isReadable.normalizeScript h hblocks

theorem isFileName_of_normalizeScript (h : normalizeScript lines = .ok blocks) :
    ∀ block ∈ blocks, IsFileName block.name := by
  obtain ⟨raw, hraw, hblocks⟩ := exists_of_bind_eq_ok h
  obtain ⟨plain, hplain, hraw⟩ := exists_of_bind_eq_ok hraw
  cases hraw
  intro block hblock
  obtain ⟨before, hbefore, hnormal⟩ := (mem_of_mapM_eq_ok hblocks).1 hblock
  rw [name_normalizeBlock hnormal]
  exact isFileName_of_numberBlocks (isFileName_of_splitFrom hplain) [] before hbefore

end MovieDiff.Pcode
