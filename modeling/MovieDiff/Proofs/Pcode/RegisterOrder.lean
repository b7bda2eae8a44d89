import MovieDiff.Proofs.Pcode.Renumbering

/-!
Registers in order. Renumbering leaves a function as it is exactly when its registers, those that it
stores first, are numbered in the order of their first appearance, and when so are the registers of
the functions inside it.
-/
namespace MovieDiff.Pcode

open List

variable {line : Line} {lines out : List Line} {number : String → Nat}

/-! ### What a function numbers -/

/-- The lines of a body without the functions inside it. -/
def ownLines (body : List Line) : List Line :=
  match body with
  | [] => []
  | line :: rest =>
    if line.isDefinition then ownLines (cutBody line rest).2 else line :: ownLines rest
termination_by body.length
decreasing_by
  · have := length_cutBody line rest
    simp only [List.length_cons]; omega
  · simp

/-- The bodies of the functions inside a body, at any depth. -/
def innerBodies (body : List Line) : List (List Line) :=
  match body with
  | [] => []
  | line :: rest =>
    if line.isDefinition then
      (cutBody line rest).1 :: innerBodies (cutBody line rest).1 ++
        innerBodies (cutBody line rest).2
    else innerBodies rest
termination_by body.length
decreasing_by
  · have := length_cutBody line rest
    simp only [List.length_cons]; omega
  · have := length_cutBody line rest
    simp only [List.length_cons]; omega
  · simp

/-- The registers of a function: those that it stores, then all that its lines name. -/
def bodyRegisters (body : List Line) : List String :=
  (ownLines body).filterMap Line.stored? ++ (ownLines body).flatMap Line.registers

/-- Each register has the number next to those of the registers that appear before it. -/
def InOrder (registers : List String) : Prop :=
  ∀ register ∈ registers,
    register = toString ((registers.takeWhile (· != register)).dedup.length + 1)

instance (registers : List String) : Decidable (InOrder registers) :=
  inferInstanceAs (Decidable (∀ register ∈ registers, _ = _))

def RegistersInOrder (lines : List Line) : Prop :=
  ∀ body ∈ firstBody lines :: innerBodies (firstBody lines), InOrder (bodyRegisters body)

theorem inOrder_iff {registers : List String} :
    InOrder registers ↔ ∀ register ∈ registers,
      toString ((RegisterScope.addAll [] registers).number register) = register := by
  unfold InOrder
  refine forall₂_congr fun register hregister => ?_
  rw [RegisterScope.number_addAll hregister, eq_comm]

/-! ### Lines -/

/-- A line that stores a register gives its number in digits. -/
def Line.StoresNumber (line : Line) : Prop :=
  line.hasOpcode "StoreRegister" →
    ∃ index, isIndex index ∧ line.operands.head? = some (.ofNumeral index)

theorem Line.StoresNumber.exists_operands (h : line.StoresNumber)
    (hstore : line.hasOpcode "StoreRegister") :
    ∃ index others, isIndex index ∧ line.operands = .ofNumeral index :: others := by
  obtain ⟨index, hindex, hhead⟩ := h hstore
  rw [head?_eq_some_iff] at hhead
  obtain ⟨others, hoperands⟩ := hhead
  exact ⟨index, others, hindex, hoperands⟩

theorem Line.StoresNumber.namesStore (h : line.StoresNumber) : line.NamesStore := by
  intro hstore
  obtain ⟨index, others, -, hoperands⟩ := h.exists_operands hstore
  simp [hoperands]

theorem storesNumber_numberRegisters (h : line.NamesStore) (number : String → Nat) :
    (line.numberRegisters number).StoresNumber := by
  obtain ⟨operands, hline⟩ := exists_withOperands_numberRegisters number line
  intro hstore
  rw [hline, hasOpcode_withOperands] at hstore
  obtain ⟨stored, others, hoperands⟩ := exists_cons_of_ne_nil (h hstore)
  refine ⟨indexBy number stored.spelling, isIndex_toString _, ?_⟩
  rw [(registers_of_store hstore hoperands).2.2, operands_withOperands hstore]
  rfl

variable {operand : Operand} {operands : List Operand}

theorem renameRegister_eq_self_iff {f : String → String} :
    operand.renameRegister f = operand ↔
      ∀ register ∈ operand.registerDigits?, f register = register := by
  unfold Operand.renameRegister
  cases hdigits : operand.registerDigits? with
  | none => simp
  | some register =>
    obtain ⟨-, rfl⟩ := eq_ofSymbol_of_registerDigits? hdigits
    simp [Operand.ofSymbol, String.append_right_inj]

theorem map_renameRegister_eq_self_iff {f : String → String} :
    operands.map (Operand.renameRegister f) = operands ↔
      ∀ register ∈ operands.filterMap Operand.registerDigits?, f register = register := by
  rw [map_eq_self_iff]
  constructor
  · intro h register hregister
    obtain ⟨operand, hoperand, hdigits⟩ := mem_filterMap.1 hregister
    exact renameRegister_eq_self_iff.1 (h operand hoperand) register hdigits
  · intro h operand hoperand
    apply renameRegister_eq_self_iff.2
    intro register hregister
    exact h register (mem_filterMap.2 ⟨operand, hoperand, hregister⟩)

theorem withOperands_eq_self_iff (h : line.operands = [] → operands = []) :
    line.withOperands operands = line ↔ operands = line.operands := by
  obtain ⟨sources, label, body⟩ := line
  cases body <;> simp_all [Line.withOperands, Line.operands]

/-- When numbering keeps a line. -/
theorem numberRegisters_eq_self_iff (h : line.StoresNumber) :
    line.numberRegisters number = line ↔
      ∀ register ∈ line.registers, indexBy number register = register := by
  cases hstore : line.hasOpcode "StoreRegister" with
  | true =>
    obtain ⟨index, others, -, hoperands⟩ := h.exists_operands hstore
    obtain ⟨hregisters, -, hnumbered⟩ := registers_of_store hstore hoperands
    rw [hregisters, hnumbered, withOperands_eq_self_iff (by simp [hoperands]), hoperands]
    simp [Operand.ofNumeral, Operand.spelling, OperandValue.spelling]
  | false =>
    obtain ⟨hregisters, -, hnumbered⟩ := registers_of_other hstore
    rw [hregisters, hnumbered, withOperands_eq_self_iff (by simp), map_renameRegister_eq_self_iff]

/-! ### Fixed points -/

theorem ownLines_eq (h : IsBody lines) : ownLines lines = scopeLines 1 lines := by
  induction h with
  | nil =>
    rw [ownLines]
    rfl
  | definition hheader _ _ _ ih =>
    rw [ownLines, if_pos hheader, cutBody_eq hheader, ih, scopeLines_definition hheader]
  | line hheader hclosing _ ih =>
    rw [ownLines, hheader, if_neg Bool.false_ne_true, ih, scopeLines_line hheader hclosing]

/-- A function has its registers in order exactly when it gives them their own names. -/
theorem inOrder_bodyRegisters_iff (h : IsBody lines) :
    InOrder (bodyRegisters lines) ↔ ∀ register ∈ (scopeLines 1 lines).flatMap Line.registers,
      indexBy (numberIn (scopeLines 1 lines)) register = register := by
  have hregisters : bodyRegisters lines = registersOf (scopeLines 1 lines) := by
    rw [bodyRegisters, ownLines_eq h, registersOf]
  rw [hregisters, inOrder_iff]
  exact forall_congr' fun register => imp_congr_left mem_registersOf

/-- Renumbering keeps the lines of a function exactly when each of their registers has its own name,
and when the functions inside have their registers in order. -/
theorem numberScopes_eq_self_iff (h : IsBody lines) (hstores : ∀ line ∈ lines, line.StoresNumber)
    (number : String → Nat) :
    numberScopes [number] lines = lines ↔
      (∀ register ∈ (scopeLines 1 lines).flatMap Line.registers, indexBy number register = register) ∧
      ∀ body ∈ innerBodies lines, InOrder (bodyRegisters body) := by
  induction h generalizing number with
  | nil =>
    rw [innerBodies]
    simp [numberScopes, scopeLines]
  | @definition header rest hheader hinner hafter ihinner ihafter =>
    have hparts := untilClosed_append_afterClosed 1 rest
    rw [forall_mem_cons, ← hparts, forall_mem_append] at hstores
    have hkept : numberScopes [number] (header :: rest) = header :: rest ↔
        numberScopes [numberIn (scopeLines 1 (untilClosed 1 rest))] (untilClosed 1 rest) =
            untilClosed 1 rest ∧
          numberScopes [number] (afterClosed 1 rest) = afterClosed 1 rest := by
      rw [numberScopes_definition hheader]
      constructor
      · intro heq
        exact List.append_inj ((List.cons.inj heq).2.trans hparts.symm) (length_numberScopes _ _)
      · rintro ⟨hbody, hothers⟩
        rw [hbody, hothers, hparts]
    rw [hkept, ihinner hstores.2.1, ihafter hstores.2.2, ← inOrder_bodyRegisters_iff hinner,
      scopeLines_definition hheader, innerBodies, if_pos hheader, cutBody_eq hheader, cons_append,
      forall_mem_cons, forall_mem_append]
    tauto
  | @line line rest hheader hclosing hrest ih =>
    obtain ⟨hline, hothers⟩ := forall_mem_cons.1 hstores
    rw [numberScopes_line hheader hclosing, List.cons.injEq, numberRegisters_eq_self_iff hline,
      ih hothers, scopeLines_line hheader hclosing, flatMap_cons, forall_mem_append, innerBodies,
      hheader, if_neg Bool.false_ne_true, and_assoc]

/-- Renumbering leaves lines as they are exactly when their registers are in order. -/
theorem numberText_eq_self_iff (h : ∀ line ∈ firstBody lines, line.StoresNumber) :
    numberText lines = lines ↔ RegistersInOrder lines := by
  unfold RegistersInOrder
  induction lines with
  | nil =>
    rw [firstBody, innerBodies, forall_mem_singleton, inOrder_bodyRegisters_iff .nil]
    exact iff_of_true rfl (forall_mem_nil _)
  | cons line rest ih =>
    rw [firstBody] at h ⊢
    rw [numberText, List.cons.injEq, and_iff_right rfl]
    cases hheader : line.isDefinition with
    | true =>
      have hbody := isBody_untilClosed rest
      have hparts := untilClosed_append_afterClosed 1 rest
      rw [if_pos hheader, cutBody_eq hheader] at h
      rw [if_pos rfl, if_pos rfl, cutBody_eq hheader, forall_mem_cons, inOrder_bodyRegisters_iff hbody,
        ← numberScopes_eq_self_iff hbody h, scopeLines_untilClosed Nat.one_pos 0,
        numberScopes_singleton _ rest]
      exact ⟨fun heq => append_cancel_right (heq.trans hparts.symm), fun heq => by rw [heq, hparts]⟩
    | false =>
      rw [hheader, if_neg Bool.false_ne_true] at h
      rw [if_neg Bool.false_ne_true, if_neg Bool.false_ne_true, ih h]

theorem storesNumber_untilClosed {numbers : List (String → Nat)} (hnumbers : numbers ≠ [])
    (h : ∀ line ∈ untilClosed numbers.length lines, line.NamesStore) :
    ∀ line ∈ untilClosed numbers.length (numberScopes numbers lines), line.StoresNumber := by
  induction lines generalizing numbers with
  | nil =>
    cases numbers <;> exact forall_mem_nil _
  | cons line rest ih =>
    obtain ⟨number, outer, rfl⟩ := exists_cons_of_ne_nil hnumbers
    rw [untilClosed, ← length_openedAfter (numberIn (scopeLines 1 rest))] at h
    rw [numberScopes, untilClosed, nextDepth_of_shape (shape_numbered number line),
      ← length_openedAfter (numberIn (scopeLines 1 rest))]
    have hfirst : Line.StoresNumber
        (if line.isDefinition then line else line.numberRegisters number) := by
      split
      next hheader =>
        intro hstore
        rw [isDefinition_of_hasOpcode hstore (by decide) (by decide)] at hheader
        cases hheader
      · refine storesNumber_numberRegisters (h line ?_) number
        split <;> exact mem_cons_self
    cases hopened : openedAfter (numberIn (scopeLines 1 rest)) line (number :: outer) with
    | nil => exact forall_mem_singleton.2 hfirst
    | cons next others =>
      have hne : (next :: others).length ≠ 0 := by simp
      rw [hopened, if_neg hne] at h
      rw [if_neg hne, forall_mem_cons]
      exact ⟨hfirst, ih (cons_ne_nil next others) (forall_mem_cons.1 h).2⟩

/-- Once renumbered, all stores of the first function are numbered. -/
theorem storesNumber_of_renumberRegisters (h : renumberRegisters lines = .ok out) :
    ∀ line ∈ firstBody out, line.StoresNumber := by
  obtain ⟨hnames, rfl⟩ := renumberRegisters_eq_ok_iff.1 h
  clear h
  induction lines with
  | nil => exact forall_mem_nil _
  | cons line rest ih =>
    rw [firstBody] at hnames
    rw [numberText, firstBody]
    cases hheader : line.isDefinition with
    | true =>
      rw [if_pos hheader, cutBody_eq hheader] at hnames
      rw [if_pos rfl, if_pos rfl, cutBody_eq hheader]
      exact storesNumber_untilClosed (cons_ne_nil _ []) hnames
    | false =>
      rw [hheader, if_neg Bool.false_ne_true] at hnames
      rw [if_neg Bool.false_ne_true, if_neg Bool.false_ne_true]
      exact ih hnames

/-! ### Printed lines -/

inductive Operand.SameButIndex : Operand → Operand → Prop
  | refl (operand : Operand) : SameButIndex operand operand
  | register {index index' : String} : isIndex index → isIndex index' →
      SameButIndex (.ofSymbol ("register" ++ index)) (.ofSymbol ("register" ++ index'))
  | numeral {index index' : String} : isIndex index → isIndex index' →
      SameButIndex (.ofNumeral index) (.ofNumeral index')

def StartsNoDigit (text : String) : Prop :=
  ∀ c ∈ text.toList.head?, Text.isDigit c = false

variable {text text' : String}

theorem takeWhile_isDigit_append {index : String} (h : isIndex index) (htext : StartsNoDigit text) :
    (index ++ text).toList.takeWhile Text.isDigit = index.toList := by
  rw [String.toList_append]
  exact Text.takeWhile_append_of_head (isIndex_iff.1 h).2 htext

/-- Numbers end where something else starts, so they can be told from what follows. -/
theorem append_inj_of_isIndex {index index' : String} (h : isIndex index) (h' : isIndex index')
    (htext : StartsNoDigit text) (htext' : StartsNoDigit text')
    (heq : index ++ text = index' ++ text') : index = index' ∧ text = text' := by
  have hindex : index = index' := by
    have hcut := takeWhile_isDigit_append h htext
    rw [heq, takeWhile_isDigit_append h' htext'] at hcut
    exact String.toList_injective hcut.symm
  subst hindex
  exact ⟨rfl, (String.append_right_inj index).1 heq⟩

theorem Operand.SameButIndex.append_inj {operand' : Operand} (h : operand.SameButIndex operand')
    (htext : StartsNoDigit text) (htext' : StartsNoDigit text')
    (heq : operand.render ++ text = operand'.render ++ text') :
    operand = operand' ∧ text = text' := by
  cases h with
  | refl => exact ⟨rfl, (String.append_right_inj _).1 heq⟩
  | @register index index' hindex hindex' =>
    have hword : ("register" ++ index) ++ text = ("register" ++ index') ++ text' := heq
    rw [String.append_assoc, String.append_assoc, String.append_right_inj] at hword
    obtain ⟨rfl, rfl⟩ := append_inj_of_isIndex hindex hindex' htext htext' hword
    exact ⟨rfl, rfl⟩
  | numeral hindex hindex' =>
    obtain ⟨rfl, rfl⟩ := append_inj_of_isIndex hindex hindex' htext htext' heq
    exact ⟨rfl, rfl⟩

theorem startsNoDigit_empty : StartsNoDigit "" := by
  simp [StartsNoDigit]

theorem startsNoDigit_comma (text : String) : StartsNoDigit (", " ++ text) := by
  intro c hc
  rw [String.toList_append] at hc
  cases hc
  decide

/-- Operands are told by their text. -/
theorem eq_of_intercalate_render_eq {operands' : List Operand}
    (h : Forall₂ Operand.SameButIndex operands operands')
    (heq : ", ".intercalate (operands.map Operand.render) =
      ", ".intercalate (operands'.map Operand.render)) : operands = operands' := by
  induction h with
  | nil => rfl
  | @cons operand operand' rest rest' hfirst hrest ih =>
    cases hrest with
    | nil =>
      have htext : operand.render ++ "" = operand'.render ++ "" := by simpa using heq
      rw [(hfirst.append_inj startsNoDigit_empty startsNoDigit_empty htext).1]
    | cons hnext hmore =>
      simp only [map_cons, String.intercalate_cons_cons, String.append_assoc] at heq ih
      obtain ⟨rfl, htext⟩ := hfirst.append_inj (startsNoDigit_comma _) (startsNoDigit_comma _) heq
      rw [ih ((String.append_right_inj _).1 htext)]

/-- Numbering a line replaces some of its operands, and these by operands that are the same but for
a number. -/
theorem exists_operands_of_numberRegisters (h : line.StoresNumber) (number : String → Nat) :
    ∃ operands, line.numberRegisters number = line.withOperands operands ∧
      Forall₂ Operand.SameButIndex operands line.operands := by
  cases hstore : line.hasOpcode "StoreRegister" with
  | true =>
    obtain ⟨index, others, hindex, hoperands⟩ := h.exists_operands hstore
    refine ⟨_, (registers_of_store hstore hoperands).2.2 number, ?_⟩
    rw [hoperands]
    exact .cons (.numeral (isIndex_toString _) hindex) (forall₂_same.2 fun operand _ => .refl operand)
  | false =>
    refine ⟨_, (registers_of_other hstore).2.2 number,
      forall₂_map_left_iff.2 (forall₂_same.2 fun operand _ => ?_)⟩
    unfold Operand.renameRegister
    cases hdigits : operand.registerDigits? with
    | none => exact .refl operand
    | some register =>
      obtain ⟨hindex, rfl⟩ := eq_ofSymbol_of_registerDigits? hdigits
      exact .register (isIndex_toString _) hindex

/-- A renumbered line that prints like the line is the line. -/
theorem numberRegisters_eq_self_of_render_eq (h : line.StoresNumber)
    (heq : (line.numberRegisters number).render = line.render) :
    line.numberRegisters number = line := by
  obtain ⟨operands, hline, hsame⟩ := exists_operands_of_numberRegisters h number
  rw [hline] at heq ⊢
  obtain ⟨sources, label, body⟩ := line
  cases body with
  | structural mark => rfl
  | labelOnly => rfl
  | instruction opcode operands' =>
    have hoperands : Forall₂ Operand.SameButIndex operands operands' := hsame
    have hrender : ∀ operands : List Operand,
        (⟨sources, label, .instruction opcode operands⟩ : Line).render =
          (⟨sources, label, .labelOnly⟩ : Line).labelText ++ opcode ++
            (if operands.isEmpty then ""
              else " " ++ ", ".intercalate (operands.map Operand.render)) ++
            (if (⟨[], none, .instruction opcode []⟩ : Line).isDefinition then " \x7b" else "") :=
      fun _ => rfl
    have htext : (⟨sources, label, .instruction opcode operands⟩ : Line).render =
        (⟨sources, label, .instruction opcode operands'⟩ : Line).render := heq
    rw [hrender, hrender, String.append_left_inj, String.append_right_inj] at htext
    have hall : operands = operands' := by
      cases hoperands with
      | nil => rfl
      | cons hfirst hrest =>
        rw [isEmpty_cons, isEmpty_cons, if_neg Bool.false_ne_true,
          if_neg Bool.false_ne_true, String.append_right_inj] at htext
        exact eq_of_intercalate_render_eq (.cons hfirst hrest) htext
    rw [hall]
    rfl

/-- Renumbered lines that print like the lines are the lines. -/
theorem eq_of_renderLines_eq (h : Forall₂ (IsNumbering Line.StoresNumber) lines out)
    (heq : renderLines out = renderLines lines) : out = lines := by
  induction h with
  | nil => rfl
  | cons hline _ ih =>
    obtain ⟨htext, htexts⟩ := List.cons.inj heq
    rw [ih htexts]
    rcases hline with rfl | ⟨hstores, number, rfl⟩
    · rfl
    · rw [numberRegisters_eq_self_of_render_eq hstores htext]

/-- What renumbering does when all stores of the first function are numbered: it succeeds, it
changes nothing exactly if the registers are in order, and any change can be seen in print. -/
theorem exists_renumberRegisters (h : ∀ line ∈ firstBody lines, line.StoresNumber) :
    ∃ out, renumberRegisters lines = .ok out ∧ (out = lines ↔ RegistersInOrder lines) ∧
      (renderLines out = renderLines lines → out = lines) :=
  ⟨numberText lines, renumberRegisters_eq_ok_iff.2 ⟨fun line hline => (h line hline).namesStore, rfl⟩,
    numberText_eq_self_iff h, eq_of_renderLines_eq (forall₂_numberText h)⟩

end MovieDiff.Pcode
