import MovieDiff.Proofs.Pcode.Reads
import MovieDiff.Proofs.Pcode.Register

/-!
Renumbering the registers of a line. The registers of a line are all that it is renumbered by, so a
line is renumbered as any later scope of its function numbers it.
-/
namespace MovieDiff.Pcode

open List

variable {scope : RegisterScope} {line : Line} {operand : Operand} {register : String}

/-! ### Digits -/

variable {n : Nat}

theorem isDigit_of_mem_toString {c : Char} (h : c ∈ (toString n).toList) : Text.isDigit c := by
  rw [Nat.toString_eq_repr, Nat.toList_repr] at h
  have hdigit := Nat.isDigit_of_mem_toDigits (by decide) (by decide) h
  unfold Char.isDigit at hdigit
  simp only [ge_iff_le, Bool.and_eq_true, decide_eq_true_eq] at hdigit
  have hascii : c.val < 128 := UInt32.lt_of_le_of_lt hdigit.2 (by decide)
  unfold Text.isDigit
  rw [if_pos hascii]
  simp only [Bool.and_eq_true, decide_eq_true_eq]
  exact hdigit

def isIndex (index : String) : Bool :=
  !index.toList.isEmpty && index.toList.all Text.isDigit

variable {index : String}

theorem isIndex_iff :
    isIndex index ↔ index.toList ≠ [] ∧ ∀ c ∈ index.toList, Text.isDigit c := by
  simp [isIndex]

theorem isIndex_toString (n : Nat) : isIndex (toString n) := by
  rw [isIndex_iff]
  refine ⟨?_, fun c hc => isDigit_of_mem_toString hc⟩
  rw [Nat.toString_eq_repr, Nat.toList_repr]
  exact Nat.toDigits_ne_nil

/-! ### Operands -/

def Operand.renameRegister (f : String → String) (operand : Operand) : Operand :=
  match operand.registerDigits? with
  | some register => .ofSymbol ("register" ++ f register)
  | none => operand

/-- A register is read back from its name. -/
theorem registerDigits?_ofSymbol (h : isIndex index) :
    (Operand.ofSymbol ("register" ++ index)).registerDigits? = some index := by
  have hdigits : registerDigits? ("register" ++ index).toList = some index.toList := by
    rw [registerDigits?_eq_some_iff, String.toList_append]
    exact ⟨rfl, isIndex_iff.1 h⟩
  unfold Operand.registerDigits? Operand.ofSymbol
  simp only [beq_self_eq_true, if_true, OperandValue.spelling]
  rw [hdigits, Option.map_some, String.ofList_toList]

/-- A register is spelled by its digits alone. -/
theorem eq_ofSymbol_of_registerDigits? (h : operand.registerDigits? = some register) :
    isIndex register ∧ operand = .ofSymbol ("register" ++ register) := by
  obtain ⟨kind, value⟩ := operand
  unfold Operand.registerDigits? at h
  split at h
  next hkind =>
    obtain ⟨digits, hdigits, rfl⟩ := Option.map_eq_some_iff.1 h
    obtain ⟨htext, hne, hall⟩ := registerDigits?_eq_some_iff.1 hdigits
    have hspelling : value.spelling = "register" ++ String.ofList digits := by
      have hword : "register".toList = registerWord := rfl
      apply String.toList_injective
      rw [htext, String.toList_append, hword, String.toList_ofList]
    refine ⟨isIndex_iff.2 ⟨by rwa [String.toList_ofList], by rwa [String.toList_ofList]⟩, ?_⟩
    rw [← hspelling]
    dsimp only at hkind
    rw [beq_iff_eq.1 hkind]
    cases value with
    | text s => rfl
    | flag b =>
      have hflag : ∀ b, (OperandValue.flag b).spelling.toList.head? ≠ some 'r' := by decide
      have hhead : (registerWord ++ digits).head? = some 'r' := rfl
      rw [← htext] at hhead
      exact absurd hhead (hflag b)
  · cases h

theorem renameRegister_of_none (f : String → String) (h : operand.registerDigits? = none) :
    operand.renameRegister f = operand := by
  unfold Operand.renameRegister
  rw [h]

variable {f g : String → String}

theorem renameRegister_congr (h : ∀ register ∈ operand.registerDigits?, f register = g register) :
    operand.renameRegister f = operand.renameRegister g := by
  unfold Operand.renameRegister
  cases hdigits : operand.registerDigits? with
  | none => rfl
  | some register => simp only [h register hdigits]

theorem registerDigits?_renameRegister
    (h : ∀ register ∈ operand.registerDigits?, isIndex (f register)) :
    (operand.renameRegister f).registerDigits? = operand.registerDigits?.map f := by
  cases hdigits : operand.registerDigits? with
  | none => rw [renameRegister_of_none f hdigits, hdigits, Option.map_none]
  | some register =>
    unfold Operand.renameRegister
    rw [hdigits]
    exact registerDigits?_ofSymbol (h register hdigits)

def indexBy (number : String → Nat) (register : String) : String :=
  toString (number register)

/-- Operands are renamed by the scope they enter. -/
theorem renumberOperands_eq (scope : RegisterScope) (operands : List Operand) :
    renumberOperands scope operands =
      (scope.addAll (operands.filterMap Operand.registerDigits?), operands.map
        (Operand.renameRegister
          (indexBy (scope.addAll (operands.filterMap Operand.registerDigits?)).number))) := by
  induction operands generalizing scope with
  | nil => rfl
  | cons operand rest ih =>
    rw [renumberOperands, renumberOperand, map_cons, Operand.renameRegister]
    cases hdigits : operand.registerDigits? with
    | none => simp only [filterMap_cons, hdigits, ih]
    | some register =>
      have hall : scope.addAll ((operand :: rest).filterMap Operand.registerDigits?) =
          (scope.add register).addAll (rest.filterMap Operand.registerDigits?) := by
        rw [filterMap_cons, hdigits]
        rfl
      have hnumber := RegisterScope.number_of_isPrefix
        (RegisterScope.prefix_addAll (scope.add register) (rest.filterMap Operand.registerDigits?))
        (scope.mem_add register)
      simp only [hall, ih, indexBy, hnumber]

/-! ### Lines -/

def Line.registers (line : Line) : List String :=
  if line.hasOpcode "StoreRegister" then (line.operands.head?.map Operand.spelling).toList
  else line.operands.filterMap Operand.registerDigits?

def Line.stored? (line : Line) : Option String :=
  if line.hasOpcode "StoreRegister" then line.operands.head?.map Operand.spelling else none

def Line.NamesStore (line : Line) : Prop :=
  line.hasOpcode "StoreRegister" → line.operands ≠ []

instance (line : Line) : Decidable line.NamesStore :=
  inferInstanceAs (Decidable (_ → _))

/-- The line with its registers numbered: the operand that a `StoreRegister` line stores becomes a
numeral, and among the operands of any other line the registers take their numbers. -/
def Line.numberRegisters (number : String → Nat) (line : Line) : Line :=
  if line.hasOpcode "StoreRegister" then
    match line.operands with
    | [] => line
    | stored :: others => line.withOperands (.ofNumeral (indexBy number stored.spelling) :: others)
  else line.withOperands (line.operands.map (Operand.renameRegister (indexBy number)))

theorem registers_of_store {stored : Operand} {others : List Operand}
    (hstore : line.hasOpcode "StoreRegister") (hoperands : line.operands = stored :: others) :
    line.registers = [stored.spelling] ∧ line.stored? = some stored.spelling ∧
      ∀ number, line.numberRegisters number =
        line.withOperands (.ofNumeral (indexBy number stored.spelling) :: others) := by
  simp [Line.registers, Line.stored?, Line.numberRegisters, hstore, hoperands]

theorem registers_of_other (h : line.hasOpcode "StoreRegister" = false) :
    line.registers = line.operands.filterMap Operand.registerDigits? ∧ line.stored? = none ∧
      ∀ number, line.numberRegisters number =
        line.withOperands (line.operands.map (Operand.renameRegister (indexBy number))) := by
  simp [Line.registers, Line.stored?, Line.numberRegisters, h]

theorem withOperands_operands (line : Line) : line.withOperands line.operands = line := by
  obtain ⟨sources, label, body⟩ := line
  cases body <;> rfl

theorem operands_withOperands_map (line : Line) (f : Operand → Operand) :
    (line.withOperands (line.operands.map f)).operands = line.operands.map f := by
  obtain ⟨sources, label, body⟩ := line
  cases body <;> rfl

/-- A line is renumbered by the scope that its registers have entered, unless it stores a register
without naming it. -/
theorem renumberLine_eq (scope : RegisterScope) (line : Line) :
    renumberLine scope line =
      if line.NamesStore then .ok (scope.addAll line.registers,
        line.numberRegisters (scope.addAll line.registers).number)
      else .error .missingOperand := by
  by_cases hnames : line.NamesStore
  · rw [if_pos hnames]
    unfold renumberLine Line.registers Line.numberRegisters
    cases hstore : line.hasOpcode "StoreRegister" with
    | true =>
      obtain ⟨stored, others, hoperands⟩ := exists_cons_of_ne_nil (hnames hstore)
      simp only [if_true, storedRegister, hoperands]
      rfl
    | false =>
      simp only [Bool.false_eq_true, if_false, renumberOperands_eq]
      rfl
  · obtain ⟨hstore, hoperands⟩ := Classical.not_imp.1 hnames
    rw [if_neg hnames, renumberLine, if_pos hstore, storedRegister, not_not.1 hoperands]
    rfl

variable {number number' : String → Nat}

/-- The registers of a line are all that its numbering looks at. -/
theorem numberRegisters_congr
    (h : ∀ register ∈ line.registers, number register = number' register) :
    line.numberRegisters number = line.numberRegisters number' := by
  unfold Line.registers at h
  unfold Line.numberRegisters
  split at h
  next hstore =>
    rw [if_pos hstore, if_pos hstore]
    cases hoperands : line.operands with
    | nil => rfl
    | cons stored others =>
      rw [hoperands] at h
      simp only [indexBy, h stored.spelling (by simp)]
  next hstore =>
    rw [if_neg hstore, if_neg hstore]
    congr 1
    refine map_congr_left fun operand hoperand => renameRegister_congr fun register hregister => ?_
    rw [indexBy, indexBy, h register (mem_filterMap.2 ⟨operand, hoperand, hregister⟩)]

/-- Numbering changes operands only. -/
theorem exists_withOperands_numberRegisters (number : String → Nat) (line : Line) :
    ∃ operands, line.numberRegisters number = line.withOperands operands := by
  unfold Line.numberRegisters
  split
  · split
    · exact ⟨line.operands, (withOperands_operands line).symm⟩
    · exact ⟨_, rfl⟩
  · exact ⟨_, rfl⟩

/-! ### Reads -/

/-- The read of the same place once its register has its number. -/
def Read.numbered (scope : RegisterScope) (read : Read) : Read :=
  { read with register := toString (scope.number read.register) }

theorem reads_of_not_push (h : line.hasOpcode "Push" = false) : line.reads = [] := by
  unfold Line.reads
  rw [h]
  rfl

theorem mem_registers_of_mem_reads {read : Read} (h : read ∈ line.reads) :
    read.register ∈ line.registers := by
  cases hpush : line.hasOpcode "Push" with
  | false =>
    rw [reads_of_not_push hpush] at h
    cases h
  | true =>
    rw [reads_of_push hpush] at h
    obtain ⟨operand, hoperand, heq⟩ := mem_filterMap.1 h
    obtain ⟨register, hregister, rfl⟩ := Option.map_eq_some_iff.1 heq
    rw [Line.registers, not_hasOpcode hpush (by decide), if_neg Bool.false_ne_true]
    exact mem_filterMap.2 ⟨operand, hoperand, hregister⟩

/-- The reads of a line take its numbers. -/
theorem reads_numberRegisters (scope : RegisterScope) (line : Line) :
    (line.numberRegisters scope.number).reads = line.reads.map (Read.numbered scope) := by
  cases hpush : line.hasOpcode "Push" with
  | false =>
    obtain ⟨operands, hnumbered⟩ := exists_withOperands_numberRegisters scope.number line
    rw [hnumbered, reads_of_not_push hpush, reads_of_not_push (by rw [hasOpcode_withOperands, hpush])]
    rfl
  | true =>
    have hdigits : ∀ operand : Operand,
        (operand.renameRegister (indexBy scope.number)).registerDigits? =
          operand.registerDigits?.map (indexBy scope.number) :=
      fun _ => registerDigits?_renameRegister fun _ _ => isIndex_toString _
    rw [Line.numberRegisters, not_hasOpcode hpush (by decide), if_neg Bool.false_ne_true,
      reads_of_push (by rw [hasOpcode_withOperands, hpush]), operands_withOperands_map,
      sources_withOperands, length_map, reads_of_push hpush, filterMap_map, map_filterMap]
    simp only [Function.comp_def, hdigits, Option.map_map]
    rfl

end MovieDiff.Pcode
