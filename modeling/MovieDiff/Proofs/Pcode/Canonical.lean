import MovieDiff.Proofs.Pcode.Refinement
import MovieDiff.Proofs.Pcode.WellFormed

/-!
Lines in canonical spelling. Each step towards the normal form settles one part of it, and the steps
after it keep what they find: they drop lines that neither open nor close a function, and the lines
that stay keep their shape. So the lines of a normal form are canonical, and the stores of its first
function are numbered.
-/
namespace MovieDiff.Pcode

open List

variable (sources : List Int) (label : Option String) (text : String) {index opcode : String}
  {operands : List Operand} {P : String → List Operand → Prop}

variable {line : Line} {lines out : List Line} {p : Line → Prop}

/-! ### Spelling -/

/-- A numeral without a zero fraction that is no zero with a sign. -/
def IsPlainNumeral (text : String) : Prop :=
  isWholeDecimal text.toList = false ∧ text ≠ "-0"

def Operand.IsPlain (operand : Operand) : Prop :=
  operand.kind = .numeric → ∃ text, operand = .ofNumeral text ∧ IsPlainNumeral text

namespace Instruction

/-- An instruction that pushes at most one operand, whose numerals are plain and which, if it opens
a function, lists strings only after the name and the number of parameters. -/
structure IsPlain (opcode : String) (operands : List Operand) : Prop where
  push : opcode = "Push" → operands.length ≤ 1
  numerals : ∀ operand ∈ operands, operand.IsPlain
  header : opcode ≠ "DefineFunction2"
  parameters : opcode = "DefineFunction" → ∀ operand ∈ operands.drop 2, operand.kind = .string

def HasSymbolTarget (opcode : String) (operands : List Operand) : Prop :=
  opcode = "If" ∨ opcode = "Jump" → ∀ target ∈ operands.head?, ∃ label, target = .ofSymbol label

def HasEmptyPool (opcode : String) (operands : List Operand) : Prop :=
  opcode = "ConstantPool" → operands = [.ofString ""]

def HasZeroMethod (opcode : String) (operands : List Operand) : Prop :=
  opcode = "GetURL2" → ∀ first second method, operands = [first, second, method] →
    first.kind = .boolean → second.kind = .boolean → method.kind = .numeric →
      method = .ofNumeral "0"

structure IsCanonical (opcode : String) (operands : List Operand) : Prop where
  plain : IsPlain opcode operands
  target : HasSymbolTarget opcode operands
  pool : HasEmptyPool opcode operands
  method : HasZeroMethod opcode operands

end Instruction

def Line.Spells (P : String → List Operand → Prop) (line : Line) : Prop :=
  match line.body with
  | .instruction opcode operands => P opcode operands
  | _ => True

def Line.IsCanonical (line : Line) : Prop :=
  line.Spells Instruction.IsCanonical

/-- Numerals become plain. -/
theorem isPlainNumeral_plainNumeral : IsPlainNumeral (plainNumeral text) := by
  have hsign : ∀ whole : String, isWholeDecimal whole.toList = false →
      IsPlainNumeral (if whole = "-0" then "0" else whole) := by
    intro whole hwhole
    split
    · exact ⟨by decide, by decide⟩
    next hzero => exact ⟨hwhole, hzero⟩
  unfold plainNumeral
  dsimp only
  cases hdecimal : isWholeDecimal text.toList with
  | true =>
    obtain ⟨whole, htext, hwhole⟩ := exists_of_isWholeDecimal hdecimal
    have htake : text.toList.take (text.toList.length - 2) = whole := by
      rw [htext, length_append]
      exact take_left
    rw [if_pos rfl, htake]
    apply hsign
    rw [String.toList_ofList]
    exact (isWholeDecimal_append hwhole).2
  | false =>
    rw [if_neg Bool.false_ne_true]
    exact hsign text hdecimal

theorem isPlainNumeral_of_isIndex (h : isIndex index) : IsPlainNumeral index := by
  rw [← plainNumeral_of_isIndex h]
  exact isPlainNumeral_plainNumeral index

theorem plainNumeral_eq_self {text : String} (h : IsPlainNumeral text) :
    plainNumeral text = text := by
  unfold plainNumeral
  simp only [h.1, Bool.false_eq_true, if_false, h.2]

theorem Operand.isPlain_plain (operand : Operand) : operand.plain.IsPlain := by
  intro hkind
  rw [kind_plain] at hkind
  unfold Operand.plain
  rw [hkind]
  exact ⟨_, rfl, isPlainNumeral_plainNumeral _⟩

variable {operand : Operand}

theorem Operand.IsPlain.plain_eq_self (h : operand.IsPlain) : operand.plain = operand := by
  unfold Operand.plain
  split
  next hkind =>
    obtain ⟨text, rfl, htext⟩ := h (beq_iff_eq.1 hkind)
    exact congrArg Operand.ofNumeral (plainNumeral_eq_self htext)
  · rfl

theorem Operand.isPlain_of_kind (h : operand.kind ≠ .numeric) : operand.IsPlain :=
  fun hkind => absurd hkind h

/-! ### The first three steps -/

theorem isDefinition_iff {sources : List Int} {label : Option String} :
    (⟨sources, label, .instruction opcode operands⟩ : Line).isDefinition ↔
      opcode = "DefineFunction" ∨ opcode = "DefineFunction2" := by
  simp [Line.isDefinition, Line.hasOpcode, Line.opcode?]

theorem map_plain_eq_self (h : ∀ operand ∈ operands, operand.IsPlain) :
    operands.map Operand.plain = operands :=
  map_eq_self_iff.2 fun operand hoperand => (h operand hoperand).plain_eq_self

/-- A plain line is left as it is. -/
theorem prepare_of_isPlain (h : line.Spells Instruction.IsPlain) : prepare line = [line] := by
  obtain ⟨sources, label, body⟩ := line
  cases body with
  | structural mark => rfl
  | labelOnly => rfl
  | instruction opcode operands =>
    have hplain : Instruction.IsPlain opcode operands := h
    have hoperands := map_plain_eq_self hplain.numerals
    by_cases hpush : opcode = "Push"
    · subst hpush
      have hlength := hplain.push rfl
      rw [prepare_push, hoperands]
      match operands, hlength with
      | [], _ => rfl
      | [_], _ => rfl
    · by_cases hheader : opcode = "DefineFunction"
      · subst hheader
        have htake := map_plain_eq_self fun operand hoperand =>
          hplain.numerals operand (mem_of_mem_take (i := 2) hoperand)
        have hdrop : (operands.drop 2).filter (·.kind == .string) = operands.drop 2 :=
          filter_eq_self.2 fun operand hoperand =>
            beq_iff_eq.2 (hplain.parameters rfl operand hoperand)
        rw [prepare_definition rfl]
        simp only [Line.operands, htake, hdrop, take_append_drop]
      · have hnot : (⟨sources, label, .instruction opcode operands⟩ : Line).isDefinition = false := by
          rw [Bool.eq_false_iff, Ne, isDefinition_iff]
          exact not_or.2 ⟨hheader, hplain.header⟩
        rw [prepare_of_not_push (by simp [Line.hasOpcode, Line.opcode?, hpush]),
          plainHeader_of_not_definition (by rw [isDefinition_plain, hnot])]
        simp only [Line.plain, Line.operands, Line.withOperands, hoperands]

/-- What a line is made into is plain. -/
theorem isPlain_of_mem_prepare {piece : Line} (h : piece ∈ prepare line) :
    piece.Spells Instruction.IsPlain := by
  obtain ⟨sources, label, body⟩ := line
  cases body with
  | structural mark => exact mem_singleton.1 h ▸ trivial
  | labelOnly => exact mem_singleton.1 h ▸ trivial
  | instruction opcode operands =>
    have hplain : ∀ operand ∈ operands.map Operand.plain, operand.IsPlain := by
      intro operand hoperand
      obtain ⟨before, -, rfl⟩ := mem_map.1 hoperand
      exact before.isPlain_plain
    by_cases hpush : opcode = "Push"
    · subst hpush
      have hone : ∀ (sources : List Int) (label : Option String),
          ∀ operand ∈ operands.map Operand.plain,
            (⟨sources, label, .instruction "Push" [operand]⟩ : Line).Spells Instruction.IsPlain := by
        intro sources label operand hoperand
        refine ⟨fun _ => le_rfl, ?_, by decide, fun heq => absurd heq (by decide)⟩
        simpa using hplain operand hoperand
      rw [prepare_push] at h
      cases hoperands : operands.map Operand.plain with
      | nil =>
        rw [hoperands] at h
        rw [mem_singleton.1 h]
        exact ⟨fun _ => Nat.zero_le 1, by simp, by decide, fun heq => absurd heq (by decide)⟩
      | cons first others =>
        rw [hoperands] at h hone
        rcases mem_cons.1 h with rfl | h
        · exact hone sources label first mem_cons_self
        · obtain ⟨operand, hoperand, rfl⟩ := mem_map.1 h
          exact hone sources none operand (mem_cons_of_mem first hoperand)
    · by_cases hheader : (⟨sources, label, .instruction opcode operands⟩ : Line).isDefinition
      · rw [prepare_definition hheader] at h
        dsimp only [Line.operands] at h
        rw [mem_singleton.1 h]
        refine ⟨fun heq => absurd heq (by decide), ?_, by decide, fun _ => ?_⟩
        · intro operand hoperand
          rcases mem_append.1 hoperand with hoperand | hoperand
          · rw [map_take] at hoperand
            exact hplain operand (mem_of_mem_take hoperand)
          · have hstring := beq_iff_eq.1 (mem_filter.1 hoperand).2
            exact Operand.isPlain_of_kind (by rw [hstring]; decide)
        · intro operand hoperand
          have hshort : ((operands.take 2).map Operand.plain).length ≤ 2 := by
            rw [length_map]
            exact length_take_le 2 operands
          rw [drop_append, drop_eq_nil_of_le hshort, nil_append] at hoperand
          exact beq_iff_eq.1 (mem_filter.1 (mem_of_mem_drop hoperand)).2
      · rw [prepare_of_not_push (by simp [Line.hasOpcode, Line.opcode?, hpush]),
          plainHeader_of_not_definition (by rw [isDefinition_plain, Bool.eq_false_iff.2 hheader])] at h
        rw [mem_singleton.1 h]
        rw [isDefinition_iff, not_or] at hheader
        exact ⟨fun heq => absurd heq hpush, hplain, hheader.2, fun heq => absurd heq hheader.1⟩

/-! ### The lines of a normal form -/

namespace Line

theorem spells_iff : line.Spells P ↔ ∀ opcode operands, line.body = .instruction opcode operands →
    P opcode operands := by
  unfold Line.Spells
  cases line.body <;> simp

end Line

namespace Instruction

variable {f : String → String}

theorem IsPlain.of_other (hpush : opcode ≠ "Push") (hheader : opcode ≠ "DefineFunction")
    (hheader2 : opcode ≠ "DefineFunction2") (h : ∀ operand ∈ operands, operand.IsPlain) :
    IsPlain opcode operands :=
  ⟨fun heq => absurd heq hpush, h, hheader2, fun heq => absurd heq hheader⟩

variable {operand : Operand}

theorem isPlain_renameRegister (h : operand.IsPlain) : (operand.renameRegister f).IsPlain := by
  unfold Operand.renameRegister
  split
  · exact Operand.isPlain_of_kind (by simp [Operand.ofSymbol])
  · exact h

theorem renameRegister_of_kind (h : operand.kind ≠ .symbol) :
    operand.renameRegister f = operand := by
  apply renameRegister_of_none
  unfold Operand.registerDigits?
  rw [if_neg (by simpa using h)]

theorem kind_renameRegister (operand : Operand) : (operand.renameRegister f).kind = operand.kind := by
  unfold Operand.renameRegister
  cases hdigits : operand.registerDigits? with
  | none => rfl
  | some register =>
    obtain ⟨-, rfl⟩ := eq_ofSymbol_of_registerDigits? hdigits
    rfl

theorem IsPlain.store (hindex : isIndex index) (h : IsPlain "StoreRegister" operands) :
    IsPlain "StoreRegister" (.ofNumeral index :: operands.drop 1) := by
  refine .of_other (by decide) (by decide) (by decide) (forall_mem_cons.2 ⟨?_, ?_⟩)
  · exact fun _ => ⟨index, rfl, isPlainNumeral_of_isIndex hindex⟩
  · exact fun operand hoperand => h.numerals operand (mem_of_mem_drop hoperand)

theorem IsPlain.rename (h : IsPlain opcode operands) :
    IsPlain opcode (operands.map (Operand.renameRegister f)) where
  push heq := by
    rw [length_map]
    exact h.push heq
  numerals operand hoperand := by
    obtain ⟨before, hbefore, rfl⟩ := mem_map.1 hoperand
    exact isPlain_renameRegister (h.numerals before hbefore)
  header := h.header
  parameters heq operand hoperand := by
    rw [← map_drop] at hoperand
    obtain ⟨before, hbefore, rfl⟩ := mem_map.1 hoperand
    rw [kind_renameRegister]
    exact h.parameters heq before hbefore

theorem IsCanonical.store (hindex : isIndex index) (h : IsCanonical "StoreRegister" operands) :
    IsCanonical "StoreRegister" (.ofNumeral index :: operands.drop 1) where
  plain := h.plain.store hindex
  target heq := absurd heq (by decide)
  pool heq := absurd heq (by decide)
  method heq := absurd heq (by decide)

theorem IsCanonical.rename (h : IsCanonical opcode operands) :
    IsCanonical opcode (operands.map (Operand.renameRegister f)) where
  plain := h.plain.rename
  target heq target htarget := by
    rw [head?_map] at htarget
    obtain ⟨before, hbefore, rfl⟩ := Option.map_eq_some_iff.1 htarget
    obtain ⟨label, rfl⟩ := h.target heq before hbefore
    unfold Operand.renameRegister
    split
    · exact ⟨_, rfl⟩
    · exact ⟨label, rfl⟩
  pool heq := by
    rw [h.pool heq]
    rfl
  method heq first second method hoperands hfirst hsecond hmethod := by
    have hkinds : ∀ operand ∈ operands, operand.kind ≠ .symbol := by
      intro operand hoperand
      have hmem := mem_map_of_mem (f := Operand.renameRegister f) hoperand
      rw [hoperands] at hmem
      rw [← kind_renameRegister (f := f)]
      simp only [mem_cons, not_mem_nil, or_false] at hmem
      rcases hmem with hmem | hmem | hmem
      · rw [hmem, hfirst]
        decide
      · rw [hmem, hsecond]
        decide
      · rw [hmem, hmethod]
        decide
    have hkept : operands.map (Operand.renameRegister f) = operands :=
      map_eq_self_iff.2 fun operand hoperand => renameRegister_of_kind (hkinds operand hoperand)
    rw [hkept] at hoperands
    exact h.method heq first second method hoperands hfirst hsecond hmethod

end Instruction

section Numbered

variable (hstore : ∀ {operands index}, isIndex index → P "StoreRegister" operands →
    P "StoreRegister" (.ofNumeral index :: operands.drop 1))
  (hother : ∀ {opcode operands f}, P opcode operands →
    P opcode (operands.map (Operand.renameRegister f)))
include hstore hother

/-- Numbering keeps a spelling that does not depend on the numbers. -/
theorem spells_numberRegisters (number : String → Nat) (hline : line.Spells P) :
    (line.numberRegisters number).Spells P := by
  obtain ⟨sources, label, body⟩ := line
  cases body with
  | instruction opcode operands =>
    by_cases hopcode : opcode = "StoreRegister"
    · subst hopcode
      cases operands with
      | nil => exact hline
      | cons stored others => exact hstore (isIndex_toString _) hline
    · have hnumbered := (@registers_of_other ⟨sources, label, .instruction opcode operands⟩
        (by simp [Line.hasOpcode, Line.opcode?, hopcode])).2.2 number
      rw [hnumbered]
      exact hother hline
  | structural mark => exact hline
  | labelOnly => exact hline

/-- Renumbering keeps the spelling. -/
theorem spells_renumberRegisters (h : renumberRegisters lines = .ok out)
    (hlines : ∀ line ∈ lines, line.Spells P) :
    ∀ line ∈ out, line.Spells P := by
  have hall := forall₂_renumberRegisters h
  clear h
  induction hall with
  | nil => exact hlines
  | cons hfirst _ ih =>
    rw [forall_mem_cons] at hlines ⊢
    refine ⟨?_, ih hlines.2⟩
    rcases hfirst with rfl | ⟨-, number, rfl⟩
    · exact hlines.1
    · exact spells_numberRegisters hstore hother number hlines.1

end Numbered

section Stages

open Instruction

/-- Plain lines whose jumps name symbols. -/
def IsTargeted (opcode : String) (operands : List Operand) : Prop :=
  IsPlain opcode operands ∧ HasSymbolTarget opcode operands

def IsPooled (opcode : String) (operands : List Operand) : Prop :=
  IsTargeted opcode operands ∧ HasEmptyPool opcode operands

/-- Renumbered labels are symbols. -/
theorem refines_labels (lines : List Line) :
    Refines (Line.Spells IsPlain) (Line.Spells IsTargeted) lines (renumberLabels lines) := by
  refine refines_renumberLabels (fun f line hline => ?_) lines
  obtain ⟨sources, label, body⟩ := line
  unfold Line.nameLabels
  rcases nameTarget_cases f body with
    ⟨hnone, hkept⟩ | ⟨opcode, target, others, hopcode, rfl, hnamed⟩
  · rw [hkept]
    cases body with
    | structural mark => trivial
    | labelOnly => trivial
    | instruction opcode operands =>
      refine ⟨hline, fun hopcode target htarget => ?_⟩
      rw [Body.target?, if_pos hopcode] at hnone
      rw [hnone] at htarget
      cases htarget
  · have hplain : IsPlain opcode (target :: others) := hline
    rw [hnamed]
    constructor
    · refine .of_other ?_ ?_ ?_ (forall_mem_cons.2 ⟨?_, (forall_mem_cons.1 hplain.numerals).2⟩)
      · rcases hopcode with rfl | rfl <;> decide
      · rcases hopcode with rfl | rfl <;> decide
      · rcases hopcode with rfl | rfl <;> decide
      · exact Operand.isPlain_of_kind (by simp [Operand.ofSymbol])
    · intro _ first hfirst
      cases hfirst
      exact ⟨_, rfl⟩

theorem isPooled_push :
    (⟨sources, label, .instruction "Push" [.ofString text]⟩ : Line).Spells IsPooled := by
  refine ⟨⟨⟨fun _ => le_rfl, ?_, by decide, fun heq => absurd heq (by decide)⟩,
    fun heq => absurd heq (by decide)⟩, fun heq => absurd heq (by decide)⟩
  rw [forall_mem_singleton]
  exact Operand.isPlain_of_kind (by simp [Operand.ofString])

theorem isPooled_unitStep (one step : Line) : (unitStep one step).Spells IsPooled := by
  have hempty : ∀ operand ∈ ([] : List Operand), operand.IsPlain := by simp
  unfold unitStep
  split
  · exact ⟨⟨.of_other (by decide) (by decide) (by decide) hempty, fun heq => absurd heq (by decide)⟩,
      fun heq => absurd heq (by decide)⟩
  · exact ⟨⟨.of_other (by decide) (by decide) (by decide) hempty, fun heq => absurd heq (by decide)⟩,
      fun heq => absurd heq (by decide)⟩

theorem refines_emptyConstantPools (lines : List Line) :
    Refines (Line.Spells IsTargeted) (Line.Spells IsPooled) lines (emptyConstantPools lines) := by
  refine refines_map shape_emptyConstantPool (fun line hline => ?_) lines
  obtain ⟨sources, label, body⟩ := line
  cases body with
  | structural mark => trivial
  | labelOnly => trivial
  | instruction opcode operands =>
    by_cases hpool : opcode = "ConstantPool"
    · subst hpool
      refine ⟨⟨.of_other (by decide) (by decide) (by decide) ?_,
        fun heq => absurd heq (by decide)⟩, fun _ => rfl⟩
      rw [forall_mem_singleton]
      exact Operand.isPlain_of_kind (by decide)
    · have hkept : emptyConstantPool ⟨sources, label, .instruction opcode operands⟩ =
          ⟨sources, label, .instruction opcode operands⟩ := by
        simp [emptyConstantPool, Line.hasOpcode, Line.opcode?, hpool]
      rw [hkept]
      exact ⟨hline, fun heq => absurd heq hpool⟩

/-- A line is kept, with nothing to set, or it is `GetURL2` with two flags and a numeral. -/
theorem zeroUrlMethod_cases (opcode : String) (operands : List Operand) :
    (zeroUrlMethod ⟨sources, label, .instruction opcode operands⟩ =
        ⟨sources, label, .instruction opcode operands⟩ ∧ HasZeroMethod opcode operands) ∨
      ∃ first second method, opcode = "GetURL2" ∧ operands = [first, second, method] ∧
        first.kind = .boolean ∧ second.kind = .boolean ∧ method.kind = .numeric ∧
        zeroUrlMethod ⟨sources, label, .instruction opcode operands⟩ =
          ⟨sources, label, .instruction "GetURL2" [first, second, .ofNumeral "0"]⟩ := by
  unfold zeroUrlMethod
  split
  next first second method hbody =>
    cases hbody
    by_cases hkinds : first.kind = .boolean ∧ second.kind = .boolean ∧ method.kind = .numeric
    · obtain ⟨hfirst, hsecond, hmethod⟩ := hkinds
      refine .inr ⟨first, second, method, rfl, rfl, hfirst, hsecond, hmethod, ?_⟩
      simp [hfirst, hsecond, hmethod, Line.withOperands]
    · refine .inl ⟨?_, ?_⟩
      · simp only [Bool.and_eq_true, beq_iff_eq]
        rw [if_neg fun h => hkinds ⟨h.1.1, h.1.2, h.2⟩]
      · intro _ first' second' method' heq hfirst hsecond hmethod
        cases heq
        exact absurd ⟨hfirst, hsecond, hmethod⟩ hkinds
  next hother =>
    refine .inl ⟨rfl, ?_⟩
    rintro rfl first second method rfl
    exact absurd rfl (hother first second method)

theorem isPooled_zero {first second method : Operand}
    (h : IsPooled "GetURL2" [first, second, method]) :
    IsCanonical "GetURL2" [first, second, .ofNumeral "0"] := by
  have hzero : (Operand.ofNumeral "0").IsPlain := fun _ => ⟨"0", rfl, by decide, by decide⟩
  have hplain := h.1.1.numerals
  simp only [forall_mem_cons] at hplain
  refine ⟨.of_other (by decide) (by decide) (by decide) ?_, fun heq => absurd heq (by decide),
    fun heq => absurd heq (by decide), ?_⟩
  · simp only [forall_mem_cons]
    exact ⟨hplain.1, hplain.2.1, hzero, hplain.2.2.2⟩
  · intro _ first' second' method' heq _ _ _
    cases heq
    rfl

theorem refines_zeroUrlMethods (lines : List Line) :
    Refines (Line.Spells IsPooled) Line.IsCanonical lines (zeroUrlMethods lines) := by
  refine refines_map shape_zeroUrlMethod (fun line hline => ?_) lines
  obtain ⟨sources, label, body⟩ := line
  cases body with
  | structural mark => trivial
  | labelOnly => trivial
  | instruction opcode operands =>
    rcases zeroUrlMethod_cases sources label opcode operands with
      ⟨hkept, hmethod⟩ | ⟨first, second, method, rfl, rfl, -, -, -, hset⟩
    · rw [hkept]
      exact ⟨hline.1.1, hline.1.2, hline.2, hmethod⟩
    · rw [hset]
      exact isPooled_zero hline

end Stages

theorem storesNumber_of_hasOpcode (h : line.hasOpcode opcode)
    (hother : opcode ≠ "StoreRegister") : line.StoresNumber := by
  intro hstore
  rw [not_hasOpcode h hother] at hstore
  cases hstore

theorem storesNumber_withOperands (h : line.hasOpcode opcode)
    (hother : opcode ≠ "StoreRegister") (operands : List Operand) :
    (line.withOperands operands).StoresNumber :=
  storesNumber_of_hasOpcode (by rwa [hasOpcode_withOperands]) hother

theorem storesNumber_nameLabels (f : String → String) (line : Line) (h : line.StoresNumber) :
    (line.nameLabels f).StoresNumber := by
  obtain ⟨sources, label, body⟩ := line
  unfold Line.nameLabels
  rcases nameTarget_cases f body with ⟨-, hkept⟩ | ⟨opcode, target, others, hopcode, rfl, hnamed⟩
  · rw [hkept]
    exact h
  · rw [hnamed]
    rcases hopcode with rfl | rfl <;> exact storesNumber_of_hasOpcode (hasOpcode_of_body rfl) (by decide)

theorem storesNumber_unitStep (one step : Line) : (unitStep one step).StoresNumber := by
  obtain ⟨opcode, hmem, hopcode⟩ := hasOpcode_unitStep one step
  exact storesNumber_of_hasOpcode hopcode (ne_of_mem_of_not_mem hmem (by decide))

theorem storesNumber_push :
    (⟨sources, label, .instruction "Push" [.ofString text]⟩ : Line).StoresNumber := by
  exact storesNumber_of_hasOpcode (hasOpcode_of_body rfl) (by decide)

theorem storesNumber_emptyConstantPool (h : line.StoresNumber) :
    (emptyConstantPool line).StoresNumber := by
  unfold emptyConstantPool
  split
  next hpool => exact storesNumber_withOperands hpool (by decide) _
  · exact h

theorem storesNumber_zeroUrlMethod (h : line.StoresNumber) : (zeroUrlMethod line).StoresNumber := by
  unfold zeroUrlMethod
  split
  next hbody =>
    have hmethod : line.hasOpcode "GetURL2" := by simp [Line.hasOpcode, Line.opcode?, hbody]
    split
    · exact storesNumber_withOperands hmethod (by decide) _
    · exact h
  · exact h

/-- The steps after registers are renumbered change no store. -/
theorem storesNumber_of_steps (h : ∀ line ∈ firstBody lines, line.StoresNumber) :
    ∀ line ∈ firstBody (zeroUrlMethods (joinStrings (emptyConstantPools (foldUnitSteps
      (dropDoubleNots (renumberLabels (dropUnusedLabels lines))))))), line.StoresNumber := by
  have hused := (refines_dropUnusedLabels (fun _ _ => id) lines).firstBody.forall h
  have hlabels := (refines_renumberLabels storesNumber_nameLabels _).firstBody.forall hused
  have hrewrites {before after : List Line} (h : Rewrites before after) :
      Refines Line.StoresNumber Line.StoresNumber before after :=
    refines_of_rewrites storesNumber_unitStep storesNumber_push h
  have hnots := (hrewrites (rewrites_dropDoubleNots _)).firstBody.forall hlabels
  have hsteps := (hrewrites (rewrites_foldUnitSteps _)).firstBody.forall hnots
  have hpools := (refines_map shape_emptyConstantPool
    (fun _ => storesNumber_emptyConstantPool) _).firstBody.forall hsteps
  have hstrings := (hrewrites (rewrites_joinStrings _)).firstBody.forall hpools
  exact (refines_map shape_zeroUrlMethod
    (fun _ => storesNumber_zeroUrlMethod) _).firstBody.forall hstrings

/-- The lines of a normal form are canonical, and the stores of its first function are numbered. -/
theorem isCanonical_normalizeLines (h : normalizeLines lines = .ok out) :
    (∀ line ∈ out, line.IsCanonical) ∧ ∀ line ∈ firstBody out, line.StoresNumber := by
  obtain ⟨numbered, hnumbered, rfl⟩ := exists_of_normalizeLines h
  rw [plainHeaders_plainLiterals_splitPushes] at hnumbered
  constructor
  · have hprepared : ∀ line ∈ lines.flatMap prepare, line.Spells Instruction.IsPlain := by
      intro piece hpiece
      obtain ⟨line, -, hpiece⟩ := mem_flatMap.1 hpiece
      exact isPlain_of_mem_prepare hpiece
    have hplain := spells_renumberRegisters Instruction.IsPlain.store Instruction.IsPlain.rename
      hnumbered hprepared
    have hused := (refines_dropUnusedLabels (p := Line.Spells Instruction.IsPlain)
      (fun _ _ => id) _).forall hplain
    have htargeted := (refines_labels _).forall hused
    have hrewrites {before after : List Line} (h : Rewrites before after) :
        Refines (Line.Spells IsTargeted) (Line.Spells IsTargeted) before after :=
      refines_of_rewrites (fun one step => (isPooled_unitStep one step).1)
        (fun sources label text => (isPooled_push sources label text).1) h
    have hnots := (hrewrites (rewrites_dropDoubleNots _)).forall htargeted
    have hsteps := (hrewrites (rewrites_foldUnitSteps _)).forall hnots
    have hpooled := (refines_emptyConstantPools _).forall hsteps
    have hjoined := (refines_of_rewrites isPooled_unitStep isPooled_push
      (rewrites_joinStrings _)).forall hpooled
    exact (refines_zeroUrlMethods _).forall hjoined
  · exact storesNumber_of_steps (storesNumber_of_renumberRegisters hnumbered)

end MovieDiff.Pcode
