import MovieDiff.Proofs.Pcode.Relabelling

/-!
Renaming registers does not bear on the normal form. If the registers of each function are renamed
one to one, the two texts are renumbered in lockstep and come out the same.
-/
namespace MovieDiff.Pcode

open List

/-- A renaming of the registers of one function that keeps them apart. -/
structure RegisterRenaming where
  registers : Set String
  map : String → String
  isIndex : ∀ register ∈ registers, Pcode.isIndex register
  isIndex_map : ∀ register ∈ registers, Pcode.isIndex (map register)
  map_inj : ∀ a ∈ registers, ∀ b ∈ registers, map a = map b → a = b

/-- Renames the register that a `StoreRegister` line stores, or the registers among the operands
of any other line. -/
def Line.renameRegisters (f : String → String) (line : Line) : Line :=
  if line.hasOpcode "StoreRegister" then
    match line.operands with
    | [] => line
    | stored :: others =>
      line.withOperands ({ stored with value := .text (f stored.spelling) } :: others)
  else line.withOperands (line.operands.map (Operand.renameRegister f))

def RenamesRegisters (names : RegisterRenaming) (line line' : Line) : Prop :=
  (∀ register ∈ line.registers, register ∈ names.registers) ∧
    line' = line.renameRegisters names.map

variable {names : RegisterRenaming} {register : String} {line line' : Line}

/-! ### Lines -/

theorem renameRegister_renameRegister {operand : Operand} {f g : String → String}
    (h : ∀ register ∈ operand.registerDigits?, isIndex (f register)) :
    (operand.renameRegister f).renameRegister g = operand.renameRegister (g ∘ f) := by
  cases hdigits : operand.registerDigits? with
  | none => rw [renameRegister_of_none f hdigits, renameRegister_of_none g hdigits,
      renameRegister_of_none (g ∘ f) hdigits]
  | some register =>
    unfold Operand.renameRegister
    simp only [hdigits, registerDigits?_ofSymbol (h register hdigits), Function.comp_apply]

theorem withOperands_withOperands (line : Line) (first second : List Operand) :
    (line.withOperands first).withOperands second = line.withOperands second := by
  unfold Line.withOperands
  cases hbody : line.body <;> simp [hbody]

theorem exists_withOperands_renameRegisters (line : Line) (f : String → String) :
    ∃ operands, line.renameRegisters f = line.withOperands operands := by
  unfold Line.renameRegisters
  split
  · split
    · exact ⟨line.operands, (withOperands_operands line).symm⟩
    · exact ⟨_, rfl⟩
  · exact ⟨_, rfl⟩

theorem hasOpcode_renameRegisters (line : Line) (f : String → String) (opcode : String) :
    (line.renameRegisters f).hasOpcode opcode = line.hasOpcode opcode := by
  obtain ⟨operands, hline⟩ := exists_withOperands_renameRegisters line f
  rw [hline, hasOpcode_withOperands]

theorem shape_renameRegisters (line : Line) (f : String → String) :
    (line.renameRegisters f).shape = line.shape := by
  obtain ⟨operands, hline⟩ := exists_withOperands_renameRegisters line f
  rw [hline, shape_withOperands]

/-- A renamed line names the renamed registers, and it is numbered as the line is. -/
theorem RenamesRegisters.numberRegisters (h : RenamesRegisters names line line') :
    line'.registers = line.registers.map names.map ∧
      line'.stored? = line.stored?.map names.map ∧
      (line.NamesStore ↔ line'.NamesStore) ∧
      ∀ {number number' : String → Nat},
        (∀ register ∈ names.registers, number' (names.map register) = number register) →
          line.numberRegisters number = line'.numberRegisters number' := by
  obtain ⟨hmem, rfl⟩ := h
  cases hstore : line.hasOpcode "StoreRegister" with
  | true =>
    cases hoperands : line.operands with
    | nil =>
      have hsame : line.renameRegisters names.map = line := by
        simp [Line.renameRegisters, hstore, hoperands]
      rw [hsame]
      simp [Line.registers, Line.stored?, Line.numberRegisters, hstore, hoperands]
    | cons stored others =>
      have hline : line.renameRegisters names.map = line.withOperands
          ({ stored with value := .text (names.map stored.spelling) } :: others) := by
        simp [Line.renameRegisters, hstore, hoperands]
      have hoperands' := operands_withOperands hstore
        ({ stored with value := .text (names.map stored.spelling) } :: others)
      obtain ⟨hregisters, hstored, hnumbered⟩ := registers_of_store hstore hoperands
      obtain ⟨hregisters', hstored', hnumbered'⟩ :=
        registers_of_store (by rw [hasOpcode_withOperands, hstore]) hoperands'
      rw [hline, hregisters, hstored, hregisters', hstored']
      refine ⟨rfl, rfl, by simp [Line.NamesStore, hoperands, hoperands'], fun hnumber => ?_⟩
      have hsame := hnumber stored.spelling (hmem _ (hregisters ▸ mem_singleton_self _))
      rw [hnumbered, hnumbered', withOperands_withOperands, indexBy, ← hsame]
      rfl
  | false =>
    have hline : line.renameRegisters names.map =
        line.withOperands (line.operands.map (Operand.renameRegister names.map)) := by
      simp [Line.renameRegisters, hstore]
    obtain ⟨hregisters, hstored, hnumbered⟩ := registers_of_other hstore
    obtain ⟨hregisters', hstored', hnumbered'⟩ :=
      registers_of_other ((hasOpcode_renameRegisters line names.map _).trans hstore)
    rw [hregisters] at hmem
    have hknown : ∀ operand ∈ line.operands, ∀ register ∈ operand.registerDigits?,
        register ∈ names.registers := fun operand hoperand register hregister =>
      hmem register (mem_filterMap.2 ⟨operand, hoperand, hregister⟩)
    have hindex : ∀ operand ∈ line.operands, ∀ register ∈ operand.registerDigits?,
        isIndex (names.map register) := fun operand hoperand register hregister =>
      names.isIndex_map register (hknown operand hoperand register hregister)
    refine ⟨?_, by rw [hstored, hstored']; rfl,
      by simp [Line.NamesStore, hstore, hasOpcode_renameRegisters], fun hnumber => ?_⟩
    · rw [hregisters', hregisters, hline, operands_withOperands_map, filterMap_map, map_filterMap]
      exact filterMap_congr fun operand hoperand =>
        registerDigits?_renameRegister (hindex operand hoperand)
    · rw [hnumbered, hnumbered', hline, operands_withOperands_map, withOperands_withOperands, map_map]
      congr 1
      refine map_congr_left fun operand hoperand => ?_
      rw [Function.comp_apply, renameRegister_renameRegister (hindex operand hoperand)]
      refine renameRegister_congr fun register hregister => ?_
      rw [Function.comp_apply, indexBy, indexBy, hnumber register (hknown operand hoperand register hregister)]

/-- The lines of a function number its registers alike under both names. -/
theorem numberIn_of_renamesRegisters {own own' : List Line}
    (h : Forall₂ (RenamesRegisters names) own own') :
    ∀ register ∈ names.registers, numberIn own' (names.map register) = numberIn own register := by
  have hknown : ∀ register ∈ registersOf own, register ∈ names.registers := by
    intro register hregister
    obtain ⟨line, hline, hregister⟩ := mem_flatMap.1 (mem_registersOf.1 hregister)
    exact ((forall₂_and_left _ _).1 h).1 line hline register hregister
  have hregisters : registersOf own' = (registersOf own).map names.map :=
    registersOf_map (fun hline => ⟨hline.numberRegisters.1, hline.numberRegisters.2.1⟩) h
  intro register hregister
  have heq : ∀ a ∈ names.registers, ∀ b ∈ names.registers, names.map a = names.map b ↔ id a = id b :=
    fun a ha b hb => ⟨names.map_inj a ha b hb, congrArg names.map⟩
  have hnumber := RegisterScope.number_addAll_congr
    (fun a ha b hb => heq a (hknown a ha) b (hknown b hb))
    fun a ha => heq a (hknown a ha) register hregister
  rwa [map_id, ← hregisters] at hnumber

/-- Lines with the registers of each function renamed are renumbered alike. -/
def renamingRegisters : Lockstep RegisterRenaming where
  inside := RenamesRegisters
  kept := Eq
  numbers names number number' :=
    ∀ register ∈ names.registers, number' (names.map register) = number register
  alike_inside h := ⟨h.2 ▸ shape_renameRegisters _ _, h.numberRegisters.2.2.1⟩
  alike_kept h := h ▸ ⟨rfl, Iff.rfl⟩
  numberIn h := numberIn_of_renamesRegisters h
  numberRegisters hline h := hline.numberRegisters.2.2.2 h

end MovieDiff.Pcode
