import Mathlib.Logic.Relation
import MovieDiff.Proofs.Pcode.Preparation

/-!
The normal form does not depend on accidents of the text: how pushes are grouped, which numbers
registers have in their functions, how labels are called, how whole numerals and function headers
are spelled, and which source lines the lines stand for.
-/
namespace MovieDiff.Pcode

open List

variable {line line' : Line} {lines lines' : List Line}

/-! ### Accidents -/

/-- A push of several groups of operands; the label stays on the first line. -/
def pushGroups (line : Line) (first : List Operand) (others : List (List Operand)) : List Line :=
  line.withOperands first :: others.map fun group => { line.withOperands group with label := none }

/-- Another spelling of a whole numeral, or the same operand. -/
inductive Respells : Operand → Operand → Prop
  | same (operand : Operand) : Respells operand operand
  | fraction {numeral : String} (h : isWhole numeral.toList) :
      Respells (.ofNumeral numeral) (.ofNumeral (numeral ++ ".0"))
  | negativeZero : Respells (.ofNumeral "0") (.ofNumeral "-0")

/-- A line with some of its numerals spelled otherwise. -/
def RespellsLine (line line' : Line) : Prop :=
  ∃ operands, Forall₂ Respells line.operands operands ∧ line' = line.withOperands operands

/-- Headers that agree in the first two operands and in the strings after them. -/
structure SameHeader (line line' : Line) : Prop where
  isDefinition : line.isDefinition
  isDefinition' : line'.isDefinition
  sources : line'.sources = line.sources
  label : line'.label = line.label
  front : line'.operands.take 2 = line.operands.take 2
  strings : (line'.operands.drop 2).filter (·.kind == .string) =
    (line.operands.drop 2).filter (·.kind == .string)

/-- One kind of accident. Registers are renamed in the first function and in the functions inside
it, in each on its own. -/
inductive Noise : List Line → List Line → Prop
  | sources {lines lines' : List Line} (h : lines'.map Line.unsourced = lines.map Line.unsourced) :
      Noise lines lines'
  | pushes {before after : List Line} {line : Line} {first : List Operand}
      {others : List (List Operand)} (hpush : line.hasOpcode "Push")
      (hoperands : line.operands = first ++ others.flatten) (hfirst : first ≠ [])
      (hothers : ∀ group ∈ others, group ≠ []) :
      Noise (before ++ line :: after) (before ++ pushGroups line first others ++ after)
  | numerals {lines lines' : List Line} (h : Forall₂ RespellsLine lines lines') :
      Noise lines lines'
  | headers {lines lines' : List Line}
      (h : Forall₂ (fun line line' => line' = line ∨ SameHeader line line') lines lines') :
      Noise lines lines'
  | registers {before rest rest' : List Line} {header : Line} {names : RegisterRenaming}
      (hbefore : ∀ line ∈ before, line.isDefinition = false) (hheader : header.isDefinition)
      (h : Nested RenamesRegisters Eq Eq [names] rest rest') :
      Noise (before ++ header :: rest) (before ++ header :: rest')
  | labels {lines lines' : List Line} {names : LabelRenaming}
      (h : Forall₂ (fun line line' =>
        Relabels names Operand.plainSpelling line line' ∧ AvoidsRegisters line line') lines lines') :
      Noise lines lines'

/-! ### Accidents that the first steps undo -/

theorem flatMap_congr_of_forall₂ {R : Line → Line → Prop}
    (hR : ∀ {line line'}, R line line' → prepare line' = prepare line)
    (h : Forall₂ R lines lines') : lines'.flatMap prepare = lines.flatMap prepare := by
  induction h with
  | nil => rfl
  | cons hline _ ih => rw [flatMap_cons, flatMap_cons, hR hline, ih]

theorem flatMap_prepare_pushGroups {first : List Operand} {others : List (List Operand)}
    (hpush : line.hasOpcode "Push") (hoperands : line.operands = first ++ others.flatten)
    (hfirst : first ≠ []) (hothers : ∀ group ∈ others, group ≠ []) :
    (pushGroups line first others).flatMap prepare = prepare line := by
  obtain ⟨sources, label, operands, rfl⟩ := exists_push hpush
  change operands = first ++ others.flatten at hoperands
  have hgroups : (others.map fun group =>
        (⟨sources, none, .instruction "Push" group⟩ : Line)).flatMap prepare =
      (others.flatten.map Operand.plain).map fun operand =>
        ⟨sources, none, .instruction "Push" [operand]⟩ := by
    rw [flatMap_map, map_flatten, map_flatten, map_map, flatMap_def]
    congr 1
    refine map_congr_left fun group hgroup => ?_
    rw [prepare_push, pushEach_none]
    · rfl
    · exact fun hnil => hothers group hgroup (map_eq_nil_iff.1 hnil)
  rw [prepare_push, hoperands, map_append, pushEach_append, ← hgroups, ← prepare_push]
  · rfl
  · exact fun hnil => hfirst (map_eq_nil_iff.1 hnil)

/-- Other spellings have one plain form. -/
theorem plain_of_respells {operand operand' : Operand} (h : Respells operand operand') :
    operand'.plain = operand.plain := by
  cases h with
  | same => rfl
  | fraction hwhole => exact congrArg Operand.ofNumeral (plainNumeral_append hwhole)
  | negativeZero => decide +kernel

theorem map_plain_of_respells {operands operands' : List Operand}
    (h : Forall₂ Respells operands operands') :
    operands'.map Operand.plain = operands.map Operand.plain := by
  induction h with
  | nil => rfl
  | cons hoperand _ ih => rw [map_cons, map_cons, plain_of_respells hoperand, ih]

theorem prepare_of_respellsLine (h : RespellsLine line line') : prepare line' = prepare line := by
  obtain ⟨operands, hoperands, rfl⟩ := h
  obtain ⟨sources, label, body⟩ := line
  cases body with
  | structural mark => rfl
  | labelOnly => rfl
  | instruction opcode operands' =>
    have hline : Line.plain ⟨sources, label, .instruction opcode operands⟩ =
        Line.plain ⟨sources, label, .instruction opcode operands'⟩ :=
      congrArg (fun plain => (⟨sources, label, .instruction opcode plain⟩ : Line))
        (map_plain_of_respells hoperands)
    exact congrArg (fun plain => (splitPush plain).map plainHeader) hline

/-- What headers differ in is dropped. -/
theorem prepare_of_sameHeader (h : SameHeader line line') : prepare line' = prepare line := by
  rw [prepare_definition h.isDefinition, prepare_definition h.isDefinition', h.sources, h.label,
    h.front, h.strings]

/-! ### The normal form -/

def LabelRenaming.identity : LabelRenaming where
  labels := Set.univ
  map := id
  lowercase_map _ _ _ _ := Iff.rfl

theorem retargets_identity (body : Body) : Retargets .identity Operand.spelling body body := by
  cases body with
  | structural mark => exact .same rfl
  | labelOnly => exact .same rfl
  | instruction opcode operands =>
    by_cases hjump : opcode = "If" ∨ opcode = "Jump"
    · cases operands with
      | nil => exact .same (if_pos hjump)
      | cons target others => exact .jump hjump trivial rfl
    · exact .same (if_neg hjump)

theorem relabels_of_unsourced (h : line'.unsourced = line.unsourced) :
    Relabels .identity Operand.spelling line line' := by
  obtain ⟨sources, label, body⟩ := line
  obtain ⟨sources', label', body'⟩ := line'
  obtain ⟨-, rfl, rfl⟩ := Line.mk.inj h
  exact ⟨fun _ _ => trivial, (congrFun Option.map_id label').symm, retargets_identity body'⟩

theorem outcomes_relabels_identity {x y : Except Fault (List Line)}
    (h : Outcomes (Forall₂ fun line line' => line'.unsourced = line.unsourced) x y) :
    Outcomes (Forall₂ (Relabels .identity Operand.spelling)) x y :=
  h.imp fun _ _ hlines => hlines.imp fun _ _ => relabels_of_unsourced

theorem outcomes_refl (x : Except Fault (List Line)) :
    Outcomes (Forall₂ fun line line' => line'.unsourced = line.unsourced) x x := by
  cases x with
  | error fault => exact .error fault
  | ok lines => exact .ok (forall₂_same.2 fun _ _ => rfl)

theorem forall₂_of_map_unsourced (h : lines'.map Line.unsourced = lines.map Line.unsourced) :
    Forall₂ (fun line line' => line'.unsourced = line.unsourced) lines lines' := by
  induction lines generalizing lines' with
  | nil =>
    rw [map_eq_nil_iff.1 h]
    exact .nil
  | cons line rest ih =>
    obtain ⟨line', rest', rfl, hline, hrest⟩ := map_eq_cons_iff.1 h
    exact .cons hline (ih hrest)

theorem isDefinition_of_mem_flatMap_prepare (h : ∀ line ∈ lines, line.isDefinition = false) :
    ∀ piece ∈ lines.flatMap prepare, piece.isDefinition = false := by
  intro piece hpiece
  obtain ⟨line, hline, hpiece⟩ := mem_flatMap.1 hpiece
  have hnot := h line hline
  rw [prepare_of_not_definition hnot] at hpiece
  exact (congrArg Prod.fst (shape_of_mem_splitPush hpiece)).trans (isDefinition_plain.trans hnot)

/-- Whatever the accident, the two texts are renumbered alike but for the names of labels. -/
theorem exists_outcomes_of_noise (h : Noise lines lines') :
    ∃ names : LabelRenaming, Outcomes (Forall₂ (Relabels names Operand.spelling))
      (renumberRegisters (lines.flatMap prepare)) (renumberRegisters (lines'.flatMap prepare)) := by
  -- Split pushes, spellings of numerals and headers leave no trace in prepared lines.
  have hundone : ∀ {lines lines' : List Line}, lines'.flatMap prepare = lines.flatMap prepare →
      ∃ names : LabelRenaming, Outcomes (Forall₂ (Relabels names Operand.spelling))
        (renumberRegisters (lines.flatMap prepare)) (renumberRegisters (lines'.flatMap prepare)) := by
    intro lines lines' heq
    rw [heq]
    exact ⟨.identity, outcomes_relabels_identity (outcomes_refl _)⟩
  cases h with
  | sources h =>
    refine ⟨.identity, outcomes_relabels_identity ?_⟩
    have hall := rel_flatMap (forall₂_of_map_unsourced h) fun _ _ => forall₂_prepare_unsourced
    exact resourcing.renumberRegisters_forall₂ () (fun hline => hline) (fun hline => hline) hall
  | pushes hpush hoperands hfirst hothers =>
    apply hundone
    rw [flatMap_append, flatMap_append, flatMap_append, flatMap_cons,
      flatMap_prepare_pushGroups hpush hoperands hfirst hothers, append_assoc]
  | numerals h => exact hundone (flatMap_congr_of_forall₂ prepare_of_respellsLine h)
  | headers h =>
    refine hundone (flatMap_congr_of_forall₂ ?_ h)
    rintro line line' (rfl | hheader)
    · rfl
    · exact prepare_of_sameHeader hheader
  | @registers before rest rest' header names hbefore hheader h =>
    refine ⟨.identity, outcomes_relabels_identity ?_⟩
    have hplain := isDefinition_of_mem_flatMap_prepare hbefore
    have hnested := nested_flatMap_prepare h
    rw [← forall₂_eq_eq_eq] at hnested
    rw [flatMap_append, flatMap_append, flatMap_cons, flatMap_cons,
      prepare_definition hheader]
    refine (renamingRegisters.renumberRegisters_nested (forall₂_same.2 fun _ _ => rfl) hplain rfl
      rfl hnested).imp fun _ _ hlines => hlines.imp ?_
    rintro line _ rfl
    rfl
  | @labels lines lines' names h =>
    refine ⟨names, ?_⟩
    have hall := rel_flatMap h fun _ _ hline => forall₂_prepare_relabels hline.1 hline.2
    exact (relabelling names Operand.spelling).renumberRegisters_forall₂ () (fun hline => hline)
      (fun hline => hline.1) hall

def finish : List Line → List Line :=
  zeroUrlMethods ∘ joinStrings ∘ emptyConstantPools ∘ foldUnitSteps ∘ dropDoubleNots

theorem ignoresSources_finish : IgnoresSources finish :=
  ignoresSources_zeroUrlMethods.comp (ignoresSources_joinStrings.comp
    (ignoresSources_emptyConstantPools.comp
      (ignoresSources_foldUnitSteps.comp ignoresSources_dropDoubleNots)))

/-- Noise leaves the normal form as it is. -/
theorem normalizeLines_of_noise (h : Noise lines lines') :
    (normalizeLines lines').map (List.map Line.unsourced) =
      (normalizeLines lines).map (List.map Line.unsourced) := by
  have hfinish : ∀ lines : List Line, normalizeLines lines =
      (renumberRegisters (lines.flatMap prepare)).map fun numbered =>
        finish (renumberLabels (dropUnusedLabels numbered)) := by
    intro lines
    rw [normalizeLines_eq, plainHeaders_plainLiterals_splitPushes]
    rfl
  obtain ⟨names, houtcomes⟩ := exists_outcomes_of_noise h
  rw [hfinish, hfinish]
  generalize renumberRegisters (lines.flatMap prepare) = numbered at houtcomes ⊢
  generalize renumberRegisters (lines'.flatMap prepare) = numbered' at houtcomes ⊢
  cases houtcomes with
  | error fault => rfl
  | ok hlines =>
    exact congrArg Except.ok (ignoresSources_finish.congr (map_unsourced_renumberLabels hlines))

/-! ### Small blocks -/

def headerOf (name : String) (count : Operand) : Line :=
  ⟨[], none, .instruction "DefineFunction" [.ofString name, count]⟩

def closingLine : Line :=
  ⟨[], none, .structural "\x7d"⟩

def functionBlock (body rest : List Line) : Block :=
  ⟨"f", headerOf "f" (.ofNumeral "0") :: (body ++ closingLine :: rest)⟩

/-! ### The normal form of noisy blocks -/

/-- The normal form is the same, source lines aside, however many accidents come together; and
there is none just when there was none. -/
theorem normalizeBlock_of_noise {block : Block}
    (h : Relation.ReflTransGen Noise block.lines lines') :
    (normalizeBlock { block with lines := lines' }).map Block.unsourced =
      (normalizeBlock block).map Block.unsourced := by
  have hlines : (normalizeLines lines').map (List.map Line.unsourced) =
      (normalizeLines block.lines).map (List.map Line.unsourced) := by
    induction h with
    | refl => rfl
    | tail _ hstep ih => rw [normalizeLines_of_noise hstep, ih]
  have hblock : ∀ block : Block, (normalizeBlock block).map Block.unsourced =
      ((normalizeLines block.lines).map (List.map Line.unsourced)).map fun lines =>
        ⟨block.name, lines⟩ := by
    intro block
    unfold normalizeBlock
    cases normalizeLines block.lines <;> rfl
  rw [hblock, hblock, hlines]

def pushLine (label : Option String) (operands : List Operand) : Line :=
  ⟨[], label, .instruction "Push" operands⟩

/-- A function that pushes, has a function inside that pushes a register, and jumps. -/
def loopLines (header : Line) (pushes : List Line) (inner target : String) : List Line :=
  header :: (pushes ++ [headerOf "g" (.ofNumeral "0"), pushLine none [.ofSymbol inner],
    closingLine, ⟨[], none, .instruction "If" [.ofSymbol target]⟩, closingLine])

/-- The same with a plain header and one operand a push. -/
def loopText (label outer one inner target : String) : List Line :=
  loopLines (headerOf "f" (.ofNumeral "0"))
    [pushLine (some label) [.ofSymbol outer], pushLine none [.ofNumeral one]] inner target

def rawLoop : Block :=
  ⟨"f", loopLines
    ⟨[], none, .instruction "DefineFunction2" [.ofString "f", .ofNumeral "0", .ofNumeral "4"]⟩
    [pushLine (some "top") [.ofSymbol "register1", .ofNumeral "1"]] "register1" "TOP"⟩

theorem normalizeBlock_rawLoop : normalizeBlock rawLoop =
    .ok ⟨"f", loopText "L0" "register1" "1" "register1" "L0"⟩ :=
  eq_ok_of_toOption (by decide +kernel)

def renameOnly (register index : String) (h : isIndex register) (h' : isIndex index) :
    RegisterRenaming where
  registers := fun other => other = register
  map _ := index
  isIndex := by rintro _ rfl; exact h
  isIndex_map _ _ := h'
  map_inj := by rintro _ rfl _ rfl _; rfl

def topToStart : LabelRenaming where
  labels := fun label => label = "top" ∨ label = "TOP"
  map label := if label = "top" then "start" else "START"
  lowercase_map := by
    rintro _ (rfl | rfl) _ (rfl | rfl) <;> decide +kernel

def outerNames : RegisterRenaming :=
  renameOnly "1" "4" (by decide +kernel) (by decide +kernel)

def innerNames : RegisterRenaming :=
  renameOnly "1" "9" (by decide +kernel) (by decide +kernel)

theorem noise_registers_loopText :
    Noise (loopText "top" "register1" "1.0" "register1" "TOP")
      (loopText "top" "register4" "1.0" "register9" "TOP") := by
  have hone : ∀ register ∈ (pushLine none [.ofSymbol "register1"]).registers, register = "1" := by
    decide +kernel
  have hfree : ∀ {names : RegisterRenaming} {line : Line}, line.registers = [] →
      ∀ register ∈ line.registers, register ∈ names.registers := by
    intro names line h register hregister
    rw [h] at hregister
    cases hregister
  have hinner : Nested RenamesRegisters Eq Eq [innerNames, outerNames]
      ((loopText "top" "register1" "1.0" "register1" "TOP").drop 4)
      ((loopText "top" "register4" "1.0" "register9" "TOP").drop 4) :=
    .line rfl rfl ⟨hone, by decide +kernel⟩ (.closing rfl ⟨hfree rfl, rfl⟩
      (.line rfl rfl ⟨hfree rfl, by decide +kernel⟩ (.closing rfl ⟨hfree rfl, rfl⟩ (.beyond rfl))))
  have houter : Nested RenamesRegisters Eq Eq [outerNames]
      (loopText "top" "register1" "1.0" "register1" "TOP").tail
      (loopText "top" "register4" "1.0" "register9" "TOP").tail :=
    .line rfl rfl ⟨hone, by decide +kernel⟩
      (.line rfl rfl ⟨hfree rfl, by decide +kernel⟩ (.opening rfl rfl hinner))
  exact @Noise.registers [] _ _ _ outerNames (forall_mem_nil _) rfl houter

theorem noise_labels_loopText :
    Noise (loopText "top" "register4" "1.0" "register9" "TOP")
      (loopText "start" "register4" "1.0" "register9" "START") := by
  have htop : ∀ label ∈ some "top", label ∈ topToStart.labels := by
    intro label hlabel
    cases hlabel
    exact .inl rfl
  have hjump : ∀ target ∈ (Body.instruction "If" [.ofSymbol "TOP"]).target?,
      target.registerDigits? = none := by decide +kernel
  have hjump' : ∀ target ∈ (Body.instruction "If" [.ofSymbol "START"]).target?,
      target.registerDigits? = none := by decide +kernel
  have hkept : ∀ {line : Line}, line.label = none → line.body.target? = none →
      Relabels topToStart Operand.plainSpelling line line ∧ AvoidsRegisters line line :=
    fun hlabel => relabels_of_target? hlabel hlabel rfl
  exact .labels (.cons (hkept rfl rfl) (.cons ⟨⟨htop, rfl, .same rfl⟩,
    avoidsRegisters_of_target? rfl rfl⟩ (.cons (hkept rfl rfl) (.cons (hkept rfl rfl)
      (.cons (hkept rfl rfl) (.cons (hkept rfl rfl)
        (.cons ⟨⟨by simp, rfl, .jump (.inl rfl) (.inr rfl) rfl⟩, hjump, hjump'⟩
          (.cons (hkept rfl rfl) .nil))))))))

/-- A header with fewer operands, a push on two lines, another spelling of one, other registers in
both functions, another label and other source lines: the normal form is the same. -/
theorem normalizeBlock_noisyLoop :
    Relation.ReflTransGen Noise rawLoop.lines
        ((loopText "start" "register4" "1.0" "register9" "START").map ({ · with sources := [7] })) ∧
      (normalizeBlock ⟨"f", (loopText "start" "register4" "1.0" "register9" "START").map
        ({ · with sources := [7] })⟩).map Block.unsourced =
      .ok ⟨"f", loopText "L0" "register1" "1" "register1" "L0"⟩ := by
  have hheaders : Noise rawLoop.lines (loopLines (headerOf "f" (.ofNumeral "0"))
      [pushLine (some "top") [.ofSymbol "register1", .ofNumeral "1"]] "register1" "TOP") :=
    .headers (.cons (.inr ⟨rfl, rfl, rfl, rfl, rfl, rfl⟩) (List.forall₂_same.2 fun _ _ => .inl rfl))
  have hpushes : Noise (loopLines (headerOf "f" (.ofNumeral "0"))
      [pushLine (some "top") [.ofSymbol "register1", .ofNumeral "1"]] "register1" "TOP")
      (loopText "top" "register1" "1" "register1" "TOP") :=
    @Noise.pushes [headerOf "f" (.ofNumeral "0")] _ _ [.ofSymbol "register1"] [[.ofNumeral "1"]] rfl rfl
      (List.cons_ne_nil _ _) (by decide)
  have hnumerals : Noise (loopText "top" "register1" "1" "register1" "TOP")
      (loopText "top" "register1" "1.0" "register1" "TOP") := by
    have hrefl : ∀ line : Line, RespellsLine line line := fun line =>
      ⟨line.operands, List.forall₂_same.2 fun _ _ => .same _, (withOperands_operands line).symm⟩
    refine .numerals (.cons (hrefl _) (.cons (hrefl _) (.cons ?_ (List.forall₂_same.2 fun _ _ => hrefl _))))
    exact ⟨[.ofNumeral "1.0"], .cons (.fraction (by decide +kernel)) .nil, rfl⟩
  have hsources : Noise (loopText "start" "register4" "1.0" "register9" "START")
      ((loopText "start" "register4" "1.0" "register9" "START").map ({ · with sources := [7] })) :=
    .sources (by decide +kernel)
  have hnoise := (((((Relation.ReflTransGen.single hheaders).tail hpushes).tail hnumerals).tail
    noise_registers_loopText).tail noise_labels_loopText).tail hsources
  refine ⟨hnoise, (normalizeBlock_of_noise hnoise).trans ?_⟩
  rw [normalizeBlock_rawLoop]
  rfl

/-! ### What the normal form does tell apart -/

def laterPush (register : String) : Block :=
  functionBlock [] [headerOf "g" (.ofNumeral "0"), ⟨[], none, .instruction "Push" [.ofSymbol register]⟩,
    closingLine]

def storeLine (register : String) : Line :=
  ⟨[], none, .instruction "StoreRegister" [.ofNumeral "1", .ofSymbol register]⟩

def extraOperand (register : String) : Block :=
  functionBlock [storeLine register] []

/-- A function inside whose header has a register for its parameter count. -/
def countedByRegister (register : String) : Block :=
  functionBlock [headerOf "g" (.ofSymbol register), closingLine] []

def jumpsTo (target other : Operand) : Block :=
  ⟨"jumps", [⟨[], none, .instruction "If" [target]⟩, ⟨[], none, .instruction "If" [other]⟩]⟩

/-- The limits of what is noise: registers after the first function, behind the first operand of a
`StoreRegister` line and in headers are not renumbered, and two numerals that name different targets
may be one once they are plain. -/
theorem normalizeBlock_tells_apart :
    (normalizeBlock (laterPush "register2")).map Block.unsourced ≠
        (normalizeBlock (laterPush "register3")).map Block.unsourced ∧
      (normalizeBlock (extraOperand "register2")).map Block.unsourced ≠
        (normalizeBlock (extraOperand "register3")).map Block.unsourced ∧
      (normalizeBlock (countedByRegister "register2")).map Block.unsourced ≠
        (normalizeBlock (countedByRegister "register3")).map Block.unsourced ∧
      (normalizeBlock (jumpsTo (.ofNumeral "1.0") (.ofNumeral "1"))).map Block.unsourced ≠
        (normalizeBlock (jumpsTo (.ofSymbol "a") (.ofSymbol "b"))).map Block.unsourced := by
  refine ⟨?_, ?_, ?_, ?_⟩ <;>
  · refine mt (congrArg Except.toOption) ?_
    decide +kernel

end MovieDiff.Pcode
