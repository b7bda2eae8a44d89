import MovieDiff.Proofs.Pcode.Renaming

/-!
The first three steps towards the normal form go line by line: a push is split, numerals are made
plain and headers are cut. Lines that differ in source lines, in the names of labels or in the names
of registers still do so, and in nothing else, when they are prepared in this way.
-/
namespace MovieDiff.Pcode

open List

variable {operand : Operand} (sources : List Int) (label : Option String)
    (operands : List Operand)

/-! ### One line made plain -/

def Line.plain (line : Line) : Line :=
  line.withOperands (line.operands.map Operand.plain)

/-- What the first three steps towards the normal form make of a line. -/
def prepare (line : Line) : List Line :=
  (splitPush line.plain).map plainHeader

variable {line line' : Line} {lines : List Line}

theorem splitPush_of_not_push (h : line.hasOpcode "Push" = false) : splitPush line = [line] := by
  unfold splitPush
  split
  next hbody => simp [Line.hasOpcode, Line.opcode?, hbody] at h
  · rfl

/-- A push of given operands, one at a time; the label stays on the first line. -/
def pushEach (sources : List Int) (label : Option String) : List Operand → List Line
  | [] => [⟨sources, label, .instruction "Push" []⟩]
  | first :: others => ⟨sources, label, .instruction "Push" [first]⟩ ::
      others.map fun operand => ⟨sources, none, .instruction "Push" [operand]⟩

theorem splitPush_push :
    splitPush ⟨sources, label, .instruction "Push" operands⟩ = pushEach sources label operands := by
  match operands with
  | [] => rfl
  | [_] => rfl
  | _ :: _ :: _ => rfl

theorem exists_push (h : line.hasOpcode "Push") :
    ∃ sources label operands, line = ⟨sources, label, .instruction "Push" operands⟩ := by
  obtain ⟨sources, label, body⟩ := line
  obtain ⟨operands, rfl⟩ := exists_body_of_hasOpcode h
  exact ⟨sources, label, operands, rfl⟩

theorem hasOpcode_plain (opcode : String) : line.plain.hasOpcode opcode = line.hasOpcode opcode :=
  hasOpcode_withOperands _ _

theorem isDefinition_plain : line.plain.isDefinition = line.isDefinition :=
  isDefinition_withOperands _

theorem map_plain_pushEach :
    (pushEach sources label operands).map Line.plain =
      pushEach sources label (operands.map Operand.plain) := by
  cases operands with
  | nil => rfl
  | cons first others =>
    rw [pushEach, map_cons, map_map, map_cons, pushEach, map_map]
    rfl

/-- Splitting and plain spelling commute. -/
theorem map_plain_splitPush (line : Line) :
    (splitPush line).map Line.plain = splitPush line.plain := by
  cases hpush : line.hasOpcode "Push" with
  | false => rw [splitPush_of_not_push hpush,
      splitPush_of_not_push (by rw [hasOpcode_plain, hpush])]; rfl
  | true =>
    obtain ⟨sources, label, operands, rfl⟩ := exists_push hpush
    rw [splitPush_push, map_plain_pushEach]
    exact (splitPush_push sources label (operands.map Operand.plain)).symm

/-- The first three steps go line by line. -/
theorem plainHeaders_plainLiterals_splitPushes (lines : List Line) :
    plainHeaders (plainLiterals (splitPushes lines)) = lines.flatMap prepare := by
  unfold plainHeaders splitPushes
  change List.map plainHeader (List.map Line.plain (lines.flatMap splitPush)) = _
  rw [map_flatMap, map_flatMap]
  refine flatMap_congr fun line _ => ?_
  rw [map_plain_splitPush]
  rfl

theorem plainHeader_of_not_definition (h : line.isDefinition = false) :
    plainHeader line = line := by
  unfold plainHeader
  rw [h]
  rfl

theorem prepare_of_not_push (h : line.hasOpcode "Push" = false) :
    prepare line = [plainHeader line.plain] := by
  unfold prepare
  rw [splitPush_of_not_push (by rw [hasOpcode_plain, h])]
  rfl

variable {piece : Line}

/-- A line that a push is split into pushes one of its operands. -/
theorem eq_or_exists_of_mem_splitPush (h : piece ∈ splitPush line) :
    piece = line ∨ line.hasOpcode "Push" ∧ ∃ sources label, ∃ operand ∈ line.operands,
      piece = ⟨sources, label, .instruction "Push" [operand]⟩ := by
  cases hpush : line.hasOpcode "Push" with
  | false =>
    rw [splitPush_of_not_push hpush] at h
    exact .inl (mem_singleton.1 h)
  | true =>
    obtain ⟨sources, label, operands, rfl⟩ := exists_push hpush
    rw [splitPush_push] at h
    cases operands with
    | nil => exact .inl (mem_singleton.1 h)
    | cons first others =>
      rcases mem_cons.1 h with rfl | h
      · exact .inr ⟨rfl, sources, label, first, mem_cons_self, rfl⟩
      · obtain ⟨operand, hoperand, rfl⟩ := mem_map.1 h
        exact .inr ⟨rfl, sources, none, operand, mem_cons_of_mem _ hoperand, rfl⟩

theorem shape_of_mem_splitPush (h : piece ∈ splitPush line) : piece.shape = line.shape := by
  rcases eq_or_exists_of_mem_splitPush h with rfl | ⟨hpush, sources, label, operand, -, rfl⟩
  · rfl
  · refine Prod.ext (Eq.symm ?_) (Eq.symm (isClosing_of_hasOpcode hpush))
    exact isDefinition_of_hasOpcode hpush (by decide) (by decide)

theorem prepare_of_not_definition (h : line.isDefinition = false) :
    prepare line = splitPush line.plain := by
  have hpieces : ∀ piece ∈ splitPush line.plain, plainHeader piece = piece := by
    intro piece hpiece
    have hshape := congrArg Prod.fst (shape_of_mem_splitPush hpiece)
    exact plainHeader_of_not_definition ((hshape.trans isDefinition_plain).trans h)
  unfold prepare
  rw [map_congr_left hpieces]
  exact map_id' _

/-! ### Pushes, numerals and headers -/

theorem pushEach_append {sources : List Int} {label : Option String} {first : List Operand}
    (hfirst : first ≠ []) (more : List Operand) :
    pushEach sources label (first ++ more) = pushEach sources label first ++
      more.map fun operand => ⟨sources, none, .instruction "Push" [operand]⟩ := by
  obtain ⟨operand, first, rfl⟩ := exists_cons_of_ne_nil hfirst
  rw [cons_append, pushEach, pushEach, map_append, cons_append]

theorem pushEach_none {sources : List Int} {operands : List Operand} (h : operands ≠ []) :
    pushEach sources none operands =
      operands.map fun operand => ⟨sources, none, .instruction "Push" [operand]⟩ := by
  obtain ⟨operand, operands, rfl⟩ := exists_cons_of_ne_nil h
  rfl

theorem prepare_push :
    prepare ⟨sources, label, .instruction "Push" operands⟩ =
      pushEach sources label (operands.map Operand.plain) := by
  rw [prepare_of_not_definition rfl]
  exact splitPush_push sources label (operands.map Operand.plain)

def isWhole (cs : List Char) : Bool :=
  let unsigned := match cs with
    | '-' :: rest => rest
    | _ => cs
  !unsigned.isEmpty && unsigned.all Text.isDigit

theorem cut_digits {digits : List Char} (h : digits.all Text.isDigit) :
    (digits ++ ['.', '0']).takeWhile Text.isDigit = digits ∧
      (digits ++ ['.', '0']).dropWhile Text.isDigit = ['.', '0'] ∧
      digits.dropWhile Text.isDigit = [] := by
  rw [all_eq_true] at h
  refine ⟨?_, ?_, dropWhile_eq_nil_iff.2 h⟩
  · rw [takeWhile_append_of_pos h, takeWhile_cons_of_neg (by decide), append_nil]
  · rw [dropWhile_append_of_pos h, dropWhile_cons_of_neg (by decide)]

theorem isWholeDecimal_append {cs : List Char} (h : isWhole cs) :
    isWholeDecimal (cs ++ ['.', '0']) = true ∧ isWholeDecimal cs = false := by
  unfold isWhole at h
  unfold isWholeDecimal
  cases cs with
  | nil => cases h
  | cons c rest =>
    by_cases hsign : c = '-'
    · subst hsign
      simp only [cons_append, Bool.and_eq_true] at h ⊢
      obtain ⟨htake, hdrop, hnone⟩ := cut_digits h.2
      rw [htake, hdrop, hnone]
      exact ⟨⟨h.1, rfl⟩, Bool.and_false _⟩
    · have hdigits : (c :: rest).all Text.isDigit := by simpa [hsign] using h
      obtain ⟨htake, hdrop, hnone⟩ := cut_digits hdigits
      rw [cons_append] at htake hdrop
      constructor
      · simp [hsign, htake, hdrop]
      · simp [hsign, hnone]

/-- A zero fraction is dropped. -/
theorem plainNumeral_append {numeral : String} (h : isWhole numeral.toList) :
    plainNumeral (numeral ++ ".0") = plainNumeral numeral := by
  obtain ⟨hdecimal, hwhole⟩ := isWholeDecimal_append h
  have htext : (numeral ++ ".0").toList = numeral.toList ++ ['.', '0'] := String.toList_append
  have hcut : (numeral.toList ++ ['.', '0']).take ((numeral.toList ++ ['.', '0']).length - 2) =
      numeral.toList := by
    rw [length_append]
    exact take_left
  unfold plainNumeral
  simp only [htext, hdecimal, hwhole, hcut, String.ofList_toList, if_true, Bool.false_eq_true,
    if_false]

theorem plain_of_string (h : operand.kind == .string) : operand.plain = operand := by
  unfold Operand.plain
  rw [beq_iff_eq.1 h]
  rfl

theorem kind_plain (operand : Operand) : operand.plain.kind = operand.kind := by
  unfold Operand.plain
  split
  next h => exact (beq_iff_eq.1 h).symm
  · rfl

theorem filter_string_map_plain :
    (operands.map Operand.plain).filter (·.kind == .string) =
      operands.filter (·.kind == .string) := by
  rw [filter_map]
  simp only [Function.comp_def, kind_plain]
  conv_rhs => rw [← map_id (operands.filter (·.kind == .string))]
  exact map_congr_left fun operand hoperand => plain_of_string (mem_filter.1 hoperand).2

theorem prepare_definition (h : line.isDefinition) :
    prepare line = [⟨line.sources, line.label, .instruction "DefineFunction"
      ((line.operands.take 2).map Operand.plain ++
        (line.operands.drop 2).filter (·.kind == .string))⟩] := by
  have hpush : line.hasOpcode "Push" = false := by
    unfold Line.isDefinition at h
    rw [Bool.or_eq_true] at h
    rcases h with h | h
    · exact not_hasOpcode h (by decide)
    · exact not_hasOpcode h (by decide)
  rw [prepare_of_not_push hpush, plainHeader, if_pos (by rw [isDefinition_plain, h])]
  unfold Line.plain
  rw [operands_withOperands_map, sources_withOperands, label_withOperands, ← map_take,
    ← map_drop, filter_string_map_plain]

/-! ### What comes through -/

/-- The lines made of one line have bodies that depend on its body only, and its label stands on
the first of them. Where there is no jump, none is made. -/
theorem exists_prepare (body : Body) :
    ∃ (first : Body) (others : List Body), (∀ sources label, prepare ⟨sources, label, body⟩ =
        ⟨sources, label, first⟩ :: others.map fun other => ⟨sources, none, other⟩) ∧
      (body.target? = none → first.target? = none) ∧ ∀ other ∈ others, other.target? = none := by
  have hnil : ∀ other ∈ ([] : List Body), other.target? = none := forall_mem_nil _
  cases body with
  | structural mark => exact ⟨.structural mark, [], fun _ _ => rfl, fun _ => rfl, hnil⟩
  | labelOnly => exact ⟨.labelOnly, [], fun _ _ => rfl, fun _ => rfl, hnil⟩
  | instruction opcode operands =>
    by_cases hpush : opcode = "Push"
    · subst hpush
      cases operands with
      | nil => exact ⟨_, [], fun _ _ => prepare_push _ _ [], fun _ => rfl, hnil⟩
      | cons operand operands =>
        refine ⟨.instruction "Push" [operand.plain],
          (operands.map Operand.plain).map fun operand => .instruction "Push" [operand], ?_,
          fun _ => rfl, ?_⟩
        · intro sources label
          rw [prepare_push, map_cons, pushEach]
          exact congrArg _ map_map.symm
        · intro other hother
          obtain ⟨operand', -, rfl⟩ := mem_map.1 hother
          rfl
    · have hother : ∀ (sources : List Int) (label : Option String),
          (⟨sources, label, .instruction opcode operands⟩ : Line).hasOpcode "Push" = false := by
        intro sources label
        simp [Line.hasOpcode, Line.opcode?, hpush]
      by_cases hheader : (⟨[], none, .instruction opcode operands⟩ : Line).isDefinition
      · refine ⟨.instruction "DefineFunction" ((operands.take 2).map Operand.plain ++
          (operands.drop 2).filter (·.kind == .string)), [], ?_, fun _ => rfl, hnil⟩
        intro sources label
        have hheader' : (⟨sources, label, .instruction opcode operands⟩ : Line).isDefinition := hheader
        exact prepare_definition hheader'
      · refine ⟨.instruction opcode (operands.map Operand.plain), [], ?_, ?_, hnil⟩
        · intro sources label
          rw [prepare_of_not_push (hother sources label), plainHeader_of_not_definition]
          · rfl
          · rw [isDefinition_plain]
            exact Bool.eq_false_iff.2 hheader
        · refine target?_eq_none_of_operands ?_
          rintro rfl
          rfl

theorem prepare_jump {opcode : String} (hopcode : opcode = "If" ∨ opcode = "Jump")
    (sources : List Int)
    (label : Option String) (operands : List Operand) :
    prepare ⟨sources, label, .instruction opcode operands⟩ =
      [⟨sources, label, .instruction opcode (operands.map Operand.plain)⟩] := by
  rcases hopcode with rfl | rfl <;> rfl

theorem forall₂_prepare_unsourced (h : line'.unsourced = line.unsourced) :
    Forall₂ (fun line line' => line'.unsourced = line.unsourced) (prepare line)
      (prepare line') := by
  obtain ⟨sources, label, body⟩ := line
  obtain ⟨sources', label', body'⟩ := line'
  obtain ⟨-, rfl, rfl⟩ := Line.mk.inj h
  obtain ⟨first, others, hprepare, -, -⟩ := exists_prepare body'
  rw [hprepare, hprepare]
  refine .cons rfl ?_
  rw [forall₂_map_left_iff, forall₂_map_right_iff]
  exact forall₂_same.2 fun _ _ => rfl

/-- Once numerals are plain, targets count as they are spelled. -/
theorem forall₂_prepare_relabels {names : LabelRenaming}
    (h : Relabels names Operand.plainSpelling line line') (havoids : AvoidsRegisters line line') :
    Forall₂ (fun line line' => Relabels names Operand.spelling line line' ∧
      AvoidsRegisters line line') (prepare line) (prepare line') := by
  obtain ⟨sources, label, body⟩ := line
  obtain ⟨sources', label', body'⟩ := line'
  obtain ⟨hmem, hlabel, hbody⟩ := h
  dsimp only at hmem hlabel hbody
  cases hbody with
  | same hnone =>
    obtain ⟨first, others, hprepare, hfirst, hothers⟩ := exists_prepare body
    rw [hprepare, hprepare]
    have hfirst := hfirst hnone
    refine .cons ⟨⟨hmem, hlabel, .same hfirst⟩, avoidsRegisters_of_target? hfirst hfirst⟩ ?_
    rw [forall₂_map_left_iff, forall₂_map_right_iff]
    exact forall₂_same.2 fun other hother => relabels_of_target? rfl rfl rfl (hothers other hother)
  | @jump opcode target target' others hopcode htarget hnew =>
    have hhead : ∀ target : Operand,
        (Body.instruction opcode (target :: others)).target? = some target := fun _ => if_pos hopcode
    have hplain : ∀ target : Operand, (Body.instruction opcode (target.plain ::
        others.map Operand.plain)).target? = some target.plain := fun _ => if_pos hopcode
    rw [prepare_jump hopcode, prepare_jump hopcode]
    refine .cons ⟨⟨hmem, hlabel, .jump hopcode htarget hnew⟩, ?_, ?_⟩ .nil
    · intro plain hmem
      cases (hplain target).symm.trans hmem
      rw [registerDigits?_plain]
      exact havoids.1 target (hhead target)
    · intro plain hmem
      cases (hplain target').symm.trans hmem
      rw [registerDigits?_plain]
      exact havoids.2 target' (hhead target')

section Registers

variable {names : RegisterRenaming}

variable {index : String}

theorem plainNumeral_of_isIndex (h : isIndex index) : plainNumeral index = index := by
  obtain ⟨hnil, hdigits⟩ := isIndex_iff.1 h
  obtain ⟨c, rest, hcs⟩ := exists_cons_of_ne_nil hnil
  have hsign : c ≠ '-' := by
    rintro rfl
    have hdigit := hdigits '-' (by rw [hcs]; exact mem_cons_self)
    revert hdigit
    decide
  have hwhole : isWhole index.toList := by
    have hall := all_eq_true.2 hdigits
    rw [hcs] at hall ⊢
    simpa [isWhole, hsign] using hall
  have hne : index ≠ "-0" := by
    rintro rfl
    exact hsign (List.cons.inj hcs).1.symm
  unfold plainNumeral
  simp only [(isWholeDecimal_append hwhole).2, Bool.false_eq_true, if_false, hne]

/-- Once an operand is an index it is plain, and so is another index in its place. -/
theorem plain_withIndex (h : isIndex index) :
    ({ operand with value := .text index } : Operand).plain =
      { operand.plain with value := .text index } := by
  unfold Operand.plain
  dsimp only
  by_cases hkind : operand.kind == .numeric
  · rw [if_pos hkind, if_pos hkind, OperandValue.spelling, plainNumeral_of_isIndex h]
    rfl
  · rw [if_neg hkind, if_neg hkind]

theorem spelling_plain_of_isIndex (h : isIndex operand.spelling) :
    operand.plain.spelling = operand.spelling := by
  unfold Operand.plain
  split
  · exact plainNumeral_of_isIndex h
  · rfl

/-- Renaming and plain spelling commute. -/
theorem plain_renameRegister (f : String → String) (operand : Operand) :
    (operand.renameRegister f).plain = operand.plain.renameRegister f := by
  cases hdigits : operand.registerDigits? with
  | none =>
    rw [renameRegister_of_none f hdigits,
      renameRegister_of_none f (by rw [registerDigits?_plain, hdigits])]
  | some register =>
    have hplain := hdigits
    rw [← registerDigits?_plain] at hplain
    unfold Operand.renameRegister
    rw [hplain, hdigits]
    rfl

/-- Whether numerals are made plain or registers are renamed first does not matter. -/
theorem plain_renameRegisters (h : ∀ register ∈ line.registers, register ∈ names.registers) :
    (line.renameRegisters names.map).plain = line.plain.renameRegisters names.map ∧
      line.plain.registers = line.registers := by
  unfold Line.registers at h ⊢
  unfold Line.renameRegisters
  rw [hasOpcode_plain]
  cases hstore : line.hasOpcode "StoreRegister" with
  | true =>
    rw [hstore, if_pos rfl] at h
    rw [if_pos rfl, if_pos rfl, if_pos rfl, if_pos rfl]
    unfold Line.plain
    rw [operands_withOperands_map]
    cases hoperands : line.operands with
    | nil => exact ⟨by rw [hoperands]; rfl, rfl⟩
    | cons stored others =>
      have hregister : stored.spelling ∈ names.registers := by
        apply h
        rw [hoperands]
        exact mem_singleton_self _
      have hspelling := spelling_plain_of_isIndex (names.isIndex _ hregister)
      rw [operands_withOperands hstore]
      simp only [map_cons, withOperands_withOperands, hspelling,
        plain_withIndex (names.isIndex_map _ hregister), head?_cons, Option.map_some, and_self]
  | false =>
    simp only [Bool.false_eq_true, if_false]
    unfold Line.plain
    simp only [operands_withOperands_map, withOperands_withOperands, map_map,
      filterMap_map]
    refine ⟨congrArg _ (map_congr_left fun operand _ => plain_renameRegister _ operand), ?_⟩
    simp only [Function.comp_def, registerDigits?_plain]

theorem renameRegisters_push (f : String → String) (sources : List Int) (label : Option String)
    (operands : List Operand) :
    (⟨sources, label, .instruction "Push" operands⟩ : Line).renameRegisters f =
      ⟨sources, label, .instruction "Push" (operands.map (Operand.renameRegister f))⟩ := rfl

theorem splitPush_renameRegisters (f : String → String) (line : Line) :
    splitPush (line.renameRegisters f) = (splitPush line).map (Line.renameRegisters f) := by
  cases hpush : line.hasOpcode "Push" with
  | false =>
    rw [splitPush_of_not_push hpush, splitPush_of_not_push]
    · rfl
    · rw [hasOpcode_renameRegisters, hpush]
  | true =>
    obtain ⟨sources, label, operands, rfl⟩ := exists_push hpush
    rw [renameRegisters_push, splitPush_push, splitPush_push]
    cases operands with
    | nil => rfl
    | cons operand operands =>
      rw [map_cons, pushEach, pushEach, map_cons, map_map, map_map]
      rfl

theorem registers_of_mem_splitPush {piece : Line} (h : piece ∈ splitPush line) :
    ∀ register ∈ piece.registers, register ∈ line.registers := by
  rcases eq_or_exists_of_mem_splitPush h with rfl | ⟨hpush, sources, label, operand, hoperand, rfl⟩
  · exact fun _ hregister => hregister
  · intro register hregister
    have hdigits : operand.registerDigits? = some register := by
      obtain ⟨operand', hoperand', hdigits⟩ := mem_filterMap.1 hregister
      rwa [mem_singleton.1 hoperand'] at hdigits
    unfold Line.registers
    rw [not_hasOpcode hpush (by decide), if_neg Bool.false_ne_true]
    exact mem_filterMap.2 ⟨operand, hoperand, hdigits⟩

theorem forall₂_prepare_renames (h : RenamesRegisters names line line')
    (hheader : line.isDefinition = false) :
    Forall₂ (RenamesRegisters names) (prepare line) (prepare line') := by
  obtain ⟨hmem, rfl⟩ := h
  obtain ⟨hplain, hregisters⟩ := plain_renameRegisters hmem
  rw [prepare_of_not_definition hheader, prepare_of_not_definition
    ((congrArg Prod.fst (shape_renameRegisters line names.map)).trans hheader), hplain,
    splitPush_renameRegisters, forall₂_map_right_iff]
  refine forall₂_same.2 fun piece hpiece => ⟨fun register hregister => ?_, rfl⟩
  apply hmem
  rw [← hregisters]
  exact registers_of_mem_splitPush hpiece register hregister

variable {frames : List RegisterRenaming} {rest rest' : List Line}

/-- Lines that neither open nor close a function, before others. -/
theorem nested_append {pieces pieces' : List Line}
    (hpieces : Forall₂ (RenamesRegisters names) pieces pieces')
    (hplain : ∀ piece ∈ pieces, piece.isDefinition = false ∧ piece.isClosing = false)
    (h : Nested RenamesRegisters Eq Eq (names :: frames) rest rest') :
    Nested RenamesRegisters Eq Eq (names :: frames) (pieces ++ rest) (pieces' ++ rest') := by
  induction hpieces with
  | nil => exact h
  | cons hpiece _ ih =>
    obtain ⟨hfirst, hothers⟩ := forall_mem_cons.1 hplain
    exact .line hfirst.1 hfirst.2 hpiece (ih hothers)

theorem nested_flatMap_prepare (h : Nested RenamesRegisters Eq Eq frames rest rest') :
    Nested RenamesRegisters Eq Eq frames (rest.flatMap prepare) (rest'.flatMap prepare) := by
  induction h with
  | beyond h => exact .beyond (congrArg (List.flatMap prepare) h)
  | nil => exact .nil
  | opening hheader hkept _ ih =>
    rw [flatMap_cons, flatMap_cons, ← hkept, prepare_definition hheader]
    exact .opening rfl rfl ih
  | @closing names frames line line' rest rest' hclosing hline _ ih =>
    obtain ⟨sources, label, body⟩ := line
    have hbody : body = .structural "\x7d" := beq_iff_eq.1 hclosing
    subst hbody
    obtain ⟨hmem, rfl⟩ := hline
    exact .closing hclosing ⟨hmem, rfl⟩ ih
  | @line names frames line line' rest rest' hheader hclosing hline _ ih =>
    rw [flatMap_cons, flatMap_cons]
    refine nested_append (forall₂_prepare_renames hline hheader) (fun piece hpiece => ?_) ih
    rw [prepare_of_not_definition hheader] at hpiece
    obtain ⟨hfirst, hsecond⟩ := Prod.mk.inj (shape_of_mem_splitPush hpiece)
    rw [hfirst, hsecond, isDefinition_plain, hheader, Line.plain, isClosing_withOperands, hclosing]
    exact ⟨rfl, rfl⟩

end Registers

end MovieDiff.Pcode
