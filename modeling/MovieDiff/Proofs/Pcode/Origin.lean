import MovieDiff.Proofs.Pcode.Renumbering

/-!
Where the registers of a normal form come from. The reads of the first function stand in the same
order before and after, so each printed register has one raw register as its origin, and different
origins are printed differently. Two blocks with the same normal form therefore read their
registers in the same pattern. The parameters bound to them may differ, since the header loses
them.
-/
namespace MovieDiff.Pcode

open List

variable {line : Line} {read : Read} {lines out : List Line} {index : Nat}
    {scope : RegisterScope}

/-! ### Reads and their lines -/

def outerReadsAt (lines : List Line) : List (Nat × Read) :=
  ownReads 0 (lines.zipIdx.flatMap fun entry => entry.1.steps.map (Step.map (Prod.mk entry.2)))

theorem map_snd_outerReadsAt (lines : List Line) : (outerReadsAt lines).map Prod.snd = outerReads lines := by
  have hsteps : ∀ steps : List (Step Read), ∀ index : Nat,
      (steps.map (Step.map (Prod.mk index))).map (Step.map Prod.snd) = steps := by
    intro steps index
    rw [map_map]
    apply map_id''
    intro step
    cases step <;> rfl
  unfold outerReadsAt outerReads stepsOf
  rw [← ownReads_map, map_flatMap]
  simp only [hsteps]
  rw [← flatMap_map Prod.fst Line.steps, zipIdx_map_fst]

theorem mem_of_mem_ownReads {α : Type} {a : α} {depth : Nat} {steps : List (Step α)}
    (h : a ∈ ownReads depth steps) : Step.read a ∈ steps := by
  induction steps generalizing depth with
  | nil => cases h
  | cons step rest ih =>
    apply mem_cons.2
    cases step with
    | opening => exact .inr (ih h)
    | closing =>
      rw [ownReads] at h
      split at h
      · cases h
      · exact .inr (ih h)
    | read b =>
      rw [ownReads] at h
      split at h
      · rcases mem_cons.1 h with rfl | h
        · exact .inl rfl
        · exact .inr (ih h)
      · exact .inr (ih h)

theorem mem_reads_of_mem_steps (h : Step.read read ∈ line.steps) : read ∈ line.reads := by
  unfold Line.steps at h
  split at h
  · simp at h
  · split at h
    · simp at h
    · simpa using h

theorem exists_line_of_mem_outerReadsAt (h : (index, read) ∈ outerReadsAt lines) :
    ∃ line, lines[index]? = some line ∧ read ∈ line.reads := by
  obtain ⟨⟨line, index'⟩, hentry, hstep⟩ := mem_flatMap.1 (mem_of_mem_ownReads h)
  obtain ⟨step, hmem, heq⟩ := mem_map.1 hstep
  cases step with
  | opening => cases heq
  | closing => cases heq
  | read read' =>
    cases heq
    exact ⟨line, mk_mem_zipIdx_iff_getElem?.1 hentry, mem_reads_of_mem_steps hmem⟩

/-! ### How a read is printed -/

theorem render_of_mem_reads (h : read ∈ line.reads) (halone : read.alone) :
    line.render = line.labelText ++ "Push register" ++ read.register ∧
      ∀ d ∈ read.register.toList, Text.isDigit d := by
  cases hpush : line.hasOpcode "Push" with
  | false =>
    rw [reads_of_not_push hpush] at h
    cases h
  | true =>
    obtain ⟨operands, hbody⟩ := exists_body_of_hasOpcode hpush
    have hoperands : line.operands = operands := by simp [Line.operands, hbody]
    rw [reads_of_push hpush, hoperands] at h
    obtain ⟨operand, hmem, heq⟩ := mem_filterMap.1 h
    obtain ⟨register, hregister, rfl⟩ := Option.map_eq_some_iff.1 heq
    obtain ⟨hindex, rfl⟩ := eq_ofSymbol_of_registerDigits? hregister
    have hone : operands = [.ofSymbol ("register" ++ register)] := by
      obtain ⟨only, rfl⟩ := length_eq_one_iff.1 (beq_iff_eq.1 halone)
      rw [mem_singleton.1 hmem]
    have hrender : (Operand.ofSymbol ("register" ++ register)).render = "register" ++ register := rfl
    have hwords : "Push" ++ (" " ++ ("register" ++ register)) = "Push register" ++ register := by
      rw [← String.append_assoc, ← String.append_assoc]
      rfl
    have hnot := isDefinition_of_hasOpcode hpush (by decide) (by decide)
    refine ⟨?_, (isIndex_iff.1 hindex).2⟩
    unfold Line.render
    rw [hbody, hone, hnot]
    simp [hrender, hwords, String.append_assoc]

/-- The digits at the end of a text are determined when something else stands before them. -/
theorem eq_of_append_digits {before before' digits digits' : List Char} {c : Char}
    (hc : Text.isDigit c = false) (hdigits : ∀ d ∈ digits, Text.isDigit d)
    (hdigits' : ∀ d ∈ digits', Text.isDigit d)
    (h : before ++ c :: digits = before' ++ c :: digits') : digits = digits' := by
  have hcut : ∀ before digits : List Char, (∀ d ∈ digits, Text.isDigit d) →
      (before ++ c :: digits).reverse.takeWhile Text.isDigit = digits.reverse := by
    intro before digits hall
    rw [reverse_append, reverse_cons, append_assoc,
      takeWhile_append_of_pos (by simpa using hall)]
    simp [hc]
  have hreverse := hcut before digits hdigits
  rw [h, hcut before' digits' hdigits'] at hreverse
  exact (reverse_injective hreverse).symm

/-- Lines of one text push one register. -/
theorem register_eq_of_render_eq {line' : Line} {read' : Read} (h : read ∈ line.reads)
    (h' : read' ∈ line'.reads) (halone : read.alone) (halone' : read'.alone)
    (hrender : line.render = line'.render) : read.register = read'.register := by
  obtain ⟨htext, hdigits⟩ := render_of_mem_reads h halone
  obtain ⟨htext', hdigits'⟩ := render_of_mem_reads h' halone'
  rw [htext, htext'] at hrender
  have hword : "Push register".toList = "Push registe".toList ++ ['r'] := rfl
  have hlist := congrArg String.toList hrender
  simp only [String.toList_append, hword, append_assoc, singleton_append] at hlist
  rw [← append_assoc, ← append_assoc] at hlist
  exact String.toList_injective (eq_of_append_digits (by decide +kernel) hdigits hdigits' hlist)

/-! ### Reads of a scope -/

variable {depth : Nat}

theorem ownReads_map_read (reads : List Read) (rest : List (Step Read)) :
    ownReads depth (reads.map Step.read ++ rest) =
      (if depth = 1 then reads else []) ++ ownReads depth rest := by
  induction reads with
  | nil => split <;> rfl
  | cons read reads ih =>
    rw [map_cons, cons_append, ownReads, ih]
    split <;> rfl

/-- One line, at any depth. -/
theorem ownReads_stepsOf_cons (depth : Nat) (line : Line) (rest : List Line) :
    ownReads depth (stepsOf (line :: rest)) =
      if line.isDefinition then ownReads (depth + 1) (stepsOf rest)
      else if line.isClosing then
        if depth = 1 then [] else ownReads (depth - 1) (stepsOf rest)
      else (if depth = 1 then line.reads else []) ++ ownReads depth (stepsOf rest) := by
  rw [stepsOf_cons, Line.steps]
  split
  · rfl
  · split
    · rfl
    · exact ownReads_map_read line.reads (stepsOf rest)

/-- What is read at depth one is read in the lines of one scope. -/
theorem ownReads_stepsOf (hdepth : 0 < depth) (lines : List Line) :
    ownReads depth (stepsOf lines) = (scopeLines depth lines).flatMap Line.reads := by
  induction lines generalizing depth with
  | nil => rfl
  | cons line rest ih =>
    rw [ownReads_stepsOf_cons, scopeLines, nextDepth]
    cases hheader : line.isDefinition with
    | true => simp [ih (Nat.succ_pos depth)]
    | false =>
      cases hclosing : line.isClosing with
      | true =>
        have hreads : line.reads = [] := by
          apply reads_of_not_push
          cases hpush : line.hasOpcode "Push" with
          | false => rfl
          | true => rw [isClosing_of_hasOpcode hpush] at hclosing; cases hclosing
        by_cases hone : depth = 1
        · simp [hone, hreads]
        · have hopen : depth - 1 ≠ 0 := by omega
          simp [hone, hopen, ih (Nat.pos_of_ne_zero hopen)]
      | false =>
        have hopen : depth ≠ 0 := by omega
        by_cases hone : depth = 1 <;> simp [hone, hopen, ih, hdepth]

/-- The lines of a scope are numbered as the scope says. -/
theorem scopeLines_numberScopes (inner : List (String → Nat)) (number : String → Nat)
    (lines : List Line) :
    scopeLines (inner.length + 1) (numberScopes (inner ++ [number]) lines) =
      (scopeLines (inner.length + 1) lines).map (Line.numberRegisters number) := by
  induction lines generalizing inner with
  | nil => cases inner <;> rfl
  | cons line rest ih =>
    cases inner with
    | nil =>
      rw [nil_append, numberScopes, scopeLines, scopeLines,
        nextDepth_of_shape (shape_numbered number line), nextDepth, openedAfter]
      cases hheader : line.isDefinition with
      | true => simpa [hheader] using ih [_]
      | false =>
        have hheader' : (line.numberRegisters number).isDefinition = false :=
          (congrArg Prod.fst (shape_numberRegisters number line)).trans hheader
        cases hclosing : line.isClosing with
        | true => simp [hheader']
        | false => simpa [hheader'] using ih []
    | cons first inner =>
      have hopened := length_openedAfter (numberIn (scopeLines 1 rest)) line (first :: inner)
      have hdepth : nextDepth ((first :: inner).length + 1) line = (openedAfter
          (numberIn (scopeLines 1 rest)) line (first :: inner)).length + 1 := by
        rw [hopened, Nat.add_comm, nextDepth_add (by simp), Nat.add_comm]
      rw [cons_append, numberScopes, ← cons_append, openedAfter_append (cons_ne_nil _ _), scopeLines,
        scopeLines, nextDepth_of_shape (shape_numbered first line), hdepth, ih]
      simp

theorem outerReads_cons (h : line.isDefinition = false) (rest : List Line) :
    outerReads (line :: rest) = outerReads rest := by
  rw [outerReads, ownReads_stepsOf_cons, h]
  simp [outerReads]

/-- The reads of a function are those of its own lines. -/
theorem outerReads_definition (h : line.isDefinition) (rest : List Line) :
    outerReads (line :: rest) = (scopeLines 1 rest).flatMap Line.reads := by
  rw [outerReads, ownReads_stepsOf_cons, if_pos h, ownReads_stepsOf Nat.one_pos]

/-- Renumbering gives the reads of the first function the numbers of one scope. -/
theorem outerReads_renumberRegisters (h : renumberRegisters lines = .ok out) :
    ∃ scope : RegisterScope, (∀ read ∈ outerReads lines, read.register ∈ scope) ∧
      outerReads out = (outerReads lines).map (Read.numbered scope) := by
  obtain ⟨-, rfl⟩ := renumberRegisters_eq_ok_iff.1 h
  clear h
  induction lines with
  | nil => exact ⟨[], fun _ hread => absurd hread not_mem_nil, rfl⟩
  | cons line rest ih =>
    rw [numberText]
    cases hheader : line.isDefinition with
    | true =>
      rw [outerReads_definition hheader, outerReads_definition hheader, if_pos rfl]
      refine ⟨RegisterScope.addAll [] (registersOf (scopeLines 1 rest)), fun read hread => ?_, ?_⟩
      · obtain ⟨own, hown, hread⟩ := mem_flatMap.1 hread
        rw [RegisterScope.mem_addAll_iff, mem_registersOf, mem_flatMap]
        exact .inr ⟨own, hown, mem_registers_of_mem_reads hread⟩
      · have hscope := scopeLines_numberScopes [] (numberIn (scopeLines 1 rest)) rest
        rw [nil_append, length_nil, Nat.zero_add] at hscope
        rw [hscope, flatMap_map, map_flatMap]
        exact congrArg (flatMap · _) (funext fun own => reads_numberRegisters _ own)
    | false =>
      rw [outerReads_cons hheader, outerReads_cons hheader, if_neg Bool.false_ne_true]
      exact ih

/-! ### Origins -/

/-- Each step towards the normal form but one leaves the reads alone. -/
theorem normalizeLines_eq (lines : List Line) :
    normalizeLines lines =
      (renumberRegisters (plainHeaders (plainLiterals (splitPushes lines)))).map fun numbered =>
        zeroUrlMethods (joinStrings (emptyConstantPools (foldUnitSteps (dropDoubleNots
          (renumberLabels (dropUnusedLabels numbered)))))) := by
  unfold normalizeLines Pass.all
  simp only [foldlM_cons, foldlM_nil, Pass.run, bind, Except.bind, pure, Except.pure]
  cases renumberRegisters (plainHeaders (plainLiterals (splitPushes lines))) <;> rfl

/-- The steps before and after renumbering. -/
theorem exists_of_normalizeLines (h : normalizeLines lines = .ok out) :
    ∃ numbered, renumberRegisters (plainHeaders (plainLiterals (splitPushes lines))) =
        .ok numbered ∧
      out = zeroUrlMethods (joinStrings (emptyConstantPools (foldUnitSteps (dropDoubleNots
        (renumberLabels (dropUnusedLabels numbered)))))) := by
  rw [normalizeLines_eq] at h
  obtain ⟨numbered, hnumbered, rfl⟩ := exists_of_map_eq_ok h
  exact ⟨numbered, hnumbered, rfl⟩

/-- The reads of `out` are those of `lines`, each on a line of its own and with the number that the
scope gives to its register. -/
structure NumbersReads (scope : RegisterScope) (lines out : List Line) : Prop where
  mem : ∀ read ∈ outerReads lines, read.register ∈ scope
  reads : outerReads out = (outerReads lines).map fun read => read.isolated.numbered scope

/-- Normalising numbers the reads. -/
theorem exists_numbersReads (h : normalizeLines lines = .ok out) :
    ∃ scope, NumbersReads scope lines out := by
  have hbefore : outerReads (plainHeaders (plainLiterals (splitPushes lines))) =
      (outerReads lines).map Read.isolated := by
    unfold outerReads plainHeaders
    rw [stepsOf_map steps_plainHeader, stepsOf_plainLiterals, stepsOf_splitPushes, ownReads_map]
  obtain ⟨numbered, hnumbered, rfl⟩ := exists_of_normalizeLines h
  obtain ⟨scope, hmem, hreads⟩ := outerReads_renumberRegisters hnumbered
  rw [hbefore] at hmem hreads
  refine ⟨scope, fun read hread => hmem read.isolated (mem_map_of_mem hread), ?_⟩
  rw [map_map] at hreads
  unfold outerReads zeroUrlMethods emptyConstantPools at *
  rw [stepsOf_map steps_zeroUrlMethod, stepsOf_joinStrings, stepsOf_map steps_emptyConstantPool,
    stepsOf_foldUnitSteps, stepsOf_dropDoubleNots, stepsOf_renumberLabels,
    stepsOf_dropUnusedLabels, hreads]
  rfl

/-- The line at `index` of `out` pushes what was this register of `lines`: the two reads have the
same place among the reads of the function, and the same source lines. -/
def ComesFrom (lines out : List Line) (index : Nat) (register : String) : Prop :=
  ∃ (place : Nat) (read origin : Read), (outerReadsAt out)[place]? = some (index, read) ∧
    (outerReads lines)[place]? = some origin ∧ origin.sources = read.sources ∧
    origin.register = register

/-- The reads of a normal form and of the raw lines, place by place. -/
theorem exists_origin {place : Nat} (hscope : NumbersReads scope lines out)
    (h : (outerReadsAt out)[place]? = some (index, read)) :
    ∃ origin, (outerReads lines)[place]? = some origin ∧ read = origin.isolated.numbered scope := by
  have hread : (outerReads out)[place]? = some read := by
    rw [← map_snd_outerReadsAt, getElem?_map, h]
    rfl
  rw [hscope.reads, getElem?_map] at hread
  obtain ⟨origin, horigin, heq⟩ := Option.map_eq_some_iff.1 hread
  exact ⟨origin, horigin, heq.symm⟩

/-- Every read comes from a register. -/
theorem exists_comesFrom (h : normalizeLines lines = .ok out)
    (hread : (index, read) ∈ outerReadsAt out) :
    ∃ register, ComesFrom lines out index register := by
  obtain ⟨scope, hscope⟩ := exists_numbersReads h
  obtain ⟨place, hplace⟩ := mem_iff_getElem?.1 hread
  obtain ⟨origin, horigin, rfl⟩ := exists_origin hscope hplace
  exact ⟨origin.register, place, _, origin, hplace, horigin, rfl, rfl⟩

/-- An origin is printed by its number. -/
theorem ComesFrom.printed (hscope : NumbersReads scope lines out) {register : String}
    (h : ComesFrom lines out index register) :
    register ∈ scope ∧ ∃ line read, out[index]? = some line ∧ read ∈ line.reads ∧ read.alone ∧
      read.register = toString (scope.number register) := by
  obtain ⟨place, read, origin, hplace, horigin, -, rfl⟩ := h
  obtain ⟨origin', horigin', rfl⟩ := exists_origin hscope hplace
  rw [horigin, Option.some.injEq] at horigin'
  subst horigin'
  obtain ⟨line, hline, hread⟩ := exists_line_of_mem_outerReadsAt (mem_of_getElem? hplace)
  exact ⟨hscope.mem origin (mem_of_getElem? horigin), line, _, hline, hread, rfl, rfl⟩

/-- Two lines that print alike, in one normal form or in two, print the same number. -/
theorem ComesFrom.number_eq {lines' out' : List Line} {scope' : RegisterScope}
    (hscope : NumbersReads scope lines out) (hscope' : NumbersReads scope' lines' out')
    {register register' : String} (h : ComesFrom lines out index register)
    (h' : ComesFrom lines' out' index register') (hrender : renderLines out = renderLines out') :
    scope.number register = scope'.number register' := by
  obtain ⟨-, line, read, hline, hread, halone, hnumber⟩ := h.printed hscope
  obtain ⟨-, line', read', hline', hread', halone', hnumber'⟩ := h'.printed hscope'
  have htext : line.render = line'.render := by
    have hat := congrArg (fun texts => texts[index]?) hrender
    simpa [renderLines, hline, hline'] using hat
  have hregister := register_eq_of_render_eq hread hread' halone halone' htext
  rw [hnumber, hnumber'] at hregister
  exact toString_number_inj hregister

theorem normalizeBlock_eq_ok {block normal : Block} (h : normalizeBlock block = .ok normal) :
    normalizeLines block.lines = .ok normal.lines := by
  obtain ⟨lines, hlines, h⟩ := exists_of_bind_eq_ok h
  cases h
  exact hlines

/-- Blocks with the same normal form read registers in the same pattern: every line of the normal
form that pushes a register in the first function has one raw register as its origin, and two such
lines have the same origin in one block exactly when they do in the other. -/
theorem sameReadPattern_of_renderLines_eq {block block' normal normal' : Block}
    (h : normalizeBlock block = .ok normal) (h' : normalizeBlock block' = .ok normal')
    (hrender : renderLines normal.lines = renderLines normal'.lines) :
    (∀ index read, (index, read) ∈ outerReadsAt normal.lines →
      ∃! register, ComesFrom block.lines normal.lines index register) ∧
    ∀ i j r r' s s', ComesFrom block.lines normal.lines i r →
      ComesFrom block'.lines normal'.lines i r' → ComesFrom block.lines normal.lines j s →
      ComesFrom block'.lines normal'.lines j s' → (r = s ↔ r' = s') := by
  have hlines := normalizeBlock_eq_ok h
  obtain ⟨scope, hscope⟩ := exists_numbersReads hlines
  obtain ⟨scope', hscope'⟩ := exists_numbersReads (normalizeBlock_eq_ok h')
  constructor
  · intro index read hread
    obtain ⟨register, hregister⟩ := exists_comesFrom hlines hread
    refine ⟨register, hregister, ?_⟩
    intro other hother
    have hnumber := ComesFrom.number_eq hscope hscope hother hregister rfl
    exact (RegisterScope.number_inj (hother.printed hscope).1).1 hnumber
  · intro i j r r' s s' hr hr' hs hs'
    -- Both blocks print the same number at `i`, and the same at `j`.
    have hi := ComesFrom.number_eq hscope hscope' hr hr' hrender
    have hj := ComesFrom.number_eq hscope hscope' hs hs' hrender
    rw [← RegisterScope.number_inj (hr.printed hscope).1,
      ← RegisterScope.number_inj (hr'.printed hscope').1, hi, hj]

/-! ### Parameters -/

/-- The registers and parameter names that a header lists in pairs. -/
def bindingsOf : List Operand → List (String × String)
  | register :: name :: rest =>
    if register.kind == .numeric && name.kind == .string then
      (register.value.spelling, name.value.spelling) :: bindingsOf rest
    else bindingsOf (name :: rest)
  | _ => []

/-- The parameter that the first header of a block binds to a register; the name and the number of
parameters come before the pairs. -/
def Block.parameter? (block : Block) (register : String) : Option String :=
  (block.lines.find? Line.isDefinition).bind fun header =>
    (bindingsOf (header.operands.drop 2)).lookup register

/-- A function of two parameters that reads one, the other, and the first again. -/
def alternatingReads (first second : String) : Block :=
  ⟨"f", [⟨[0], none, .instruction "DefineFunction2" [.ofString "f", .ofNumeral "2", .ofNumeral "3",
      .ofFlag false, .ofNumeral "1", .ofString "a", .ofNumeral "2", .ofString "b"]⟩,
    ⟨[1], none, .instruction "Push"
      [.ofSymbol ("register" ++ first), .ofSymbol ("register" ++ second)]⟩,
    ⟨[2], none, .instruction "Push" [.ofSymbol ("register" ++ first)]⟩,
    ⟨[3], none, .structural "\x7d"⟩]⟩

def alternatingHeader : Line :=
  ⟨[0], none, .instruction "DefineFunction"
    [.ofString "f", .ofNumeral "2", .ofString "a", .ofString "b"]⟩

def alternatingBody (first second : String) : List Line :=
  [⟨[1], none, .instruction "Push" [.ofSymbol ("register" ++ first)]⟩,
    ⟨[1], none, .instruction "Push" [.ofSymbol ("register" ++ second)]⟩,
    ⟨[2], none, .instruction "Push" [.ofSymbol ("register" ++ first)]⟩,
    ⟨[3], none, .structural "\x7d"⟩]

def alternatingNormal : Block :=
  ⟨"f", alternatingHeader :: alternatingBody "1" "2"⟩

theorem normalizeBlock_alternatingReads :
    normalizeBlock (alternatingReads "1" "2") = .ok alternatingNormal ∧
      normalizeBlock (alternatingReads "2" "1") = .ok alternatingNormal :=
  ⟨eq_ok_of_toOption (by decide +kernel), eq_ok_of_toOption (by decide +kernel)⟩

theorem comesFrom_alternatingReads :
    ComesFrom (alternatingReads "1" "2").lines alternatingNormal.lines 1 "1" ∧
      ComesFrom (alternatingReads "2" "1").lines alternatingNormal.lines 1 "2" := by
  constructor
  · exact ⟨0, ⟨[1], "1", true⟩, ⟨[1], "1", false⟩, by decide +kernel⟩
  · exact ⟨0, ⟨[1], "1", true⟩, ⟨[1], "2", false⟩, by decide +kernel⟩

theorem alternatingReads_sameReadPattern :
    normalizeBlock (alternatingReads "1" "2") = .ok alternatingNormal ∧
      normalizeBlock (alternatingReads "2" "1") = .ok alternatingNormal ∧
      (1, ⟨[1], "1", true⟩) ∈ outerReadsAt alternatingNormal.lines ∧
      (∃! register, ComesFrom (alternatingReads "1" "2").lines alternatingNormal.lines 1 register) ∧
      (ComesFrom (alternatingReads "1" "2").lines alternatingNormal.lines 1 "1" ∧
        ComesFrom (alternatingReads "2" "1").lines alternatingNormal.lines 1 "2") ∧
      (ComesFrom (alternatingReads "1" "2").lines alternatingNormal.lines 2 "2" ∧
        ComesFrom (alternatingReads "2" "1").lines alternatingNormal.lines 2 "1") ∧
      ("1" = "2" ↔ "2" = "1") := by
  obtain ⟨hone, htwo⟩ := normalizeBlock_alternatingReads
  obtain ⟨hfirst, hfirst'⟩ := comesFrom_alternatingReads
  have hmem : (1, ⟨[1], "1", true⟩) ∈ outerReadsAt alternatingNormal.lines := by decide +kernel
  have hsecond : ComesFrom (alternatingReads "1" "2").lines alternatingNormal.lines 2 "2" :=
    ⟨1, ⟨[1], "2", true⟩, ⟨[1], "2", false⟩, by decide +kernel⟩
  have hsecond' : ComesFrom (alternatingReads "2" "1").lines alternatingNormal.lines 2 "1" :=
    ⟨1, ⟨[1], "2", true⟩, ⟨[1], "1", false⟩, by decide +kernel⟩
  obtain ⟨hunique, hpattern⟩ := sameReadPattern_of_renderLines_eq hone htwo rfl
  exact ⟨hone, htwo, hmem, hunique 1 _ hmem, ⟨hfirst, hfirst'⟩, ⟨hsecond, hsecond'⟩,
    hpattern 1 2 "1" "2" "2" "1" hfirst hfirst' hsecond hsecond'⟩

/-- The normal form does not tell which parameter is read. -/
theorem alternatingReads_parameter_lost :
    ∃ normal normal' : Block, normalizeBlock (alternatingReads "1" "2") = .ok normal ∧
      normalizeBlock (alternatingReads "2" "1") = .ok normal' ∧
      renderLines normal.lines = renderLines normal'.lines ∧
      ComesFrom (alternatingReads "1" "2").lines normal.lines 1 "1" ∧
      ComesFrom (alternatingReads "2" "1").lines normal'.lines 1 "2" ∧
      (alternatingReads "1" "2").parameter? "1" = some "a" ∧
      (alternatingReads "2" "1").parameter? "2" = some "b" := by
  obtain ⟨hone, htwo⟩ := normalizeBlock_alternatingReads
  obtain ⟨hfirst, hfirst'⟩ := comesFrom_alternatingReads
  exact ⟨alternatingNormal, alternatingNormal, hone, htwo, rfl, hfirst, hfirst',
    by decide +kernel, by decide +kernel⟩

end MovieDiff.Pcode
