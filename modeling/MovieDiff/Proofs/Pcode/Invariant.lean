import MovieDiff.Proofs.Pcode.Origin

/-!
What every step towards the normal form keeps. A property of lines that survives each way in which
a step may rewrite a line or a few of them holds of all lines of a normal form as soon as it holds
of the raw lines.
-/
namespace MovieDiff.Pcode

open List

/-- A property of lines, and one of their operands, that survives every rewriting of a step. -/
structure LineInvariant (p : Line → Prop) (q : Operand → Prop) : Prop where
  operands : ∀ {line : Line}, p line → ∀ o ∈ line.operands, q o
  withOperands : ∀ {line : Line} {operands : List Operand}, p line → (∀ o ∈ operands, q o) →
    p (line.withOperands operands)
  numberLabel : ∀ {line : Line} (n : Nat), p line →
    p { line with label := some ("L" ++ toString n) }
  dropLabel : ∀ {line : Line}, p line → line.body ≠ .labelOnly → p { line with label := none }
  header : ∀ {line : Line} {operands : List Operand}, p line → (∀ o ∈ operands, q o) →
    p { line with body := .instruction "DefineFunction" operands }
  unitStep : ∀ {one step : Line}, p one → p step → p (unitStep one step)
  joinedPush : ∀ {first second add joined : Line}, p first → p second → p add →
    joinedPush? first second add = some joined → p joined
  plain : ∀ {o : Operand}, q o → q o.plain
  number : ∀ n : Nat, q (.ofNumeral (toString n))
  register : ∀ n : Nat, q (.ofSymbol ("register" ++ toString n))
  target : ∀ n : Nat, q (.ofSymbol ("L" ++ toString n))
  emptyString : q (.ofString "")

namespace LineInvariant

variable {p : Line → Prop} {q : Operand → Prop} (h : LineInvariant p q) {lines : List Line}

/-! ### Steps on single lines -/

theorem forall_map {f : Line → Line} (hf : ∀ line, p line → p (f line))
    (hlines : ∀ line ∈ lines, p line) : ∀ line ∈ lines.map f, p line := by
  intro line hline
  obtain ⟨before, hbefore, rfl⟩ := mem_map.1 hline
  exact hf before (hlines before hbefore)

variable {line : Line} {out : List Line}

include h

theorem splitPushes (hlines : ∀ line ∈ lines, p line) : ∀ line ∈ splitPushes lines, p line := by
  intro line hline
  obtain ⟨before, hbefore, hline⟩ := mem_flatMap.1 hline
  have hkept := hlines before hbefore
  unfold splitPush at hline
  split at hline
  next first second others hbody =>
    have hoperands : ∀ o ∈ first :: second :: others, q o := by
      have hall := h.operands hkept
      rwa [Line.operands, hbody] at hall
    have hone : ∀ o ∈ first :: second :: others, p (before.withOperands [o]) :=
      fun o ho => h.withOperands hkept fun other hother =>
        mem_singleton.1 hother ▸ hoperands o ho
    rcases mem_cons.1 hline with rfl | hline
    · exact hone first mem_cons_self
    · obtain ⟨o, ho, rfl⟩ := mem_map.1 hline
      refine h.dropLabel (hone o (mem_cons_of_mem first ho)) ?_
      rw [Line.withOperands, hbody]
      exact Body.noConfusion
  · exact mem_singleton.1 hline ▸ hkept

theorem plainLiterals (hlines : ∀ line ∈ lines, p line) :
    ∀ line ∈ plainLiterals lines, p line := by
  refine forall_map (fun line hline => h.withOperands hline fun o ho => ?_) hlines
  obtain ⟨before, hbefore, rfl⟩ := mem_map.1 ho
  exact h.plain (h.operands hline before hbefore)

theorem plainHeaders (hlines : ∀ line ∈ lines, p line) : ∀ line ∈ plainHeaders lines, p line := by
  refine forall_map (fun line hline => ?_) hlines
  unfold plainHeader
  split
  · refine h.header hline fun o ho => ?_
    rcases mem_append.1 ho with ho | ho
    · exact h.operands hline o (mem_of_mem_take ho)
    · exact h.operands hline o (mem_of_mem_drop (mem_of_mem_filter ho))
  · exact hline

theorem emptyConstantPools (hlines : ∀ line ∈ lines, p line) :
    ∀ line ∈ emptyConstantPools lines, p line := by
  refine forall_map (fun line hline => ?_) hlines
  unfold emptyConstantPool
  split
  · exact h.withOperands hline fun o ho => mem_singleton.1 ho ▸ h.emptyString
  · exact hline

theorem zeroUrlMethods (hlines : ∀ line ∈ lines, p line) :
    ∀ line ∈ zeroUrlMethods lines, p line := by
  refine forall_map (fun line hline => ?_) hlines
  unfold zeroUrlMethod
  split
  next first second method hbody =>
    have hoperands : ∀ o ∈ [first, second, method], q o := by
      have hall := h.operands hline
      rwa [Line.operands, hbody] at hall
    split
    · refine h.withOperands hline ?_
      simp only [forall_mem_cons] at hoperands ⊢
      exact ⟨hoperands.1, hoperands.2.1, h.number 0, hoperands.2.2.2⟩
    · exact hline
  · exact hline

/-! ### Registers and labels -/

theorem numberRegisters (hline : p line) (number : String → Nat) :
    p (line.numberRegisters number) := by
  unfold Line.numberRegisters
  split
  · split
    · exact hline
    next stored others hoperands =>
      have hall := h.operands hline
      rw [hoperands] at hall
      exact h.withOperands hline (forall_mem_cons.2 ⟨h.number _, (forall_mem_cons.1 hall).2⟩)
  · refine h.withOperands hline fun o ho => ?_
    obtain ⟨before, hbefore, rfl⟩ := mem_map.1 ho
    unfold Operand.renameRegister
    split
    · exact h.register _
    · exact h.operands hline before hbefore

theorem renumberRegisters (hlines : ∀ line ∈ lines, p line)
    (hout : renumberRegisters lines = .ok out) : ∀ line ∈ out, p line := by
  have hall := forall₂_renumberRegisters hout
  clear hout
  induction hall with
  | nil => exact hlines
  | cons hfirst _ ih =>
    obtain ⟨hline, hrest⟩ := forall_mem_cons.1 hlines
    refine forall_mem_cons.2 ⟨?_, ih hrest⟩
    rcases hfirst with rfl | ⟨-, number, rfl⟩
    · exact hline
    · exact h.numberRegisters hline number

theorem dropUnusedLabels (hlines : ∀ line ∈ lines, p line) :
    ∀ line ∈ dropUnusedLabels lines, p line := by
  intro line hline
  obtain ⟨before, hbefore, hdrop⟩ := mem_filterMap.1 hline
  have hkept := hlines before hbefore
  rcases dropLabelUnless_cases (labelReferences lines) before with
    hcase | ⟨hcase, -⟩ | ⟨hcase, hbody⟩ <;> rw [hcase] at hdrop <;> cases hdrop
  · exact hkept
  · exact h.dropLabel hkept hbody

theorem nameLabels (hline : p line) (scope : LabelScope) : p (line.nameLabels scope.name) := by
  obtain ⟨sources, label, body⟩ := line
  have hlabel : p ⟨sources, label.map scope.name, body⟩ := by
    cases label with
    | none => exact hline
    | some label => exact h.numberLabel _ hline
  unfold Line.nameLabels
  rcases nameTarget_cases scope.name body with ⟨-, hkept⟩ | ⟨opcode, target, others, -, rfl, hnamed⟩
  · rw [hkept]
    exact hlabel
  · rw [hnamed]
    exact h.withOperands hlabel (forall_mem_cons.2 ⟨h.target _, fun o ho =>
      h.operands hline o (mem_cons_of_mem target ho)⟩)

theorem renumberLabels (hlines : ∀ line ∈ lines, p line) :
    ∀ line ∈ renumberLabels lines, p line := by
  rw [renumberLabels_eq]
  exact forall_map (fun line hline => h.nameLabels hline _) hlines

/-! ### Steps on several lines -/

/-- Rewritten patterns keep the invariant. -/
theorem rewrites (hout : Rewrites lines out) (hlines : ∀ line ∈ lines, p line) :
    ∀ line ∈ out, p line := by
  induction hout with
  | nil => exact hlines
  | keep line _ ih => exact forall_mem_cons.2 ((forall_mem_cons.1 hlines).imp_right ih)
  | negation _ _ _ ih => exact ih (forall_mem_cons.1 hlines).2
  | unitStep _ _ ih =>
    simp only [forall_mem_cons] at hlines ⊢
    exact ⟨h.unitStep hlines.1 hlines.2.1, ih hlines.2.2⟩
  | join hjoined _ ih =>
    simp only [forall_mem_cons] at hlines ⊢
    exact ⟨h.joinedPush hlines.1 hlines.2.1 hlines.2.2.1 hjoined, ih hlines.2.2.2⟩

/-! ### All steps -/

/-- Every step keeps the invariant. -/
theorem normalizeLines (hlines : ∀ line ∈ lines, p line) (hout : normalizeLines lines = .ok out) :
    ∀ line ∈ out, p line := by
  have hprepared := h.plainHeaders (h.plainLiterals (h.splitPushes hlines))
  obtain ⟨numbered, hnumbered, rfl⟩ := exists_of_normalizeLines hout
  apply h.zeroUrlMethods
  apply h.rewrites (rewrites_joinStrings _)
  apply h.emptyConstantPools
  apply h.rewrites (rewrites_foldUnitSteps _)
  apply h.rewrites (rewrites_dropDoubleNots _)
  apply h.renumberLabels
  apply h.dropUnusedLabels
  exact h.renumberRegisters hprepared hnumbered

end LineInvariant

end MovieDiff.Pcode
