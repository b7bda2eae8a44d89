import MovieDiff.Proofs.Pcode.RegisterOrder

/-!
Steps that keep the shape of functions. The steps towards the normal form that come after registers
are renumbered drop lines that neither open nor close a function, and the lines that stay keep their
shape. So what they keep of each line they keep of all lines, and of the lines of the first
function.
-/
namespace MovieDiff.Pcode

variable {line : Line} {lines out : List Line} {p q : Line → Prop}

theorem refines_map {f : Line → Line} (hshape : ∀ line, (f line).shape = line.shape)
    (hline : ∀ line, p line → q (f line)) (lines : List Line) : Refines p q lines (lines.map f) := by
  induction lines with
  | nil => exact .nil
  | cons line rest ih => exact .keep (hshape line) (hline line) ih

theorem shape_of_hasOpcode {opcode : String} (h : line.hasOpcode opcode)
    (hfunction : opcode ≠ "DefineFunction") (hfunction2 : opcode ≠ "DefineFunction2") :
    line.shape = (false, false) := by
  unfold Line.shape
  rw [isDefinition_of_hasOpcode h hfunction hfunction2, isClosing_of_hasOpcode h]

theorem shape_of_pushedString? {text : String} (h : line.pushedString? = some text) :
    line.shape = (false, false) := by
  obtain ⟨operand, hbody, -, -⟩ := exists_of_pushedString? h
  exact shape_of_hasOpcode (hasOpcode_of_body hbody) (by decide) (by decide)

/-- A new line stands for the first line of its pattern, and the others go. -/
theorem refines_of_rewrites (hstep : ∀ one step, p (unitStep one step))
    (hpush : ∀ sources label text, p ⟨sources, label, .instruction "Push" [.ofString text]⟩)
    (h : Rewrites lines out) : Refines p p lines out := by
  induction h with
  | nil => exact .nil
  | keep line _ ih => exact .keep rfl id ih
  | negation hnot _ _ ih => exact .drop (shape_of_hasOpcode hnot (by decide) (by decide)) ih
  | @unitStep one step _ _ hunit _ ih =>
    obtain ⟨hone, -, -, opcode, hmem, hopcode⟩ := exists_of_isUnitStep hunit
    have hshape : step.shape = (false, false) := shape_of_hasOpcode hopcode
      (ne_of_mem_of_not_mem hmem (by decide)) (ne_of_mem_of_not_mem hmem (by decide))
    refine .keep ?_ (fun _ => hstep one step) (.drop hshape ih)
    rw [shape_of_hasOpcode (hasOpcode_of_body hone) (by decide) (by decide)]
    unfold unitStep
    split <;> rfl
  | @join _ _ _ joined _ _ hjoined _ ih =>
    obtain ⟨left, right, hleft, hright, hadd, -, -, -, -, hbody⟩ := exists_of_joinedPush? hjoined
    have hnew : p joined := by
      obtain ⟨sources, label, body⟩ := joined
      cases hbody
      exact hpush sources label (left ++ right)
    refine .keep ?_ (fun _ => hnew) (.drop (shape_of_pushedString? hright)
      (.drop (shape_of_hasOpcode hadd (by decide) (by decide)) ih))
    rw [shape_of_pushedString? hleft]
    exact shape_of_hasOpcode (hasOpcode_of_body hbody) (by decide) (by decide)

theorem refines_dropUnusedLabels (hlabel : ∀ line label, p line → p { line with label := label })
    (lines : List Line) : Refines p p lines (dropUnusedLabels lines) := by
  unfold dropUnusedLabels
  generalize labelReferences lines = references
  induction lines with
  | nil => exact .nil
  | cons line rest ih =>
    rcases dropLabelUnless_cases references line with hline | ⟨hline, -, hbody⟩ | ⟨hline, -⟩
    · rw [List.filterMap_cons_some hline]
      exact .keep rfl id ih
    · rw [List.filterMap_cons_none hline]
      refine .drop ?_ ih
      obtain ⟨sources, label', body⟩ := line
      cases hbody
      rfl
    · rw [List.filterMap_cons_some hline]
      exact .keep rfl (hlabel line none) ih

theorem shape_emptyConstantPool (line : Line) : (emptyConstantPool line).shape = line.shape := by
  unfold emptyConstantPool
  split
  · exact shape_withOperands _
  · rfl

theorem shape_zeroUrlMethod (line : Line) : (zeroUrlMethod line).shape = line.shape := by
  unfold zeroUrlMethod
  split
  · split
    · exact shape_withOperands _
    · rfl
  · rfl

theorem shape_nameLabels (f : String → String) (line : Line) :
    (line.nameLabels f).shape = line.shape := by
  obtain ⟨sources, label, body⟩ := line
  unfold Line.nameLabels
  rcases nameTarget_cases f body with ⟨-, hkept⟩ | ⟨opcode, target, others, -, rfl, hnamed⟩
  · rw [hkept]
    rfl
  · rw [hnamed]
    rfl

/-- Naming labels keeps all shapes. -/
theorem refines_renumberLabels (hline : ∀ f line, p line → q (line.nameLabels f))
    (lines : List Line) : Refines p q lines (renumberLabels lines) := by
  rw [renumberLabels_eq]
  exact refines_map (shape_nameLabels _) (hline _) lines

end MovieDiff.Pcode
