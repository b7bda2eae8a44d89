import MovieDiff.Proofs.Pcode.Renumbering

/-!
Two texts that are renumbered alike. Two line lists go in and out of functions together, and their
lines correspond, in each function in a way of its own. If numbering one line keeps the
correspondence, then renumbering all registers keeps it, and one run fails just when the other does.
-/
namespace MovieDiff.Pcode

open List

variable {lines lines' rest rest' : List Line} {line line' : Line}
  {beyond : List Line → List Line → Prop}

section Outcomes

variable {α β : Type}

/-- Two runs that both succeed, with results that correspond, or that fail alike. -/
inductive Outcomes (R : α → β → Prop) : Except Fault α → Except Fault β → Prop
  | ok {a : α} {b : β} (h : R a b) : Outcomes R (.ok a) (.ok b)
  | error (fault : Fault) : Outcomes R (.error fault) (.error fault)

theorem Outcomes.imp {R S : α → β → Prop} {x : Except Fault α} {y : Except Fault β}
    (h : Outcomes R x y) (himp : ∀ a b, R a b → S a b) : Outcomes S x y := by
  cases h with
  | ok h => exact .ok (himp _ _ h)
  | error fault => exact .error fault

end Outcomes

/-- The same part in opening and closing functions, and in whether renumbering fails. -/
structure Alike (line line' : Line) : Prop where
  shape : line'.shape = line.shape
  namesStore : line.NamesStore ↔ line'.NamesStore

theorem Alike.isDefinition (h : Alike line line') : line'.isDefinition = line.isDefinition :=
  congrArg Prod.fst h.shape

theorem Alike.isClosing (h : Alike line line') : line'.isClosing = line.isClosing :=
  congrArg Prod.snd h.shape

/-- Two texts fail alike, so it is enough that their numbered lines correspond. -/
theorem outcomes_of_alike {R : Line → Line → Prop} (halike : Forall₂ Alike lines lines')
    (h : Forall₂ R (numberText lines) (numberText lines')) :
    Outcomes (Forall₂ R) (renumberRegisters lines) (renumberRegisters lines') := by
  have hrefines : Refines Line.NamesStore Line.NamesStore lines lines' ∧
      Refines Line.NamesStore Line.NamesStore lines' lines := by
    clear h
    induction halike with
    | nil => exact ⟨.nil, .nil⟩
    | cons hline _ ih =>
      exact ⟨.keep hline.shape hline.namesStore.1 ih.1,
        .keep hline.shape.symm hline.namesStore.2 ih.2⟩
  rw [renumberRegisters_eq, renumberRegisters_eq]
  unfold ifStoresNamed
  by_cases hnames : ∀ line ∈ firstBody lines, line.NamesStore
  · rw [if_pos hnames, if_pos (hrefines.1.firstBody.forall hnames)]
    exact .ok h
  · rw [if_neg hnames, if_neg (mt hrefines.2.firstBody.forall hnames)]
    exact .error _

/-! ### Lines in functions -/

section Nested

variable {F : Type} {inside : F → Line → Line → Prop} {kept : Line → Line → Prop}

/-- Lines that correspond in functions. The list holds a frame for each function that is open, the
innermost first: a header brings a frame and a closing brace takes one away. `beyond` tells how the
lines correspond that follow when none is open. -/
inductive Nested (inside : F → Line → Line → Prop) (kept : Line → Line → Prop)
    (beyond : List Line → List Line → Prop) : List F → List Line → List Line → Prop
  | beyond {lines lines' : List Line} (h : beyond lines lines') :
      Nested inside kept beyond [] lines lines'
  | nil {frame : F} {frames : List F} : Nested inside kept beyond (frame :: frames) [] []
  | opening {new frame : F} {frames : List F} {header header' : Line} {rest rest' : List Line}
      (hheader : header.isDefinition) (hkept : kept header header')
      (h : Nested inside kept beyond (new :: frame :: frames) rest rest') :
      Nested inside kept beyond (frame :: frames) (header :: rest) (header' :: rest')
  | closing {frame : F} {frames : List F} {line line' : Line} {rest rest' : List Line}
      (hclosing : line.isClosing) (hline : inside frame line line')
      (h : Nested inside kept beyond frames rest rest') :
      Nested inside kept beyond (frame :: frames) (line :: rest) (line' :: rest')
  | line {frame : F} {frames : List F} {line line' : Line} {rest rest' : List Line}
      (hheader : line.isDefinition = false) (hclosing : line.isClosing = false)
      (hline : inside frame line line') (h : Nested inside kept beyond (frame :: frames) rest rest') :
      Nested inside kept beyond (frame :: frames) (line :: rest) (line' :: rest')

theorem isDefinition_of_isClosing (h : line.isClosing) :
    line.isDefinition = false := by
  cases hdefinition : line.isDefinition with
  | false => rfl
  | true => rw [isClosing_of_isDefinition hdefinition] at h; cases h

theorem Nested.forall₂ {R : Line → Line → Prop} {frames : List F}
    (h : Nested inside kept (Forall₂ kept) frames lines lines')
    (hinside : ∀ {frame line line'}, inside frame line line' → R line line')
    (hkept : ∀ {line line'}, kept line line' → R line line') : Forall₂ R lines lines' := by
  induction h with
  | beyond h => exact h.imp fun _ _ => hkept
  | nil => exact .nil
  | opening _ hheader _ ih => exact .cons (hkept hheader) ih
  | closing _ hline _ ih => exact .cons (hinside hline) ih
  | line _ _ hline _ ih => exact .cons (hinside hline) ih

/-- The lines of one function correspond as its frame tells. -/
theorem Nested.scopeLines (inner : List F) {frame : F} {outer : List F}
    (hinside : ∀ {frame line line'}, inside frame line line' → Alike line line')
    (hkept : ∀ {line line'}, kept line line' → Alike line line')
    (h : Nested inside kept beyond (inner ++ frame :: outer) lines lines') :
    Forall₂ (inside frame) (scopeLines (inner.length + 1) lines)
      (scopeLines (inner.length + 1) lines') := by
  generalize hframes : inner ++ frame :: outer = frames at h
  induction h generalizing inner with
  | beyond => simp at hframes
  | nil => exact .nil
  | @opening new _ _ _ _ _ _ hheader hline _ ih =>
    have hheader' := (hkept hline).isDefinition.trans hheader
    rw [scopeLines_opening hheader, scopeLines_opening hheader']
    exact ih (new :: inner) (congrArg (new :: ·) hframes)
  | closing hclosing hline _ ih =>
    have hheader := isDefinition_of_isClosing hclosing
    have hheader' := (hinside hline).isDefinition.trans hheader
    have hclosing' := (hinside hline).isClosing.trans hclosing
    cases inner with
    | nil =>
      cases hframes
      simpa [Pcode.scopeLines, nextDepth, hheader, hheader', hclosing, hclosing'] using hline
    | cons first inner =>
      cases hframes
      simpa [Pcode.scopeLines, nextDepth, hheader, hheader', hclosing, hclosing'] using ih inner rfl
  | line hheader hclosing hline _ ih =>
    have hheader' := (hinside hline).isDefinition.trans hheader
    have hclosing' := (hinside hline).isClosing.trans hclosing
    cases inner with
    | nil =>
      cases hframes
      simpa [Pcode.scopeLines, nextDepth, hheader, hheader', hclosing, hclosing'] using
        ⟨hline, ih [] rfl⟩
    | cons first inner =>
      cases hframes
      simpa [Pcode.scopeLines, nextDepth, hheader, hheader', hclosing, hclosing'] using
        ih (_ :: inner) rfl

end Nested

/-! ### Two texts -/

/-- Functions whose lines correspond have corresponding registers. -/
theorem registersOf_map {R : Line → Line → Prop} {f : String → String}
    (hR : ∀ {line line'}, R line line' → line'.registers = line.registers.map f ∧
      line'.stored? = line.stored?.map f) (h : Forall₂ R lines lines') :
    registersOf lines' = (registersOf lines).map f := by
  have hparts : lines'.filterMap Line.stored? = (lines.filterMap Line.stored?).map f ∧
      lines'.flatMap Line.registers = (lines.flatMap Line.registers).map f := by
    induction h with
    | nil => exact ⟨rfl, rfl⟩
    | @cons line _ _ _ hline _ ih =>
      rw [flatMap_cons, flatMap_cons, map_append, filterMap_cons, filterMap_cons, (hR hline).1,
        (hR hline).2, ih.1, ih.2]
      cases line.stored? <;> exact ⟨rfl, rfl⟩
  rw [registersOf, registersOf, map_append, hparts.1, hparts.2]

/-- A way for lines to correspond that numbering keeps. Lines in a function correspond as its frame
tells, and so do the numbers of its registers; a line that is numbered, or kept, is `kept` from one
text to the other. -/
structure Lockstep (F : Type) where
  inside : F → Line → Line → Prop
  kept : Line → Line → Prop
  numbers : F → (String → Nat) → (String → Nat) → Prop
  alike_inside {frame : F} {line line' : Line} (h : inside frame line line') : Alike line line'
  alike_kept {line line' : Line} (h : kept line line') : Alike line line'
  numberIn {frame : F} {own own' : List Line} (h : Forall₂ (inside frame) own own') :
    numbers frame (numberIn own) (numberIn own')
  numberRegisters {frame : F} {number number' : String → Nat} {line line' : Line}
    (hline : inside frame line line') (h : numbers frame number number') :
    kept (line.numberRegisters number) (line'.numberRegisters number')

namespace Lockstep

variable {F : Type} {run : Lockstep F} {frame : F} {header header' : Line}

/-- Lines in lockstep are numbered in lockstep. -/
theorem numberScopes {frames : List F} (numbers : List ((String → Nat) × (String → Nat)))
    (h : Nested run.inside run.kept (Forall₂ run.kept) frames lines lines')
    (hnumbers : Forall₂ (fun frame pair => run.numbers frame pair.1 pair.2) frames numbers) :
    Forall₂ run.kept (numberScopes (numbers.map Prod.fst) lines)
      (Pcode.numberScopes (numbers.map Prod.snd) lines') := by
  induction h generalizing numbers with
  | beyond h =>
    cases hnumbers
    rwa [map_nil, map_nil, numberScopes_nil, numberScopes_nil]
  | nil =>
    cases hnumbers
    exact .nil
  | opening hheader hkept h ih =>
    cases hnumbers with
    | cons hpair hnumbers =>
      have hheader' := (run.alike_kept hkept).isDefinition.trans hheader
      have hown := run.numberIn (h.scopeLines [] run.alike_inside run.alike_kept)
      simp only [map_cons, Pcode.numberScopes, openedAfter, hheader, hheader', if_true]
      exact .cons hkept (ih ((_, _) :: _ :: _) (.cons hown (.cons hpair hnumbers)))
  | closing hclosing hline _ ih =>
    cases hnumbers with
    | cons hpair hnumbers =>
      have hheader := isDefinition_of_isClosing hclosing
      have hheader' := (run.alike_inside hline).isDefinition.trans hheader
      have hclosing' := (run.alike_inside hline).isClosing.trans hclosing
      simp only [map_cons, Pcode.numberScopes, openedAfter, hheader, hheader', hclosing, hclosing',
        Bool.false_eq_true, if_false, if_true]
      exact .cons (run.numberRegisters hline hpair) (ih _ hnumbers)
  | line hheader hclosing hline _ ih =>
    cases hnumbers with
    | cons hpair hnumbers =>
      have hheader' := (run.alike_inside hline).isDefinition.trans hheader
      have hclosing' := (run.alike_inside hline).isClosing.trans hclosing
      simp only [map_cons, Pcode.numberScopes, openedAfter, hheader, hheader', hclosing, hclosing',
        Bool.false_eq_true, if_false]
      exact .cons (run.numberRegisters hline hpair) (ih (_ :: _) (.cons hpair hnumbers))

/-- The first function is numbered alike. -/
theorem numberText_definition (hheader : header.isDefinition) (hkept : run.kept header header')
    (h : Nested run.inside run.kept (Forall₂ run.kept) [frame] rest rest') :
    Forall₂ run.kept (numberText (header :: rest)) (numberText (header' :: rest')) := by
  have hown := run.numberIn (h.scopeLines [] run.alike_inside run.alike_kept)
  rw [numberText, numberText, if_pos hheader, if_pos ((run.alike_kept hkept).isDefinition.trans hheader)]
  exact .cons hkept (numberScopes [(_, _)] h (.cons hown .nil))

/-- Renumbering both keeps the correspondence, from before the first function to the end. -/
theorem renumberRegisters_nested {before before' : List Line}
    (hbefore : Forall₂ run.kept before before')
    (hplain : ∀ line ∈ before, line.isDefinition = false) (hheader : header.isDefinition)
    (hkept : run.kept header header')
    (h : Nested run.inside run.kept (Forall₂ run.kept) [frame] rest rest') :
    Outcomes (Forall₂ run.kept) (renumberRegisters (before ++ header :: rest))
      (renumberRegisters (before' ++ header' :: rest')) := by
  apply outcomes_of_alike
  · exact rel_append (hbefore.imp fun _ _ => run.alike_kept)
      (.cons (run.alike_kept hkept) (h.forall₂ run.alike_inside run.alike_kept))
  · induction hbefore with
    | nil => exact numberText_definition hheader hkept h
    | cons hline _ ih =>
      obtain ⟨hfirst, hothers⟩ := forall_mem_cons.1 hplain
      rw [cons_append, cons_append, numberText, numberText, hfirst,
        (run.alike_kept hline).isDefinition, hfirst]
      exact .cons hline (ih hothers)

/-- Lines that correspond one by one, in functions and outside, do so as nested functions. -/
theorem nested_of_forall₂ {R : Line → Line → Prop} (frame : F)
    (hinside : ∀ {line line'}, R line line' → run.inside frame line line')
    (hkept : ∀ {line line'}, R line line' → run.kept line line') (h : Forall₂ R lines lines')
    (depth : Nat) :
    Nested run.inside run.kept (Forall₂ run.kept) (List.replicate depth frame) lines lines' := by
  induction h generalizing depth with
  | nil =>
    cases depth with
    | zero => exact .beyond .nil
    | succ depth => exact .nil
  | @cons line line' rest rest' hline hrest ih =>
    cases depth with
    | zero => exact .beyond (.cons (hkept hline) (hrest.imp fun _ _ => hkept))
    | succ depth =>
      cases hheader : line.isDefinition with
      | true => exact .opening hheader (hkept hline) (ih (depth + 2))
      | false =>
        cases hclosing : line.isClosing with
        | true => exact .closing hclosing (hinside hline) (ih depth)
        | false => exact .line hheader hclosing (hinside hline) (ih (depth + 1))

theorem renumberRegisters_forall₂ {R : Line → Line → Prop} (frame : F)
    (hinside : ∀ {line line'}, R line line' → run.inside frame line line')
    (hkept : ∀ {line line'}, R line line' → run.kept line line') (h : Forall₂ R lines lines') :
    Outcomes (Forall₂ run.kept) (renumberRegisters lines) (renumberRegisters lines') := by
  apply outcomes_of_alike (h.imp fun _ _ hline => run.alike_kept (hkept hline))
  induction h with
  | nil => exact .nil
  | @cons line line' rest rest' hline hrest ih =>
    cases hheader : line.isDefinition with
    | true =>
      exact numberText_definition hheader (hkept hline) (nested_of_forall₂ frame hinside hkept hrest 1)
    | false =>
      rw [numberText, numberText, (run.alike_kept (hkept hline)).isDefinition, hheader]
      exact .cons (hkept hline) ih

end Lockstep

end MovieDiff.Pcode
