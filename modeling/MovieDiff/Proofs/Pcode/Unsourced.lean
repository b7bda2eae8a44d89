import MovieDiff.Proofs.Pcode.Reads

/-!
Source lines do not bear on the normal form. The steps that look for short sequences of lines, and
those that rewrite one line, give the same lines whatever the source lines are, up to these.
-/
namespace MovieDiff.Pcode

open List

def Line.unsourced (line : Line) : Line :=
  { line with sources := [] }

def Block.unsourced (block : Block) : Block :=
  { block with lines := block.lines.map Line.unsourced }

/-- A step whose outcome depends on source lines in its source lines only. -/
def IgnoresSources (pass : List Line → List Line) : Prop :=
  ∀ lines, (pass lines).map Line.unsourced = (pass (lines.map Line.unsourced)).map Line.unsourced

theorem unsourced_unsourced (line : Line) : line.unsourced.unsourced = line.unsourced := rfl

/-- Steps that ignore sources can be chained. -/
theorem IgnoresSources.comp {pass next : List Line → List Line} (hnext : IgnoresSources next)
    (hpass : IgnoresSources pass) : IgnoresSources (next ∘ pass) := by
  intro lines
  rw [Function.comp_apply, Function.comp_apply, hnext, hpass, ← hnext]

/-- Lines that differ in source lines only have outcomes that differ in source lines only. -/
theorem IgnoresSources.congr {pass : List Line → List Line} (h : IgnoresSources pass)
    {lines lines' : List Line} (hlines : lines'.map Line.unsourced = lines.map Line.unsourced) :
    (pass lines').map Line.unsourced = (pass lines).map Line.unsourced := by
  rw [h lines', hlines, ← h lines]

theorem ignoresSources_map {f : Line → Line}
    (h : ∀ line, (f line).unsourced = (f line.unsourced).unsourced) : IgnoresSources (List.map f) := by
  intro lines
  rw [map_map, map_map, map_map]
  exact map_congr_left fun line _ => h line

theorem unsourced_withOperands (line : Line) (operands : List Operand) :
    (line.withOperands operands).unsourced = line.unsourced.withOperands operands := by
  unfold Line.withOperands Line.unsourced
  cases hbody : line.body <;> simp [hbody]

theorem ignoresSources_emptyConstantPools : IgnoresSources emptyConstantPools := by
  refine ignoresSources_map fun line => ?_
  unfold emptyConstantPool
  by_cases hpool : line.hasOpcode "ConstantPool"
  · rw [if_pos hpool, if_pos (show line.unsourced.hasOpcode "ConstantPool" from hpool),
      unsourced_withOperands, unsourced_withOperands]
    rfl
  · rw [if_neg hpool, if_neg (show ¬ line.unsourced.hasOpcode "ConstantPool" from hpool)]
    rfl

theorem ignoresSources_zeroUrlMethods : IgnoresSources zeroUrlMethods := by
  refine ignoresSources_map fun line => ?_
  have hkeeps : ∀ line : Line, (zeroUrlMethod line).unsourced = zeroUrlMethod line.unsourced := by
    intro line
    unfold zeroUrlMethod
    simp only [Line.unsourced]
    split
    · split
      · exact unsourced_withOperands line _
      · rfl
    · rfl
  rw [hkeeps, hkeeps]
  rfl

/-- Negations are told without sources. -/
theorem ignoresSources_dropDoubleNots : IgnoresSources dropDoubleNots := by
  intro lines
  induction lines using dropDoubleNots.induct with
  | case1 current first second branch rest hdouble ih =>
    have hdouble' : isDoubleNot current.unsourced first.unsourced second.unsourced
        branch.unsourced := hdouble
    simp only [map_cons, dropDoubleNots, if_pos hdouble, if_pos hdouble', ih,
      unsourced_unsourced]
  | case2 current first second branch rest hdouble ih =>
    have hdouble' : ¬ isDoubleNot current.unsourced first.unsourced second.unsourced
        branch.unsourced := hdouble
    simp only [map_cons] at ih
    simp only [map_cons, dropDoubleNots, if_neg hdouble, if_neg hdouble', ih,
      unsourced_unsourced]
  | case3 line rest hshort ih =>
    rw [dropDoubleNots, map_cons, map_cons, dropDoubleNots, map_cons, ih,
      unsourced_unsourced]
    · intro first second branch rest' heq
      obtain ⟨first', rest₁, rfl, -, heq⟩ := map_eq_cons_iff.1 heq
      obtain ⟨second', rest₂, rfl, -, heq⟩ := map_eq_cons_iff.1 heq
      obtain ⟨branch', rest₃, rfl, -, -⟩ := map_eq_cons_iff.1 heq
      exact hshort _ _ _ _ rfl
    · exact hshort
  | case4 => rfl

theorem unsourced_unitStep (one step : Line) :
    (unitStep one.unsourced step.unsourced).unsourced = (unitStep one step).unsourced := rfl

theorem map_unsourced_foldUnitStepsFrom (previous : Option Line) (lines : List Line) :
    (foldUnitStepsFrom previous lines).map Line.unsourced =
      (foldUnitStepsFrom (previous.map Line.unsourced) (lines.map Line.unsourced)).map
        Line.unsourced := by
  have hnamed : ∀ (previous : Option Line) (get one step last : Line),
      isNamedStep (previous.map Line.unsourced) get.unsourced one.unsourced step.unsourced
        last.unsourced = isNamedStep previous get one step last := by
    intro previous get one step last
    cases previous <;> rfl
  induction previous, lines using foldUnitStepsFrom.induct with
  | case1 previous first one step last rest hstep ih =>
    have hstep' := hstep
    rw [← hnamed] at hstep'
    simp only [map_cons, foldUnitStepsFrom, if_pos hstep, ih]
    rw [if_pos (by exact hstep')]
    simp only [map_cons, unsourced_unsourced, unsourced_unitStep, Option.map_some]
  | case2 previous first one step last rest hstep ih =>
    have hstep' := hstep
    rw [← hnamed] at hstep'
    simp only [map_cons, Option.map_some] at ih
    simp only [map_cons, foldUnitStepsFrom, if_neg hstep, ih]
    rw [if_neg (by exact hstep')]
    simp only [map_cons, unsourced_unsourced]
  | case3 previous line rest hshort ih =>
    rw [foldUnitStepsFrom, map_cons, map_cons, foldUnitStepsFrom, map_cons, ih,
      unsourced_unsourced, Option.map_some]
    · intro one step last rest' heq
      obtain ⟨one', rest₁, rfl, -, heq⟩ := map_eq_cons_iff.1 heq
      obtain ⟨step', rest₂, rfl, -, heq⟩ := map_eq_cons_iff.1 heq
      obtain ⟨last', rest₃, rfl, -, -⟩ := map_eq_cons_iff.1 heq
      exact hshort _ _ _ _ rfl
    · exact hshort
  | case4 previous => rfl

theorem ignoresSources_foldUnitSteps : IgnoresSources foldUnitSteps :=
  map_unsourced_foldUnitStepsFrom none

theorem joinedPush?_unsourced (first second add : Line) :
    (joinedPush? first.unsourced second.unsourced add.unsourced).map Line.unsourced =
      (joinedPush? first second add).map Line.unsourced := by
  unfold joinedPush?
  rw [show first.unsourced.pushedString? = first.pushedString? from rfl,
    show second.unsourced.pushedString? = second.pushedString? from rfl,
    show add.unsourced.isBare "StringAdd" = add.isBare "StringAdd" from rfl,
    show second.unsourced.isUnlabelled = second.isUnlabelled from rfl,
    show add.unsourced.isUnlabelled = add.isUnlabelled from rfl]
  split
  · split <;> rfl
  · rfl

theorem ignoresSources_joinStrings : IgnoresSources joinStrings := by
  intro lines
  induction lines using joinStrings.induct with
  | case1 first second add rest joined hjoined ih =>
    have hboth := joinedPush?_unsourced first second add
    rw [hjoined, Option.map_some, Option.map_eq_some_iff] at hboth
    obtain ⟨joined', hjoined', hsame⟩ := hboth
    simp only [map_cons, joinStrings, hjoined, hjoined', ih, hsame]
  | case2 first second add rest hjoined ih =>
    have hboth := joinedPush?_unsourced first second add
    rw [hjoined, Option.map_none, Option.map_eq_none_iff] at hboth
    simp only [map_cons] at ih
    simp only [map_cons, joinStrings, hjoined, hboth, ih, unsourced_unsourced]
  | case3 line rest hshort ih =>
    rw [joinStrings, map_cons, map_cons, joinStrings, map_cons, ih,
      unsourced_unsourced]
    · intro second add rest' heq
      obtain ⟨second', rest₁, rfl, -, heq⟩ := map_eq_cons_iff.1 heq
      obtain ⟨add', rest₂, rfl, -, -⟩ := map_eq_cons_iff.1 heq
      exact hshort _ _ _ rfl
    · exact hshort
  | case4 => rfl

end MovieDiff.Pcode
