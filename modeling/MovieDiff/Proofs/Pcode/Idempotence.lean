import MovieDiff.Proofs.Pcode.Canonical
import MovieDiff.Proofs.Pcode.LabelOrder

/-!
What a second run changes. The steps that rewrite short sequences go over the lines once, so they
may leave, or make, a sequence that they would rewrite, and with the lines that they drop registers
may go. A normal form is its own normal form exactly when none of this has happened; its labels and
literals never change again.
-/
namespace MovieDiff.Pcode

open List

variable {line : Line} {lines rest out : List Line}

/-! ### Sequences that are rewritten -/

/-- No two negations are left that stand before a branch and could be dropped. -/
def NoDoubleNot (lines : List Line) : Prop :=
  ∀ current first second branch, [current, first, second, branch] <:+: lines →
    isDoubleNot current first second branch = false

/-- No step by one is left of a register, nor of a name that was just pushed; `previous` is the line
before the lines. -/
structure NoUnitStep (previous : Option Line) (lines : List Line) : Prop where
  register : ∀ push one step last, [push, one, step, last] <:+: lines →
    isRegisterStep push one step last = false
  named : ∀ name get one step last, [name, get, one, step, last] <:+: previous.toList ++ lines →
    isNamedStep (some name) get one step last = false

def NoConcatenation (lines : List Line) : Prop :=
  ∀ first second add, [first, second, add] <:+: lines → joinedPush? first second add = none

structure IsReduced (lines : List Line) : Prop where
  negations : NoDoubleNot lines
  steps : NoUnitStep none lines
  strings : NoConcatenation lines

/-- What a step does that leaves lines free of its pattern as they are and shortens all others. -/
def Shortens (free : Prop) (lines out : List Line) : Prop :=
  free ∧ out = lines ∨ ¬ free ∧ out.length < lines.length

theorem Shortens.length_le {free : Prop} (h : Shortens free lines out) :
    out.length ≤ lines.length := by
  rcases h with ⟨-, rfl⟩ | ⟨-, hlt⟩
  · exact le_rfl
  · exact Nat.le_of_lt hlt

/-- One step after the other: the second counts if the first leaves the lines as they are. -/
theorem Shortens.trans {free free' : Prop} {middle : List Line} (h : Shortens free lines middle)
    (h' : middle = lines → Shortens free' lines out) (hle : out.length ≤ middle.length) :
    Shortens (free ∧ free') lines out := by
  rcases h with ⟨hfree, heq⟩ | ⟨hnot, hlt⟩
  · rcases h' heq with ⟨hfree', rfl⟩ | ⟨hnot, hlt⟩
    · exact .inl ⟨⟨hfree, hfree'⟩, rfl⟩
    · exact .inr ⟨fun h => hnot h.2, hlt⟩
  · exact .inr ⟨fun h => hnot h.1, Nat.lt_of_le_of_lt hle hlt⟩

/-- Where no pattern starts, it is the rest that counts. -/
theorem Shortens.cons {free free' starts : Prop} (h : Shortens free' rest out)
    (hfree : free ↔ starts ∧ free') (hstarts : starts) (line : Line) :
    Shortens free (line :: rest) (line :: out) := by
  rcases h with ⟨hfree', rfl⟩ | ⟨hnot, hlt⟩
  · exact .inl ⟨hfree.2 ⟨hstarts, hfree'⟩, rfl⟩
  · exact .inr ⟨fun h => hnot (hfree.1 h).2, Nat.succ_lt_succ hlt⟩

theorem noDoubleNot_cons_iff :
    NoDoubleNot (line :: rest) ↔ (∀ first second branch, [first, second, branch] <+: rest →
      isDoubleNot line first second branch = false) ∧ NoDoubleNot rest := by
  unfold NoDoubleNot
  simp only [infix_cons_iff, cons_prefix_cons]
  constructor
  · intro h
    exact ⟨fun first second branch hinit => h line first second branch (.inl ⟨rfl, hinit⟩),
      fun current first second branch hwithin => h current first second branch (.inr hwithin)⟩
  · rintro ⟨hhead, hrest⟩ current first second branch (⟨rfl, hinit⟩ | hwithin)
    · exact hhead first second branch hinit
    · exact hrest current first second branch hwithin

/-- Double negations are dropped or absent. -/
theorem shortens_dropDoubleNots (lines : List Line) :
    Shortens (NoDoubleNot lines) lines (dropDoubleNots lines) := by
  induction lines using dropDoubleNots.induct with
  | case1 current first second branch rest hdouble ih =>
    have hlength := ih.length_le
    rw [dropDoubleNots, if_pos hdouble]
    refine .inr ⟨fun h => ?_, by simp only [length_cons]; omega⟩
    have hfalse := (noDoubleNot_cons_iff.1 h).1 first second branch (prefix_append _ rest)
    rw [hdouble] at hfalse
    cases hfalse
  | case2 current first second branch rest hdouble ih =>
    rw [dropDoubleNots, if_neg hdouble]
    refine ih.cons noDoubleNot_cons_iff ?_ current
    intro first' second' branch' hinit
    obtain ⟨more, hmore⟩ := hinit
    cases hmore
    exact Bool.eq_false_iff.2 hdouble
  | case3 line rest hshort ih =>
    rw [dropDoubleNots]
    · refine ih.cons noDoubleNot_cons_iff ?_ line
      intro first second branch hinit
      obtain ⟨more, hmore⟩ := hinit
      exact absurd hmore.symm (hshort first second branch more)
    · exact hshort
  | case4 => exact .inl ⟨by simp [NoDoubleNot], rfl⟩

theorem noConcatenation_cons_iff :
    NoConcatenation (line :: rest) ↔ (∀ second add, [second, add] <+: rest →
      joinedPush? line second add = none) ∧ NoConcatenation rest := by
  unfold NoConcatenation
  simp only [infix_cons_iff, cons_prefix_cons]
  constructor
  · intro h
    exact ⟨fun second add hinit => h line second add (.inl ⟨rfl, hinit⟩),
      fun first second add hwithin => h first second add (.inr hwithin)⟩
  · rintro ⟨hhead, hrest⟩ first second add (⟨rfl, hinit⟩ | hwithin)
    · exact hhead second add hinit
    · exact hrest first second add hwithin

/-- Strings are joined or stand alone. -/
theorem shortens_joinStrings (lines : List Line) :
    Shortens (NoConcatenation lines) lines (joinStrings lines) := by
  induction lines using joinStrings.induct with
  | case1 first second add rest joined hjoined ih =>
    have hlength := ih.length_le
    rw [joinStrings, hjoined]
    refine .inr ⟨fun h => ?_, by simp only [length_cons]; omega⟩
    have hnone := (noConcatenation_cons_iff.1 h).1 second add (prefix_append _ rest)
    rw [hjoined] at hnone
    cases hnone
  | case2 first second add rest hjoined ih =>
    rw [joinStrings, hjoined]
    refine ih.cons noConcatenation_cons_iff ?_ first
    intro second' add' hinit
    obtain ⟨more, hmore⟩ := hinit
    cases hmore
    exact hjoined
  | case3 line rest hshort ih =>
    rw [joinStrings]
    · refine ih.cons noConcatenation_cons_iff ?_ line
      intro second add hinit
      obtain ⟨more, hmore⟩ := hinit
      exact absurd hmore.symm (hshort second add more)
    · exact hshort
  | case4 => exact .inl ⟨by simp [NoConcatenation], rfl⟩

theorem noUnitStep_cons_iff {previous : Option Line} :
    NoUnitStep previous (line :: rest) ↔
      (∀ one step last, [one, step, last] <+: rest →
        (isRegisterStep line one step last || isNamedStep previous line one step last) = false) ∧
      NoUnitStep (some line) rest := by
  constructor
  · intro h
    constructor
    · intro one step last hinit
      have hhere : [line, one, step, last] <+: line :: rest := cons_prefix_cons.2 ⟨rfl, hinit⟩
      have hnamed : isNamedStep previous line one step last = false := by
        cases previous with
        | none => rfl
        | some name =>
          exact h.named name line one step last (cons_prefix_cons.2 ⟨rfl, hhere⟩).isInfix
      rw [h.register line one step last hhere.isInfix, hnamed]
      rfl
    · constructor
      · intro push one step last hwithin
        exact h.register push one step last (infix_cons hwithin)
      · intro name get one step last hwithin
        exact h.named name get one step last (hwithin.trans (suffix_append _ _).isInfix)
  · rintro ⟨hstarts, hrest⟩
    simp only [Bool.or_eq_false_iff] at hstarts
    constructor
    · intro push one step last hwithin
      rcases infix_cons_iff.1 hwithin with hinit | hwithin
      · obtain ⟨rfl, htail⟩ := cons_prefix_cons.1 hinit
        exact (hstarts one step last htail).1
      · exact hrest.register push one step last hwithin
    · intro name get one step last hwithin
      cases previous with
      | none => exact hrest.named name get one step last hwithin
      | some before =>
        rcases infix_cons_iff.1 hwithin with hinit | hwithin
        · obtain ⟨rfl, hget⟩ := cons_prefix_cons.1 hinit
          obtain ⟨rfl, htail⟩ := cons_prefix_cons.1 hget
          exact (hstarts one step last htail).2
        · exact hrest.named name get one step last hwithin

/-- Steps by one are folded or absent. -/
theorem shortens_foldUnitSteps (lines : List Line) :
    Shortens (NoUnitStep none lines) lines (foldUnitSteps lines) := by
  unfold foldUnitSteps
  generalize (none : Option Line) = previous
  induction previous, lines using foldUnitStepsFrom.induct with
  | case1 previous first one step last rest hstep ih =>
    have hlength := ih.length_le
    rw [foldUnitStepsFrom, if_pos hstep]
    refine .inr ⟨fun h => ?_, by simp only [length_cons]; omega⟩
    have hfalse := (noUnitStep_cons_iff.1 h).1 one step last (prefix_append _ rest)
    rw [hstep] at hfalse
    cases hfalse
  | case2 previous first one step last rest hstep ih =>
    rw [foldUnitStepsFrom, if_neg hstep]
    refine ih.cons noUnitStep_cons_iff ?_ first
    intro one' step' last' hinit
    obtain ⟨more, hmore⟩ := hinit
    cases hmore
    exact Bool.eq_false_iff.2 hstep
  | case3 previous line rest hshort ih =>
    rw [foldUnitStepsFrom]
    · refine ih.cons noUnitStep_cons_iff ?_ line
      intro one step last hinit
      obtain ⟨more, hmore⟩ := hinit
      exact absurd hmore.symm (hshort one step last more)
    · exact hshort
  | case4 previous =>
    refine .inl ⟨⟨by simp, ?_⟩, rfl⟩
    intro name get one step last hwithin
    have hlength := hwithin.length_le
    cases previous <;> simp at hlength

/-! ### The second run -/

theorem Line.IsCanonical.emptyConstantPool_eq_self (h : line.IsCanonical) :
    emptyConstantPool line = line := by
  unfold emptyConstantPool
  split
  next hpool =>
    obtain ⟨operands, hbody⟩ := exists_body_of_hasOpcode hpool
    have hcanonical := Line.spells_iff.1 h _ _ hbody
    have hoperands : line.operands = [.ofString ""] := by
      rw [Line.operands, hbody]
      exact hcanonical.pool rfl
    rw [← hoperands, withOperands_operands]
  · rfl

theorem Line.IsCanonical.zeroUrlMethod_eq_self (h : line.IsCanonical) :
    zeroUrlMethod line = line := by
  obtain ⟨sources, label, body⟩ := line
  cases body with
  | structural mark => rfl
  | labelOnly => rfl
  | instruction opcode operands =>
    rcases zeroUrlMethod_cases sources label opcode operands with
      ⟨hkept, -⟩ | ⟨first, second, method, rfl, rfl, hfirst, hsecond, hmethod, hset⟩
    · exact hkept
    · have hcanonical : Instruction.IsCanonical "GetURL2" [first, second, method] := h
      rw [hset, ← hcanonical.method rfl first second method rfl hfirst hsecond hmethod]

theorem isReduced_iff :
    IsReduced lines ↔ NoDoubleNot lines ∧ NoUnitStep none lines ∧ NoConcatenation lines :=
  ⟨fun h => ⟨h.negations, h.steps, h.strings⟩, fun h => ⟨h.1, h.2.1, h.2.2⟩⟩

/-- The last steps leave canonical lines as they are if none of their sequences is left, and shorten
them otherwise. -/
theorem shortens_lastSteps (h : ∀ line ∈ lines, line.IsCanonical) :
    Shortens (IsReduced lines) lines (zeroUrlMethods (joinStrings (emptyConstantPools
      (foldUnitSteps (dropDoubleNots lines))))) := by
  have hpools : emptyConstantPools lines = lines :=
    map_eq_self_iff.2 fun line hline => (h line hline).emptyConstantPool_eq_self
  have hmethods : zeroUrlMethods lines = lines :=
    map_eq_self_iff.2 fun line hline => (h line hline).zeroUrlMethod_eq_self
  have hjoined : ∀ lines : List Line,
      (zeroUrlMethods (joinStrings (emptyConstantPools lines))).length ≤ lines.length := by
    intro lines
    have hle := (shortens_joinStrings (emptyConstantPools lines)).length_le
    unfold zeroUrlMethods emptyConstantPools at *
    rw [length_map] at hle ⊢
    exact hle
  rw [isReduced_iff]
  apply (shortens_dropDoubleNots lines).trans
  · intro hnots
    rw [hnots]
    apply (shortens_foldUnitSteps lines).trans
    · intro hsteps
      rw [hsteps, hpools]
      rcases shortens_joinStrings lines with ⟨hfree, heq⟩ | ⟨hnot, hlt⟩
      · rw [heq, hmethods]
        exact .inl ⟨hfree, rfl⟩
      · refine .inr ⟨hnot, ?_⟩
        unfold zeroUrlMethods
        rwa [length_map]
    · exact hjoined _
  · exact (hjoined _).trans (shortens_foldUnitSteps _).length_le

theorem isCanonical_renumberRegisters (h : ∀ line ∈ lines, line.IsCanonical)
    (hrun : renumberRegisters lines = .ok out) : ∀ line ∈ out, line.IsCanonical :=
  spells_renumberRegisters Instruction.IsCanonical.store Instruction.IsCanonical.rename hrun h

theorem Line.IsCanonical.target_eq_ofSymbol (h : line.IsCanonical) :
    ∀ target ∈ line.body.target?, ∃ label, target = .ofSymbol label := by
  intro target htarget
  cases hbody : line.body with
  | structural mark =>
    rw [hbody] at htarget
    cases htarget
  | labelOnly =>
    rw [hbody] at htarget
    cases htarget
  | instruction opcode operands =>
    rw [hbody, Body.target?] at htarget
    split at htarget
    next hopcode => exact (Line.spells_iff.1 h _ _ hbody).target hopcode target htarget
    · cases htarget

/-- Canonical lines are prepared already. -/
theorem flatMap_prepare_eq_self (h : ∀ line ∈ lines, line.IsCanonical) :
    lines.flatMap prepare = lines := by
  have hplain : ∀ line ∈ lines, prepare line = [line] := by
    intro line hline
    apply prepare_of_isPlain
    apply Line.spells_iff.2
    intro opcode operands hbody
    exact (Line.spells_iff.1 (h line hline) opcode operands hbody).plain
  rw [flatMap_congr hplain, flatMap_singleton']

/-- On canonical lines with labels in order the first six steps renumber registers only. -/
theorem normalizeLines_eq_of_canonical (h : ∀ line ∈ lines, line.IsCanonical)
    (hlabels : LabelsInOrder lines) {numbered : List Line}
    (hrun : renumberRegisters lines = .ok numbered) :
    normalizeLines lines = .ok (zeroUrlMethods (joinStrings (emptyConstantPools
      (foldUnitSteps (dropDoubleNots numbered))))) := by
  have hlabels' := labelsInOrder_renumberRegisters hlabels hrun
  have hcanonical := isCanonical_renumberRegisters h hrun
  have htarget := fun line hline => (hcanonical line hline).target_eq_ofSymbol
  rw [normalizeLines_eq, plainHeaders_plainLiterals_splitPushes, flatMap_prepare_eq_self h, hrun,
    Except.map, dropUnusedLabels_eq_self hlabels', renumberLabels_eq_self hlabels' htarget]

/-- A normal form has canonical lines and labels in order. It has a normal form again, and prints as
that one prints exactly when its registers are in order and none of the sequences that are rewritten
is left in it; the two are then the same. -/
theorem normalizeBlock_again_iff {block normal : Block} (h : normalizeBlock block = .ok normal) :
    (∀ line ∈ normal.lines, line.IsCanonical) ∧ LabelsInOrder normal.lines ∧
      ∃ again, normalizeBlock normal = .ok again ∧
        (renderLines again.lines = renderLines normal.lines ↔
          RegistersInOrder normal.lines ∧ IsReduced normal.lines) ∧
        (renderLines again.lines = renderLines normal.lines → again = normal) := by
  have hlines := normalizeBlock_eq_ok h
  obtain ⟨hcanonical, hstores⟩ := isCanonical_normalizeLines hlines
  have hlabels := labelsInOrder_normalizeLines hlines
  obtain ⟨numbered, hrun, hkept, hprinted⟩ := exists_renumberRegisters hstores
  have hagain := normalizeLines_eq_of_canonical hcanonical hlabels hrun
  refine ⟨hcanonical, hlabels, _, by rw [normalizeBlock, hagain]; rfl, ?_⟩
  dsimp only
  rcases shortens_lastSteps (isCanonical_renumberRegisters hcanonical hrun) with
    ⟨hreduced, heq⟩ | ⟨hnot, hlt⟩
  · -- Nothing was dropped, so only a number can have changed.
    rw [heq]
    refine ⟨⟨fun hprint => ?_, fun hnormal => by rw [hkept.2 hnormal.1]⟩, fun hprint => ?_⟩
    · have hsame := hprinted hprint
      exact ⟨hkept.1 hsame, hsame ▸ hreduced⟩
    · rw [hprinted hprint]
  · -- Lines were dropped, which the number of lines tells.
    have hlength := (forall₂_renumberRegisters hrun).length_eq
    have hdiffer : ∀ lines : List Line, lines.length < numbered.length →
        renderLines lines ≠ renderLines normal.lines := by
      intro lines hless hprint
      have hsame := congrArg List.length hprint
      rw [renderLines, renderLines, List.length_map, List.length_map] at hsame
      omega
    refine ⟨⟨fun hprint => absurd hprint (hdiffer _ hlt), fun hnormal => ?_⟩,
      fun hprint => absurd hprint (hdiffer _ hlt)⟩
    rw [hkept.2 hnormal.1] at hnot
    exact absurd hnormal.2 hnot

/-- A function with a loop: it names registers and a label in no order, and a label that no jump
names. -/
def loopingFunction : Block :=
  ⟨"f", [⟨[0], none, .instruction "DefineFunction2" [.ofString "f", .ofNumeral "0", .ofNumeral "4"]⟩,
    ⟨[1], none, .instruction "Push" [.ofSymbol "register2", .ofNumeral "7.0"]⟩,
    ⟨[2], some "Top", .instruction "StoreRegister" [.ofNumeral "3"]⟩,
    ⟨[3], none, .instruction "Push" [.ofSymbol "register3", .ofSymbol "register2"]⟩,
    ⟨[4], none, .instruction "If" [.ofSymbol "TOP"]⟩,
    ⟨[5], some "spare", .instruction "Pop" []⟩,
    ⟨[6], none, .structural "\x7d"⟩]⟩

def loopingHeader : Line :=
  ⟨[0], none, .instruction "DefineFunction" [.ofString "f", .ofNumeral "0"]⟩

def loopingBody (stored other target : String) (top spare : Option String) : List Line :=
  [⟨[1], none, .instruction "Push" [.ofSymbol ("register" ++ other)]⟩,
    ⟨[1], none, .instruction "Push" [.ofNumeral "7"]⟩,
    ⟨[2], top, .instruction "StoreRegister" [.ofNumeral stored]⟩,
    ⟨[3], none, .instruction "Push" [.ofSymbol ("register" ++ stored)]⟩,
    ⟨[3], none, .instruction "Push" [.ofSymbol ("register" ++ other)]⟩,
    ⟨[4], none, .instruction "If" [.ofSymbol target]⟩,
    ⟨[5], spare, .instruction "Pop" []⟩,
    ⟨[6], none, .structural "\x7d"⟩]

def loopingNormal : Block :=
  ⟨"f", loopingHeader :: loopingBody "1" "2" "L0" (some "L0") none⟩

theorem normalizeBlock_loopingFunction :
    normalizeBlock loopingFunction = .ok loopingNormal ∧
      normalizeBlock loopingNormal = .ok loopingNormal :=
  ⟨eq_ok_of_toOption (by decide +kernel), eq_ok_of_toOption (by decide +kernel)⟩

theorem loopingFunction_again :
    normalizeBlock loopingFunction = .ok loopingNormal ∧
      normalizeBlock loopingNormal = .ok loopingNormal ∧
      (∀ line ∈ loopingNormal.lines, line.IsCanonical) ∧ LabelsInOrder loopingNormal.lines ∧
      RegistersInOrder loopingNormal.lines ∧ IsReduced loopingNormal.lines := by
  obtain ⟨hfirst, hsecond⟩ := normalizeBlock_loopingFunction
  obtain ⟨hcanonical, hlabels, again, hagain, hiff, -⟩ := normalizeBlock_again_iff hfirst
  rw [hsecond, Except.ok.injEq] at hagain
  obtain ⟨hregisters, hreduced⟩ := hiff.1 (by rw [hagain])
  exact ⟨hfirst, hsecond, hcanonical, hlabels, hregisters, hreduced⟩

def chainedStrings : Block :=
  ⟨"chain", [⟨[0], none, .instruction "Push" [.ofString "a"]⟩,
    ⟨[1], none, .instruction "Push" [.ofString "b"]⟩,
    ⟨[2], none, .instruction "StringAdd" []⟩,
    ⟨[3], none, .instruction "Push" [.ofString "c"]⟩,
    ⟨[4], none, .instruction "StringAdd" []⟩]⟩

/-- Each run joins two of them. -/
theorem chainedStrings_again :
    ∃ normal again : Block, normalizeBlock chainedStrings = .ok normal ∧
      normalizeBlock normal = .ok again ∧
      renderLines normal.lines = ["Push \"ab\"", "Push \"c\"", "StringAdd"] ∧
      renderLines again.lines = ["Push \"abc\""] := by
  refine ⟨_, _, rfl, rfl, ?_, ?_⟩
  · decide +kernel
  · decide +kernel

end MovieDiff.Pcode
