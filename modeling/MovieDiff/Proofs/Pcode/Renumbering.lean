import Mathlib.Data.List.Forall2
import MovieDiff.Proofs.Pcode.Scopes

/-!
Renumbering the registers of a text. The lines of a function determine the numbers of its registers
before any of them is renumbered, so a stack of numberings, one for each function that is open,
tells the outcome. Main statement: renumbering succeeds exactly if every store in the first function
names its register, and then it gives each line the numbers of the innermost function around it.
-/
namespace MovieDiff.Pcode

open List

variable {line : Line} {lines out : List Line} {scope : RegisterScope}
  {numbers : List (String → Nat)}

/-! ### Numbers of a text -/

/-- The registers of a function in the order of their numbers: those that its lines store, then all
that they name. -/
def registersOf (own : List Line) : List String :=
  own.filterMap Line.stored? ++ own.flatMap Line.registers

def numberIn (own : List Line) : String → Nat :=
  (RegisterScope.addAll [] (registersOf own)).number

theorem mem_registersOf {own : List Line} {register : String} :
    register ∈ registersOf own ↔ register ∈ own.flatMap Line.registers := by
  rw [registersOf, mem_append]
  refine or_iff_right_of_imp fun hregister => ?_
  obtain ⟨line, hline, hstored⟩ := mem_filterMap.1 hregister
  refine mem_flatMap.2 ⟨line, hline, ?_⟩
  unfold Line.stored? at hstored
  split at hstored
  next hstore =>
    rw [Line.registers, if_pos hstore, hstored]
    exact mem_singleton_self register
  · cases hstored

/-- The lines with their registers numbered, given the numbers of the functions that are open. -/
def numberScopes : List (String → Nat) → List Line → List Line
  | _, [] => []
  | [], line :: rest => line :: rest
  | number :: outer, line :: rest =>
    (if line.isDefinition then line else line.numberRegisters number) ::
      numberScopes (openedAfter (numberIn (scopeLines 1 rest)) line (number :: outer)) rest

def numberText : List Line → List Line
  | [] => []
  | line :: rest =>
    line :: if line.isDefinition then numberScopes [numberIn (scopeLines 1 rest)] rest
      else numberText rest

theorem numberScopes_nil (lines : List Line) : numberScopes [] lines = lines := by
  cases lines <;> rfl

theorem shape_numbered (number : String → Nat) (line : Line) :
    (if line.isDefinition then line else line.numberRegisters number).shape = line.shape := by
  split
  · rfl
  · exact shape_numberRegisters number line

/-- The innermost functions are left first, and then the others are open as before. -/
theorem numberScopes_append {inner : List (String → Nat)} (hinner : inner ≠ [])
    (outer : List (String → Nat)) (lines : List Line) :
    numberScopes (inner ++ outer) lines =
      numberScopes inner (untilClosed inner.length lines) ++
        numberScopes outer (afterClosed inner.length lines) := by
  induction lines generalizing inner with
  | nil => cases outer <;> cases inner <;> rfl
  | cons line rest ih =>
    obtain ⟨number, inner, rfl⟩ := exists_cons_of_ne_nil hinner
    rw [cons_append, numberScopes, ← cons_append, openedAfter_append hinner, untilClosed, afterClosed,
      ← length_openedAfter (numberIn (scopeLines 1 rest))]
    cases hopened : openedAfter (numberIn (scopeLines 1 rest)) line (number :: inner) with
    | nil => rfl
    | cons next others =>
      have hne : (next :: others).length ≠ 0 := by simp
      rw [if_neg hne, if_neg hne, numberScopes, length_cons, scopeLines_untilClosed Nat.one_pos,
        hopened, ih (cons_ne_nil next others)]
      rfl

/-- Nothing is numbered after the end of the first function. -/
theorem numberScopes_singleton (number : String → Nat) (lines : List Line) :
    numberScopes [number] lines =
      numberScopes [number] (untilClosed 1 lines) ++ afterClosed 1 lines := by
  have hparts := numberScopes_append (cons_ne_nil number []) [] lines
  rwa [append_nil, numberScopes_nil] at hparts

theorem numberScopes_definition (h : line.isDefinition) (number : String → Nat)
    (outer : List (String → Nat)) (rest : List Line) :
    numberScopes (number :: outer) (line :: rest) =
      line :: (numberScopes [numberIn (scopeLines 1 (untilClosed 1 rest))] (untilClosed 1 rest) ++
        numberScopes (number :: outer) (afterClosed 1 rest)) := by
  rw [numberScopes, if_pos h, openedAfter, if_pos h, scopeLines_untilClosed Nat.one_pos 0]
  exact congrArg _ (numberScopes_append (cons_ne_nil _ []) (number :: outer) rest)

theorem numberScopes_line {rest : List Line} (hheader : line.isDefinition = false)
    (hclosing : line.isClosing → rest = []) (number : String → Nat) :
    numberScopes [number] (line :: rest) =
      line.numberRegisters number :: numberScopes [number] rest := by
  rw [numberScopes, hheader, if_neg Bool.false_ne_true, openedAfter, hheader,
    if_neg Bool.false_ne_true]
  by_cases hlast : line.isClosing
  · rw [hclosing hlast]
    rfl
  · rw [if_neg hlast]

/-! ### Runs -/

def ifStoresNamed {α : Type} (lines : List Line) (result : α) : Except Fault α :=
  if ∀ line ∈ lines, line.NamesStore then .ok result else .error .missingOperand

variable {α : Type}

theorem ifStoresNamed_cons (line : Line) (lines : List Line) (result : α) :
    ifStoresNamed (line :: lines) result =
      if line.NamesStore then ifStoresNamed lines result else .error .missingOperand := by
  unfold ifStoresNamed
  by_cases hline : line.NamesStore <;> simp [hline]

theorem ifStoresNamed_bind {β γ : Type} (lines more : List Line) (first : α) (second : β)
    (f : α → β → γ) :
    (ifStoresNamed lines first >>= fun a => ifStoresNamed more second >>= fun b => .ok (f a b)) =
      ifStoresNamed (lines ++ more) (f first second) := by
  unfold ifStoresNamed
  simp only [forall_mem_append]
  by_cases hlines : ∀ line ∈ lines, line.NamesStore
  · by_cases hmore : ∀ line ∈ more, line.NamesStore
    · rw [if_pos hlines, if_pos hmore, if_pos ⟨hlines, hmore⟩]
      rfl
    · rw [if_pos hlines, if_neg hmore, if_neg (mt And.right hmore)]
      rfl
  · rw [if_neg hlines, if_neg (mt And.left hlines)]
    rfl

theorem namesStore_of_isDefinition (h : line.isDefinition) : line.NamesStore := by
  intro hstore
  rw [isDefinition_of_hasOpcode hstore (by decide) (by decide)] at h
  cases h

/-- The registers that a function stores enter its scope in their order. -/
theorem storesOf_eq (h : IsBody lines) (scope : RegisterScope) :
    storesOf scope lines = ifStoresNamed (scopeLines 1 lines)
      (scope.addAll ((scopeLines 1 lines).filterMap Line.stored?)) := by
  induction h generalizing scope with
  | nil =>
    rw [storesOf]
    rfl
  | @definition header rest hheader _ _ _ ih =>
    rw [storesOf, if_pos hheader, cutBody_eq hheader, ih, scopeLines_definition hheader]
  | @line line rest hheader hclosing _ ih =>
    rw [storesOf, hheader, if_neg Bool.false_ne_true, scopeLines_line hheader hclosing,
      ifStoresNamed_cons, filterMap_cons]
    cases hstore : line.hasOpcode "StoreRegister" with
    | true =>
      by_cases hnames : line.NamesStore
      · obtain ⟨stored, others, hoperands⟩ := exists_cons_of_ne_nil (hnames hstore)
        have hstored : line.stored? = some stored.spelling := by
          simp [Line.stored?, hstore, hoperands]
        rw [if_pos rfl, if_pos hnames, hstored, storedRegister, hoperands]
        exact ih (scope.add stored.spelling)
      · obtain ⟨-, hoperands⟩ := Classical.not_imp.1 hnames
        rw [if_pos rfl, if_neg hnames, storedRegister, not_not.1 hoperands]
        rfl
    | false =>
      have hnames : line.NamesStore := by simp [Line.NamesStore, hstore]
      have hstored : line.stored? = none := by simp [Line.stored?, hstore]
      rw [if_neg Bool.false_ne_true, if_pos hnames, hstored]
      exact ih scope

/-- A body is renumbered in the scope of what it stores. -/
theorem renumberBody_of_renumberIn (h : IsBody lines)
    (hin : ∀ scope, renumberIn scope lines = ifStoresNamed lines
      (numberScopes [(scope.addAll ((scopeLines 1 lines).flatMap Line.registers)).number] lines)) :
    renumberBody lines =
      ifStoresNamed lines (numberScopes [numberIn (scopeLines 1 lines)] lines) := by
  rw [renumberBody, storesOf_eq h, numberIn, registersOf, RegisterScope.addAll_append, ← hin]
  by_cases hown : ∀ line ∈ scopeLines 1 lines, line.NamesStore
  · rw [ifStoresNamed, if_pos hown]
    rfl
  · rw [hin, ifStoresNamed, if_neg hown, ifStoresNamed, if_neg fun hall => hown fun line hline =>
      hall line (mem_of_mem_scopeLines hline)]
    rfl

/-- Each line of a body is renumbered as the scope of all its registers numbers them. -/
theorem renumberIn_eq (h : IsBody lines) (scope : RegisterScope) :
    renumberIn scope lines = ifStoresNamed lines
      (numberScopes [(scope.addAll ((scopeLines 1 lines).flatMap Line.registers)).number] lines) := by
  induction h generalizing scope with
  | nil =>
    rw [renumberIn]
    rfl
  | @definition header rest hheader hinner hafter ihinner ihafter =>
    have hparts : renumberIn scope (header :: rest) =
        renumberBody (untilClosed 1 rest) >>= fun inner =>
          renumberIn scope (afterClosed 1 rest) >>= fun outer =>
            .ok (header :: (inner ++ outer)) := by
      rw [renumberIn, if_pos hheader, cutBody_eq hheader]
      rfl
    rw [hparts, renumberBody_of_renumberIn hinner ihinner, ihafter, ifStoresNamed_bind,
      untilClosed_append_afterClosed, scopeLines_definition hheader,
      numberScopes_definition hheader, ifStoresNamed_cons, if_pos (namesStore_of_isDefinition hheader)]
  | @line line rest hheader hclosing hrest ih =>
    rw [renumberIn, hheader, if_neg Bool.false_ne_true, renumberLine_eq, ifStoresNamed_cons,
      scopeLines_line hheader hclosing, numberScopes_line hheader hclosing, flatMap_cons,
      RegisterScope.addAll_append]
    by_cases hnames : line.NamesStore
    · -- A register keeps the number with which it has entered the scope.
      have hline := numberRegisters_congr fun register hregister =>
        RegisterScope.number_of_isPrefix
          (RegisterScope.prefix_addAll (scope.addAll line.registers)
            ((scopeLines 1 rest).flatMap Line.registers))
          (RegisterScope.mem_addAll_iff.2 (.inr hregister))
      rw [if_pos hnames, if_pos hnames, hline]
      change (renumberIn (scope.addAll line.registers) rest >>= fun others => .ok (_ :: others)) = _
      rw [ih]
      unfold ifStoresNamed
      split <;> rfl
    · rw [if_neg hnames, if_neg hnames]
      rfl

/-- Lines before the first function stay. -/
theorem renumberRegisters_cons (h : line.isDefinition = false) (rest : List Line) :
    renumberRegisters (line :: rest) = (renumberRegisters rest).map (line :: ·) := by
  have hdrop : (line :: rest).dropWhile (!·.isDefinition) = rest.dropWhile (!·.isDefinition) :=
    dropWhile_cons_of_pos (by rw [h]; rfl)
  have htake : (line :: rest).takeWhile (!·.isDefinition) =
      line :: rest.takeWhile (!·.isDefinition) :=
    takeWhile_cons_of_pos (by rw [h]; rfl)
  unfold renumberRegisters
  rw [hdrop, htake]
  cases rest.dropWhile (!·.isDefinition) with
  | nil => rfl
  | cons header after =>
    cases hbody : renumberBody (cutBody header after).1 with
    | error fault => simp only [hbody]; rfl
    | ok body => simp only [hbody]; rfl

theorem renumberRegisters_definition (h : line.isDefinition) (rest : List Line) :
    renumberRegisters (line :: rest) = renumberBody (untilClosed 1 rest) >>= fun body =>
      .ok (line :: (body ++ afterClosed 1 rest)) := by
  unfold renumberRegisters
  rw [dropWhile_cons_of_neg (by rw [h]; decide), takeWhile_cons_of_neg (by rw [h]; decide)]
  dsimp only
  rw [cutBody_eq h]
  rfl

/-- Renumbering gives each line of the first function the numbers of its innermost function. -/
theorem renumberRegisters_eq (lines : List Line) :
    renumberRegisters lines = ifStoresNamed (firstBody lines) (numberText lines) := by
  induction lines with
  | nil => rfl
  | cons line rest ih =>
    rw [firstBody, numberText]
    cases hheader : line.isDefinition with
    | true =>
      have hbody := isBody_untilClosed rest
      rw [renumberRegisters_definition hheader, renumberBody_of_renumberIn hbody (renumberIn_eq hbody),
        scopeLines_untilClosed Nat.one_pos 0, if_pos rfl, if_pos rfl, cutBody_eq hheader,
        numberScopes_singleton _ rest]
      unfold ifStoresNamed
      split <;> rfl
    | false =>
      rw [renumberRegisters_cons hheader, ih, if_neg Bool.false_ne_true, if_neg Bool.false_ne_true]
      unfold ifStoresNamed
      split <;> rfl

/-- When renumbering succeeds, and to what. -/
theorem renumberRegisters_eq_ok_iff : renumberRegisters lines = .ok out ↔
    (∀ line ∈ firstBody lines, line.NamesStore) ∧ numberText lines = out := by
  rw [renumberRegisters_eq, ifStoresNamed]
  by_cases hnames : ∀ line ∈ firstBody lines, line.NamesStore
  · rw [if_pos hnames, Except.ok.injEq, and_iff_right hnames]
  · rw [if_neg hnames]
    exact ⟨nofun, fun h => absurd h.1 hnames⟩

/-! ### Line by line -/

/-- A line that stays, or one with `p` whose registers are numbered. -/
def IsNumbering (p : Line → Prop) (line out : Line) : Prop :=
  out = line ∨ p line ∧ ∃ number, out = line.numberRegisters number

variable {p : Line → Prop}

theorem IsNumbering.exists_withOperands {out : Line} (h : IsNumbering p line out) :
    ∃ operands, out = line.withOperands operands := by
  rcases h with rfl | ⟨-, number, rfl⟩
  · exact ⟨out.operands, (withOperands_operands out).symm⟩
  · exact exists_withOperands_numberRegisters number line

theorem forall₂_numberScopes (numbers : List (String → Nat))
    (h : numbers ≠ [] → ∀ line ∈ untilClosed numbers.length lines, p line) :
    Forall₂ (IsNumbering p) lines (numberScopes numbers lines) := by
  induction lines generalizing numbers with
  | nil => cases numbers <;> exact .nil
  | cons line rest ih =>
    cases numbers with
    | nil => exact forall₂_same.2 fun _ _ => .inl rfl
    | cons number outer =>
      have hlines := h (cons_ne_nil number outer)
      rw [untilClosed, ← length_openedAfter (numberIn (scopeLines 1 rest))] at hlines
      rw [numberScopes]
      refine .cons ?_ (ih _ fun hopened => ?_)
      · split
        · exact .inl rfl
        · refine .inr ⟨hlines line ?_, number, rfl⟩
          split <;> exact mem_cons_self
      · rw [if_neg (mt length_eq_zero_iff.1 hopened)] at hlines
        exact fun line' hline' => hlines line' (mem_cons_of_mem line hline')

/-- Numbering keeps every line. -/
theorem length_numberScopes (numbers : List (String → Nat)) (lines : List Line) :
    (numberScopes numbers lines).length = lines.length :=
  (forall₂_numberScopes (p := fun _ => True) numbers fun _ _ _ => trivial).length_eq.symm

theorem forall₂_numberText (h : ∀ line ∈ firstBody lines, p line) :
    Forall₂ (IsNumbering p) lines (numberText lines) := by
  induction lines with
  | nil => exact .nil
  | cons line rest ih =>
    rw [numberText]
    refine .cons (.inl rfl) ?_
    rw [firstBody] at h
    split
    next hheader =>
      rw [if_pos hheader, cutBody_eq hheader] at h
      exact forall₂_numberScopes _ fun _ => h
    next hheader =>
      rw [if_neg hheader] at h
      exact ih h

/-- Renumbering keeps the number of lines and goes through them one by one. -/
theorem forall₂_renumberRegisters (h : renumberRegisters lines = .ok out) :
    Forall₂ (IsNumbering Line.NamesStore) lines out := by
  obtain ⟨hnames, rfl⟩ := renumberRegisters_eq_ok_iff.1 h
  exact forall₂_numberText hnames

end MovieDiff.Pcode
