import MovieDiff.Proofs.Pcode.Numbering

/-!
The scopes of functions. The body of a function ends with the line that closes the last of the
functions that are open, so counting the functions that are open is all that it takes to cut bodies
out, and to find the lines that a function has to itself.
-/
namespace MovieDiff.Pcode

open List

variable {line header : Line} {lines rest : List Line} {base depth : Nat}

/-! ### Ends of functions -/

def Line.shape (line : Line) : Bool × Bool :=
  (line.isDefinition, line.isClosing)

theorem shape_withOperands (operands : List Operand) :
    (line.withOperands operands).shape = line.shape := by
  unfold Line.shape
  rw [isDefinition_withOperands, isClosing_withOperands]

theorem shape_numberRegisters (number : String → Nat) (line : Line) :
    (line.numberRegisters number).shape = line.shape := by
  obtain ⟨operands, hline⟩ := exists_withOperands_numberRegisters number line
  rw [hline, shape_withOperands]

theorem nextDepth_of_shape {line' : Line} (h : line'.shape = line.shape) (depth : Nat) :
    nextDepth depth line' = nextDepth depth line := by
  obtain ⟨hdefinition, hclosing⟩ := Prod.mk.inj h
  unfold nextDepth
  rw [hdefinition, hclosing]

theorem nextDepth_add (hdepth : 0 < depth) (line : Line) :
    nextDepth (base + depth) line = base + nextDepth depth line := by
  unfold nextDepth
  split
  · omega
  · split <;> omega

/-- A body is cut out where the function is closed. -/
theorem cutBody_eq (h : header.isDefinition) (rest : List Line) :
    cutBody header rest = (untilClosed 1 rest, afterClosed 1 rest) := by
  rw [cutBody, cutFunction_eq h]
  rfl

theorem untilClosed_untilClosed (hdepth : 0 < depth) (base : Nat) (lines : List Line) :
    untilClosed depth (untilClosed (base + depth) lines) = untilClosed depth lines := by
  induction lines generalizing depth with
  | nil => rfl
  | cons line rest ih =>
    by_cases hzero : nextDepth depth line = 0
    · rw [untilClosed]
      split <;> simp [untilClosed, hzero]
    · rw [untilClosed, nextDepth_add hdepth, if_neg (by omega), untilClosed, if_neg hzero,
        untilClosed, if_neg hzero, ih (Nat.pos_of_ne_zero hzero)]

theorem afterClosed_untilClosed (hbase : 0 < base) (hdepth : 0 < depth) (lines : List Line) :
    afterClosed depth (untilClosed (base + depth) lines) =
      untilClosed base (afterClosed depth lines) := by
  induction lines generalizing depth with
  | nil => rfl
  | cons line rest ih =>
    rw [untilClosed, nextDepth_add hdepth, if_neg (by omega), afterClosed, afterClosed]
    split
    next hzero => rw [hzero, Nat.add_zero]
    next hopen => exact ih (Nat.pos_of_ne_zero hopen)

/-- What the body of a function is made of: functions inside it with what comes after each, and
lines, of which only the last may close the function. -/
inductive IsBody : List Line → Prop
  | nil : IsBody []
  | definition {header : Line} {rest : List Line} (hheader : header.isDefinition)
      (hinner : IsBody (untilClosed 1 rest)) (hafter : IsBody (afterClosed 1 rest)) :
      IsBody (header :: rest)
  | line {line : Line} {rest : List Line} (hheader : line.isDefinition = false)
      (hclosing : line.isClosing → rest = []) (hrest : IsBody rest) : IsBody (line :: rest)

/-- Lines up to the closing brace are a body. -/
theorem isBody_untilClosed (lines : List Line) : IsBody (untilClosed 1 lines) := by
  -- The body of a function inside is cut out first, so the induction is on the number of lines.
  induction hn : lines.length using Nat.strong_induction_on generalizing lines with
  | _ n ih =>
    cases lines with
    | nil => exact .nil
    | cons line rest =>
      rw [length_cons] at hn
      have hparts := congrArg List.length (untilClosed_append_afterClosed 1 rest)
      rw [length_append] at hparts
      rw [untilClosed, nextDepth]
      cases hheader : line.isDefinition with
      | true =>
        rw [if_pos rfl, if_neg (by omega)]
        refine .definition hheader ?_ ?_
        · rw [untilClosed_untilClosed Nat.one_pos]
          exact ih _ (by omega) _ rfl
        · rw [afterClosed_untilClosed Nat.one_pos Nat.one_pos]
          exact ih _ (by omega) _ rfl
      | false =>
        rw [if_neg Bool.false_ne_true]
        cases hclosing : line.isClosing with
        | true => exact .line hheader (fun _ => rfl) .nil
        | false => exact .line hheader (by simp [hclosing]) (ih _ (by omega) _ rfl)

def firstBody : List Line → List Line
  | [] => []
  | line :: rest => if line.isDefinition then (cutBody line rest).1 else firstBody rest

/-! ### Lines that keep the shape of functions -/

variable {out : List Line} {p q : Line → Prop}

/-- The second lines stand for lines among the first in their order, each of the same shape and with
`q` if the line that it stands for has `p`. Only lines that neither open nor close a function are
left out. -/
inductive Refines (p q : Line → Prop) : List Line → List Line → Prop
  | nil : Refines p q [] []
  | keep {line line' : Line} {rest rest' : List Line} (hshape : line'.shape = line.shape)
      (hline : p line → q line') (hrest : Refines p q rest rest') :
      Refines p q (line :: rest) (line' :: rest')
  | drop {line : Line} {rest out : List Line} (hshape : line.shape = (false, false))
      (hrest : Refines p q rest out) : Refines p q (line :: rest) out

theorem Refines.forall (h : Refines p q lines out) (hlines : ∀ line ∈ lines, p line) :
    ∀ line ∈ out, q line := by
  induction h with
  | nil => simp
  | keep _ hline _ ih =>
    rw [forall_mem_cons] at hlines ⊢
    exact ⟨hline hlines.1, ih hlines.2⟩
  | drop _ _ ih => exact ih (forall_mem_cons.1 hlines).2

/-- Refined lines close where the others do. -/
theorem Refines.untilClosed (h : Refines p q lines out) {depth : Nat} (hdepth : 0 < depth) :
    Refines p q (Pcode.untilClosed depth lines) (Pcode.untilClosed depth out) := by
  induction h generalizing depth with
  | nil => exact .nil
  | keep hshape hline _ ih =>
    rw [Pcode.untilClosed, Pcode.untilClosed, nextDepth_of_shape hshape]
    split
    · exact .keep hshape hline .nil
    next hopen => exact .keep hshape hline (ih (Nat.pos_of_ne_zero hopen))
  | @drop line rest out hshape _ ih =>
    obtain ⟨hdefinition, hclosing⟩ := Prod.mk.inj hshape
    have hnext : nextDepth depth line = depth := by
      unfold nextDepth
      rw [hdefinition, hclosing]
      rfl
    rw [Pcode.untilClosed, hnext, if_neg (Nat.ne_of_gt hdepth)]
    exact .drop hshape (ih hdepth)

theorem Refines.firstBody (h : Refines p q lines out) :
    Refines p q (Pcode.firstBody lines) (Pcode.firstBody out) := by
  induction h with
  | nil => exact .nil
  | @keep line line' rest rest' hshape _ hrest ih =>
    have hdefinition : line'.isDefinition = line.isDefinition := (Prod.mk.inj hshape).1
    rw [Pcode.firstBody, Pcode.firstBody, hdefinition]
    split
    next hheader =>
      rw [cutBody_eq hheader, cutBody_eq (by rw [hdefinition, hheader])]
      exact hrest.untilClosed Nat.one_pos
    · exact ih
  | drop hshape _ ih =>
    rw [Pcode.firstBody, (Prod.mk.inj hshape).1, if_neg Bool.false_ne_true]
    exact ih

/-! ### Scopes -/

/-- The lines of the outermost of the functions that are open, without the functions inside it. -/
def scopeLines (depth : Nat) : List Line → List Line
  | [] => []
  | line :: rest =>
    (if depth = 1 ∧ line.isDefinition = false then [line] else []) ++
      if nextDepth depth line = 0 then [] else scopeLines (nextDepth depth line) rest

theorem mem_of_mem_scopeLines (h : line ∈ scopeLines depth lines) : line ∈ lines := by
  induction lines generalizing depth with
  | nil => cases h
  | cons first rest ih =>
    rw [scopeLines, mem_append] at h
    rcases h with h | h
    · split at h
      · exact mem_singleton.1 h ▸ mem_cons_self
      · cases h
    · split at h
      · cases h
      · exact mem_cons_of_mem first (ih h)

/-- Functions inside are passed over. -/
theorem scopeLines_add (hbase : 0 < base) (hdepth : 0 < depth) (lines : List Line) :
    scopeLines (base + depth) lines = scopeLines base (afterClosed depth lines) := by
  induction lines generalizing depth with
  | nil => rfl
  | cons line rest ih =>
    rw [scopeLines, if_neg (by omega), nextDepth_add hdepth, if_neg (by omega), afterClosed,
      nil_append]
    split
    next hzero => rw [hzero, Nat.add_zero]
    next hopen => exact ih (Nat.pos_of_ne_zero hopen)

/-- A function has no lines beyond its end. -/
theorem scopeLines_untilClosed (hdepth : 0 < depth) (base : Nat) (lines : List Line) :
    scopeLines depth (untilClosed (base + depth) lines) = scopeLines depth lines := by
  induction lines generalizing depth with
  | nil => rfl
  | cons line rest ih =>
    by_cases hzero : nextDepth depth line = 0
    · rw [untilClosed]
      split <;> simp [scopeLines, hzero]
    · rw [untilClosed, nextDepth_add hdepth, if_neg (by omega), scopeLines, if_neg hzero,
        scopeLines, if_neg hzero, ih (Nat.pos_of_ne_zero hzero)]

theorem scopeLines_opening (h : header.isDefinition) (rest : List Line) :
    scopeLines depth (header :: rest) = scopeLines (depth + 1) rest := by
  rw [scopeLines, if_neg (by simp [h]), nextDepth, if_pos h, if_neg (by omega), nil_append]

theorem scopeLines_definition (h : header.isDefinition) (rest : List Line) :
    scopeLines 1 (header :: rest) = scopeLines 1 (afterClosed 1 rest) := by
  rw [scopeLines_opening h, scopeLines_add Nat.one_pos Nat.one_pos]

theorem scopeLines_line (hheader : line.isDefinition = false) (hclosing : line.isClosing → rest = []) :
    scopeLines 1 (line :: rest) = line :: scopeLines 1 rest := by
  rw [scopeLines, if_pos ⟨rfl, hheader⟩, nextDepth, hheader, if_neg Bool.false_ne_true]
  by_cases hlast : line.isClosing
  · rw [hclosing hlast, if_pos hlast]
    rfl
  · rw [if_neg hlast]
    rfl

/-! ### Open functions -/

variable {α : Type} {inner : List α}

/-- The functions that are open after a line, the innermost first. -/
def openedAfter (new : α) (line : Line) (opened : List α) : List α :=
  if line.isDefinition then new :: opened
  else if line.isClosing then opened.tail else opened

theorem length_openedAfter (new : α) (line : Line) (opened : List α) :
    (openedAfter new line opened).length = nextDepth opened.length line := by
  unfold openedAfter nextDepth
  split
  · rfl
  · split
    · exact length_tail
    · rfl

theorem openedAfter_append (h : inner ≠ []) (new : α) (line : Line) (outer : List α) :
    openedAfter new line (inner ++ outer) = openedAfter new line inner ++ outer := by
  unfold openedAfter
  split
  · rfl
  · split
    · exact tail_append_of_ne_nil h
    · rfl

end MovieDiff.Pcode
