import Mathlib.Data.Set.Function
import Mathlib.Order.Interval.Set.Defs
import MovieDiff.Proofs.Pcode.Renumbering

/-!
Numbers for the registers of each scope. A stack of headers tells for each line of a text which
function is the innermost around it. Main statement: renumbering keeps the headers and all lines
outside the first function, and it numbers the registers of each function by one map of its own,
those that the function stores first.
-/
namespace MovieDiff.Pcode

open List

variable {line : Line} {lines : List Line} {scope : RegisterScope} {index header : Nat}
  {opened : List Nat}

/-! ### Numbers -/

/-- A numbering of registers from one on, one to one and in the order of their first appearance. -/
structure NumbersInOrder (registers : List String) (number : String → Nat) : Prop where
  bijOn : ∃ count, Set.BijOn number {register | register ∈ registers} (Set.Icc 1 count)
  ordered : ∀ register ∈ registers, ∀ other ∈ registers,
    registers.idxOf register < registers.idxOf other → number register < number other

namespace RegisterScope

/-- Numbers from one on, without a gap. -/
theorem bijOn_number (h : scope.Nodup) :
    Set.BijOn scope.number {register | register ∈ scope} (Set.Icc 1 scope.length) := by
  refine ⟨?_, ?_, ?_⟩
  · intro register hregister
    exact ⟨Nat.le_add_left 1 _, idxOf_lt_length_of_mem hregister⟩
  · intro register hregister other _ heq
    exact (number_inj hregister).1 heq
  · rintro n ⟨hpos, hle⟩
    have hlt : n - 1 < scope.length := by omega
    refine ⟨scope[n - 1], getElem_mem hlt, ?_⟩
    rw [number, h.idxOf_getElem, Nat.sub_add_cancel hpos]

/-- The registers that a scope holds come before those that it takes in later. -/
theorem number_lt_number {later : RegisterScope} {register other : String} (h : scope <+: later)
    (hmem : register ∈ scope) (hnot : other ∉ scope) :
    later.number register < later.number other := by
  obtain ⟨more, rfl⟩ := h
  rw [number, number, idxOf_append_of_mem hmem, idxOf_append_of_notMem hnot]
  have hlt := idxOf_lt_length_of_mem hmem
  omega

/-- What appears first has the lower number. -/
theorem number_addAll_lt {registers : List String} {register other : String}
    (hother : other ∈ registers) (h : registers.idxOf register < registers.idxOf other) :
    (addAll [] registers).number register < (addAll [] registers).number other := by
  -- Where the other register first appears, the scope holds the one and not the other.
  obtain ⟨before, after, rfl, hnot⟩ := eq_append_cons_of_mem hother
  have hregister : register ∈ before := by
    by_contra hregister
    rw [idxOf_append_of_notMem hregister, idxOf_append_of_notMem hnot, idxOf_cons_self] at h
    omega
  rw [addAll_append]
  refine number_lt_number (prefix_addAll _ _) (mem_addAll_iff.2 (.inr hregister)) ?_
  simpa [mem_addAll_iff] using hnot

end RegisterScope

theorem numbersInOrder_numberIn (own : List Line) :
    NumbersInOrder (registersOf own) (numberIn own) := by
  have hbijOn := RegisterScope.bijOn_number
    (@RegisterScope.nodup_addAll [] (registersOf own) nodup_nil)
  simp only [RegisterScope.mem_addAll_iff, not_mem_nil, false_or] at hbijOn
  exact ⟨⟨_, hbijOn⟩, fun _ _ _ hother => RegisterScope.number_addAll_lt hother⟩

/-! ### Places -/

/-- Where a line stands: outside the first function, at the head of a function, or inside one. The
innermost function around a line is told by the index of its header. -/
inductive Place where
  | outside
  | header
  | inside (header : Nat)
  deriving DecidableEq, Repr

/-- The places of the lines from an index on, with the headers of the functions that are open there.
Once none is open the first function is over. -/
def placesInside (index : Nat) : List Nat → List Line → List Place
  | _, [] => []
  | [], _ :: rest => .outside :: placesInside (index + 1) [] rest
  | header :: outer, line :: rest =>
    (if line.isDefinition then .header else .inside header) ::
      placesInside (index + 1) (openedAfter index line (header :: outer)) rest

def placesFrom (index : Nat) : List Line → List Place
  | [] => []
  | line :: rest =>
    if line.isDefinition then .header :: placesInside (index + 1) [index] rest
    else .outside :: placesFrom (index + 1) rest

def places (lines : List Line) : List Place :=
  placesFrom 0 lines

/-- The lines at the places inside a function, none of those of functions inside it. -/
def linesIn (header : Nat) (places : List Place) (lines : List Line) : List Line :=
  ((places.zip lines).filter fun entry => entry.1 = .inside header).map (·.2)

def scopeOf (lines : List Line) (header : Nat) : List Line :=
  linesIn header (places lines) lines

theorem linesIn_cons (header : Nat) (place : Place) (places : List Place) (line : Line)
    (lines : List Line) :
    linesIn header (place :: places) (line :: lines) =
      if place = .inside header then line :: linesIn header places lines
      else linesIn header places lines := by
  unfold linesIn
  rw [zip_cons_cons, filter_cons]
  split <;> simp_all

theorem notMem_openedAfter (hopened : header ∉ opened) (hheader : header ≠ index) :
    header ∉ openedAfter index line opened := by
  unfold openedAfter
  split
  · exact not_mem_cons_of_ne_of_not_mem hheader hopened
  · split
    · exact mt mem_of_mem_tail hopened
    · exact hopened

/-- A line is not inside a function that is not the innermost. -/
theorem place_ne {first : Nat} (h : header ≠ first) :
    (if line.isDefinition then Place.header else .inside first) ≠ .inside header := by
  split
  · simp
  · simpa using h.symm

/-- No line stands inside a function that is over. -/
theorem linesIn_eq_nil (hopened : header ∉ opened) (hheader : header < index) :
    linesIn header (placesInside index opened lines) lines = [] := by
  induction lines generalizing index opened with
  | nil => rfl
  | cons line rest ih =>
    cases opened with
    | nil =>
      rw [placesInside, linesIn_cons, if_neg (by simp)]
      exact ih not_mem_nil (by omega)
    | cons first outer =>
      rw [placesInside, linesIn_cons, if_neg (place_ne (ne_of_not_mem_cons hopened))]
      exact ih (notMem_openedAfter hopened (by omega)) (by omega)

/-- The lines inside a function that is open are those of its scope. -/
theorem linesIn_eq_scopeLines {inner outer : List Nat} (hinner : header ∉ inner)
    (houter : header ∉ outer) (hheader : header < index) :
    linesIn header (placesInside index (inner ++ header :: outer) lines) lines =
      scopeLines (1 + inner.length) lines := by
  induction lines generalizing index inner with
  | nil => cases inner <;> rfl
  | cons line rest ih =>
    cases inner with
    | nil =>
      rw [nil_append, placesInside, linesIn_cons, length_nil, openedAfter]
      cases hdefinition : line.isDefinition with
      | true =>
        rw [scopeLines_opening hdefinition]
        exact @ih (index + 1) [index] (by simpa using Nat.ne_of_lt hheader) (by omega)
      | false =>
        rw [scopeLines, nextDepth, hdefinition]
        cases hclosing : line.isClosing with
        | true => simp [linesIn_eq_nil houter (Nat.lt_succ_of_lt hheader)]
        | false => simpa using @ih (index + 1) [] not_mem_nil (by omega)
    | cons first inner =>
      have hne : first :: inner ≠ [] := cons_ne_nil first inner
      rw [cons_append, placesInside, linesIn_cons, if_neg (place_ne (ne_of_not_mem_cons hinner)),
        ← cons_append, openedAfter_append hne, scopeLines, if_neg (by simp),
        nextDepth_add (by simp), if_neg (by omega), nil_append,
        ih (notMem_openedAfter hinner (by omega)) (by omega), length_openedAfter]

/-- The function that a header opens has its scope in the lines after the header. -/
theorem linesIn_opening (hopened : index ∉ opened) (lines : List Line) :
    linesIn index (placesInside (index + 1) (index :: opened) lines) lines = scopeLines 1 lines :=
  @linesIn_eq_scopeLines lines _ _ [] opened not_mem_nil hopened (Nat.lt_succ_self index)

/-! ### Renumbering -/

def Line.renumberedAt (numbering : Nat → String → Nat) (place : Place) (line : Line) : Line :=
  match place with
  | .inside header => line.numberRegisters (numbering header)
  | _ => line

variable {numbering : Nat → String → Nat}

theorem openedAfter_map (hopened : index ∉ opened)
    (hnumbering : numbering index =
      numberIn (linesIn index (placesInside (index + 1) (openedAfter index line opened) lines) lines)) :
    openedAfter (numberIn (scopeLines 1 lines)) line (opened.map numbering) =
      (openedAfter index line opened).map numbering := by
  unfold openedAfter at hnumbering ⊢
  split
  next hdefinition =>
    rw [if_pos hdefinition, linesIn_opening hopened] at hnumbering
    rw [map_cons, hnumbering]
  · split
    · rw [map_tail]
    · rfl

/-- Each line has the numbers of the innermost function that is open. -/
theorem numberScopes_eq_zipWith (hopened : ∀ header, index ≤ header → header ∉ opened)
    (hnumbering : ∀ header, index ≤ header →
      numbering header = numberIn (linesIn header (placesInside index opened lines) lines)) :
    numberScopes (opened.map numbering) lines =
      zipWith (Line.renumberedAt numbering) (placesInside index opened lines) lines := by
  induction lines generalizing index opened with
  | nil => rw [zipWith_nil_right, numberScopes]
  | cons line rest ih =>
    cases opened with
    | nil =>
      have hrest := @ih (index + 1) [] (by simp) fun header hheader => by
        rw [hnumbering header (by omega), placesInside, linesIn_cons, if_neg (by simp)]
      rw [map_nil, numberScopes_nil] at hrest ⊢
      rw [placesInside, zipWith_cons_cons, ← hrest]
      rfl
    | cons header outer =>
      have hlater : ∀ inner, index ≤ inner → numbering inner = numberIn (linesIn inner
          (placesInside (index + 1) (openedAfter index line (header :: outer)) rest) rest) := by
        intro inner hinner
        rw [hnumbering inner hinner, placesInside, linesIn_cons,
          if_neg (place_ne (ne_of_not_mem_cons (hopened inner hinner)))]
      have hstack := openedAfter_map (hopened index (Nat.le_refl _)) (hlater index (Nat.le_refl _))
      rw [placesInside, zipWith_cons_cons, map_cons, numberScopes, ← map_cons, hstack,
        ih (fun inner hinner => notMem_openedAfter (hopened inner (by omega)) (by omega))
          fun inner hinner => hlater inner (by omega)]
      split <;> rfl

/-- Each line has the numbers of the innermost function around it. -/
theorem numberText_eq_zipWith (hnumbering : ∀ header, index ≤ header →
      numbering header = numberIn (linesIn header (placesFrom index lines) lines)) :
    numberText lines = zipWith (Line.renumberedAt numbering) (placesFrom index lines) lines := by
  induction lines generalizing index with
  | nil => rfl
  | cons line rest ih =>
    rw [numberText]
    unfold placesFrom at hnumbering ⊢
    split
    next hdefinition =>
      simp only [if_pos hdefinition, linesIn_cons, reduceCtorEq, if_false] at hnumbering
      have hindex := hnumbering index (Nat.le_refl _)
      rw [linesIn_opening not_mem_nil] at hindex
      rw [zipWith_cons_cons, ← hindex, ← numberScopes_eq_zipWith]
      · rfl
      · intro header hheader
        exact mt mem_singleton.1 (by omega)
      · exact fun header hheader => hnumbering header (by omega)
    next hdefinition =>
      simp only [if_neg hdefinition, linesIn_cons, reduceCtorEq, if_false] at hnumbering
      rw [zipWith_cons_cons, ← ih fun header hheader => hnumbering header (by omega)]
      rfl

/-- Each function has one numbering of its own. Renumbering succeeds exactly if every store in the
first function names its register. Then the headers and the lines outside the first function stay,
and every other line has its registers numbered as its innermost function numbers them: those that
the function stores come first. -/
theorem renumberRegisters_numbers_scopes (lines : List Line) :
    ((∃ out, renumberRegisters lines = .ok out) ↔ ∀ line ∈ firstBody lines, line.NamesStore) ∧
    ∀ out, renumberRegisters lines = .ok out →
      out.length = lines.length ∧
      (∀ i : Nat, (places lines)[i]? = some .outside ∨ (places lines)[i]? = some .header →
        out[i]? = lines[i]?) ∧
      ∀ header, ∃ number, NumbersInOrder (registersOf (scopeOf lines header)) number ∧
        ∀ (i : Nat) (line : Line), (places lines)[i]? = some (.inside header) →
          lines[i]? = some line → out[i]? = some (line.numberRegisters number) := by
  refine ⟨by simp [renumberRegisters_eq_ok_iff], fun out h => ?_⟩
  have hlength := (forall₂_renumberRegisters h).length_eq.symm
  obtain ⟨-, rfl⟩ := renumberRegisters_eq_ok_iff.1 h
  have hout : numberText lines = zipWith
      (Line.renumberedAt fun header => numberIn (scopeOf lines header)) (places lines) lines :=
    numberText_eq_zipWith fun _ _ => rfl
  refine ⟨hlength, ?_, ?_⟩
  · rintro i (hplace | hplace) <;>
      cases hline : lines[i]? <;> simp [hout, getElem?_zipWith, hplace, hline, Line.renumberedAt]
  · intro header
    refine ⟨_, numbersInOrder_numberIn (scopeOf lines header), ?_⟩
    intro i line hplace hline
    rw [hout, getElem?_zipWith, hplace, hline]
    rfl

/-- A function whose store has a register behind the one that it stores. -/
def storeBeforeRegister : List Line :=
  [⟨[0], none, .instruction "DefineFunction" [.ofString "f", .ofNumeral "0"]⟩,
    ⟨[1], none, .instruction "StoreRegister" [.ofNumeral "1", .ofSymbol "register5"]⟩,
    ⟨[2], none, .structural "\x7d"⟩]

/-- Behind the first operand of a store a register keeps its name, which no numbering of the two
registers from one to two would give it. -/
theorem renumberRegisters_keeps_second_operand :
    renumberRegisters storeBeforeRegister = .ok storeBeforeRegister ∧
      ∀ number : String → Nat, Set.MapsTo number {"1", "5"} (Set.Icc 1 2) →
        storeBeforeRegister[1]? ≠ some ⟨[1], none, .instruction "StoreRegister"
          [.ofNumeral (toString (number "1")), .ofSymbol ("register" ++ toString (number "5"))]⟩ := by
  refine ⟨renumberRegisters_eq_ok_iff.2 ⟨by decide +kernel, by decide +kernel⟩, ?_⟩
  intro number hnumber heq
  have hrange : number "5" = 1 ∨ number "5" = 2 := by
    have hfive : number "5" ∈ Set.Icc 1 2 := hnumber (by simp)
    have := hfive.1
    have := hfive.2
    omega
  simp only [storeBeforeRegister, getElem?_cons_succ, getElem?_cons_zero, Option.some.injEq,
    Line.mk.injEq, Body.instruction.injEq, cons.injEq] at heq
  have hname := heq.2.2.2.2.1
  rcases hrange with hfive | hfive <;> rw [hfive] at hname <;> exact absurd hname (by decide)

end MovieDiff.Pcode
