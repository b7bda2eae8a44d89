import Mathlib
import MovieDiff.Proofs.Text.Characters
import MovieDiff.Workspace

/-!
Source maps come back from their text. A source map is an array of arrays of numbers; each value is
read up to the place where it ends, whatever comes next.
-/
namespace MovieDiff

open List

namespace Text.Json

variable {rest : List Char} {c : Char} (n : Int)

/-! ### Numbers -/

/-- A text that does not go on with a number. -/
def EndsNumber (rest : List Char) : Prop :=
  ∀ c ∈ rest.head?, isDecimal c = false ∧ c ≠ '.' ∧ c ≠ 'e' ∧ c ≠ 'E'

theorem readFraction_of_endsNumber (h : EndsNumber rest) : readFraction rest = ([], rest) := by
  unfold readFraction
  split
  next tail => exact absurd rfl (h '.' rfl).2.1
  · rfl

theorem readExponent_of_endsNumber (h : EndsNumber rest) : readExponent rest = ([], rest) := by
  cases rest with
  | nil => rfl
  | cons c tail =>
    obtain ⟨-, -, hsmall, hcapital⟩ := h c rfl
    simp [readExponent, hsmall, hcapital]

theorem isDecimal_of_mem_toDigits {n : Nat} (h : c ∈ Nat.toDigits 10 n) : isDecimal c := by
  have hdigit := Nat.isDigit_of_mem_toDigits (by decide) (by decide) h
  simp only [Char.isDigit, ge_iff_le, Bool.and_eq_true, decide_eq_true_eq] at hdigit
  simp only [isDecimal, Bool.and_eq_true, decide_eq_true_eq]
  exact hdigit

/-- No positive number is written with a zero in front. -/
theorem head?_toDigits_ne_zero {n : Nat} (h : n ≠ 0) : (Nat.toDigits 10 n).head? ≠ some '0' := by
  induction n using Nat.strong_induction_on with
  | _ n ih =>
    by_cases hlt : n < 10
    · rw [Nat.toDigits_of_lt_base hlt, head?_cons]
      intro heq
      have hall : ∀ m, m < 10 → m ≠ 0 → m.digitChar ≠ '0' := by decide
      exact hall n hlt h (Option.some.inj heq)
    · rw [Nat.toDigits_of_base_le (by decide) (by omega),
        head?_append_of_ne_nil _ Nat.toDigits_ne_nil]
      exact ih (n / 10) (by omega) (by omega)

theorem readWhole?_toDigits (n : Nat) (h : EndsNumber rest) :
    readWhole? (Nat.toDigits 10 n ++ rest) = some (Nat.toDigits 10 n, rest) := by
  by_cases hzero : n = 0
  · subst hzero
    rfl
  · have hdigits : readDigits? (Nat.toDigits 10 n ++ rest) = some (Nat.toDigits 10 n, rest) := by
      have hall : ∀ c ∈ Nat.toDigits 10 n, isDecimal c := fun c hc => isDecimal_of_mem_toDigits hc
      have hstop : ∀ c ∈ rest.head?, isDecimal c = false := fun c hc => (h c hc).1
      rw [readDigits?, takeWhile_append_of_head hall hstop, dropWhile_append_of_head hall hstop]
      cases hcs : Nat.toDigits 10 n with
      | nil => exact absurd hcs Nat.toDigits_ne_nil
      | cons c cs => rfl
    rw [← hdigits]
    unfold readWhole?
    split
    next tail heq =>
      have hhead : (Nat.toDigits 10 n ++ rest).head? = (Nat.toDigits 10 n).head? :=
        head?_append_of_ne_nil _ Nat.toDigits_ne_nil
      rw [heq] at hhead
      exact absurd hhead.symm (head?_toDigits_ne_zero hzero)
    · rfl

theorem toList_toString :
    (toString n).toList = (if 0 ≤ n then [] else ['-']) ++ Nat.toDigits 10 n.natAbs := by
  rw [Int.toString_eq_repr, Int.repr_eq_if]
  split
  next hsign =>
    have habs : n.toNat = n.natAbs := by omega
    rw [Nat.toList_repr, nil_append, habs]
  next hsign =>
    have habs : (-n).toNat = n.natAbs := by omega
    simp [Nat.toList_repr, habs]

/-- The first digit of a number, or the one after its sign. -/
theorem exists_toDigits_cons (n : Nat) :
    ∃ c tail, Nat.toDigits 10 n = c :: tail ∧ isDecimal c := by
  cases hcs : Nat.toDigits 10 n with
  | nil => exact absurd hcs Nat.toDigits_ne_nil
  | cons c tail => exact ⟨c, tail, rfl, isDecimal_of_mem_toDigits (hcs ▸ mem_cons_self)⟩

theorem isDecimal_ne {d : Char} (h : isDecimal c) (hd : isDecimal d = false) : c ≠ d := by
  rintro rfl
  rw [hd] at h
  cases h

/-- A number is read back. -/
theorem readNumber?_toString (h : EndsNumber rest) :
    readNumber? ((toString n).toList ++ rest) = some ((toString n).toList, rest) := by
  have hwhole := readWhole?_toDigits n.natAbs h
  rw [toList_toString]
  split
  · obtain ⟨c, tail, hcs, hc⟩ := exists_toDigits_cons n.natAbs
    have hminus : c ≠ '-' := isDecimal_ne hc (by decide)
    rw [hcs] at hwhole ⊢
    simp only [readNumber?, nil_append, cons_append] at hwhole ⊢
    simp [hwhole, readFraction_of_endsNumber h, readExponent_of_endsNumber h, hminus]
  · simp [readNumber?, hwhole, readFraction_of_endsNumber h, readExponent_of_endsNumber h]

/-- No digit is among the first two characters of a word. -/
theorem not_isDecimal_of_mem_words :
    words.all fun entry => match entry.1.toList with
      | a :: b :: _ => !isDecimal a && !isDecimal b
      | _ => false := by
  decide

theorem readWord?_eq_none {cs : List Char} (h : ∀ a b tail, cs = a :: b :: tail →
    isDecimal a ∨ isDecimal b) : readWord? cs = none := by
  refine findSome?_eq_none_iff.2 fun entry hentry => ?_
  have hword := all_eq_true.1 not_isDecimal_of_mem_words entry hentry
  rw [Option.map_eq_none_iff, dropWord?, if_neg]
  rw [List.isPrefixOf_iff_prefix]
  rintro ⟨tail, heq⟩
  split at hword
  next a b word hcs =>
    rw [hcs, cons_append, cons_append] at heq
    simp only [Bool.and_eq_true, Bool.not_eq_true'] at hword
    rcases h a b _ heq.symm with ha | hb
    · rw [hword.1] at ha
      cases ha
    · rw [hword.2] at hb
      cases hb
  · cases hword

theorem readWord?_toString (rest : List Char) : readWord? ((toString n).toList ++ rest) = none := by
  obtain ⟨c, tail, hcs, hc⟩ := exists_toDigits_cons n.natAbs
  refine readWord?_eq_none fun a b other heq => ?_
  rw [toList_toString, hcs] at heq
  split at heq
  · exact .inl ((List.cons.inj heq).1 ▸ hc)
  · exact .inr ((List.cons.inj (List.cons.inj heq).2).1 ▸ hc)

/-! ### Values up to where they end -/

/-- A text that is read as a value wherever it stands before something that ends a number. It
starts neither with a blank nor with a closing bracket. -/
structure IsWritten (text : List Char) (value : Json) : Prop where
  head : ∃ c tail, text = c :: tail ∧ skipBlanks [c] = [c] ∧ c ≠ ']'
  read : ∀ fuel rest, text.length ≤ fuel → EndsNumber rest →
    readValue? fuel (text ++ rest) = some (value, rest)

theorem skipBlanks_cons (h : skipBlanks [c] = [c]) (rest : List Char) :
    skipBlanks (c :: rest) = c :: rest := by
  simp only [skipBlanks, dropWhile_cons] at h ⊢
  split at h
  · cases h
  next hblank => rw [if_neg hblank]

/-- What stands where an item starts is no blank. -/
theorem skipBlanks_append {text : List Char}
    (h : ∃ c tail, text = c :: tail ∧ skipBlanks [c] = [c] ∧ c ≠ ']') (rest : List Char) :
    skipBlanks (text ++ rest) = text ++ rest := by
  obtain ⟨c, tail, rfl, hclear, -⟩ := h
  exact skipBlanks_cons hclear (tail ++ rest)

theorem isWritten_ofInt : IsWritten (toString n).toList (ofInt n) := by
  obtain ⟨c, tail, hcs, hc⟩ := exists_toDigits_cons n.natAbs
  obtain ⟨first, others, htext, hne⟩ : ∃ first others, (toString n).toList = first :: others ∧
      ∀ d, isDecimal d = false ∧ d ≠ '-' → first ≠ d := by
    rw [toList_toString, hcs]
    split
    · exact ⟨c, tail, rfl, fun d hd => isDecimal_ne hc hd.1⟩
    · exact ⟨'-', c :: tail, rfl, fun d hd => hd.2.symm⟩
  refine ⟨⟨first, others, htext, ?_, hne ']' (by decide)⟩, ?_⟩
  · simp [skipBlanks, hne ' ' (by decide), hne '\t' (by decide), hne '\n' (by decide),
      hne '\r' (by decide)]
  · intro fuel rest hfuel hrest
    have hword := readWord?_toString n rest
    have hnumber := readNumber?_toString n hrest
    cases fuel with
    | zero => rw [htext] at hfuel; simp at hfuel
    | succ fuel =>
      rw [readValue?]
      · rw [hword, hnumber]
        simp [ofInt]
      all_goals
        rw [htext]
        rintro tail heq
        exact absurd (List.cons.inj heq).1 (hne _ (by decide))

end Text.Json

namespace Pcode

open Text.Json

/-! ### Arrays -/

theorem bracketed_toList (items : List String) :
    (bracketed items).toList = '[' :: ((", ".intercalate items).toList ++ [']']) := by
  simp [bracketed]

theorem endsNumber_cons {c : Char} {rest : List Char} (h : c = ',' ∨ c = ']' ∨ c = '\n') :
    EndsNumber (c :: rest) := by
  rintro d ⟨⟩
  rcases h with rfl | rfl | rfl <;> decide

section Items

variable {texts : List String} {values : List Text.Json}
  (h : Forall₂ (fun text value => IsWritten text.toList value) texts values)
include h

theorem head_intercalate (hne : texts ≠ []) :
    ∃ c tail, (", ".intercalate texts).toList = c :: tail ∧ skipBlanks [c] = [c] ∧ c ≠ ']' := by
  cases h with
  | nil => exact absurd rfl hne
  | @cons text value texts values hfirst hothers =>
    obtain ⟨c, tail, htext, hclear⟩ := hfirst.head
    cases texts with
    | nil =>
      rw [String.intercalate_singleton]
      exact ⟨c, tail, htext, hclear⟩
    | cons next texts =>
      rw [String.intercalate_cons_cons, String.toList_append, String.toList_append, htext]
      exact ⟨c, _, rfl, hclear⟩

/-- The items of an array are read one after the other up to the closing bracket. -/
theorem readItems?_intercalate (hne : texts ≠ []) {fuel : Nat}
    (hfuel : (", ".intercalate texts).toList.length < fuel) (rest : List Char) :
    readItems? fuel ((", ".intercalate texts).toList ++ ']' :: rest) = some (values, rest) := by
  induction h generalizing fuel with
  | nil => exact absurd rfl hne
  | @cons text value texts values hfirst hothers ih =>
    cases fuel with
    | zero => exact absurd hfuel (Nat.not_lt_zero _)
    | succ fuel =>
      cases htexts : texts with
      | nil =>
        subst htexts
        cases hothers
        rw [String.intercalate_singleton] at hfuel ⊢
        rw [readItems?, hfirst.read fuel _ (by omega) (endsNumber_cons (.inr (.inl rfl)))]
        simp [skipBlanks]
      | cons next others =>
        have hnext : texts ≠ [] := by simp [htexts]
        have htext : (", ".intercalate (text :: texts)).toList =
            text.toList ++ ',' :: ' ' :: (", ".intercalate texts).toList := by
          rw [htexts, String.intercalate_cons_cons]
          simp
        rw [← htexts]
        -- The comma and the blank pay for the fuel that the item takes.
        rw [htext, length_append, length_cons, length_cons] at hfuel
        rw [htext, append_assoc, cons_append, cons_append, readItems?,
          hfirst.read fuel _ (by omega) (endsNumber_cons (.inl rfl))]
        have hskip : skipBlanks (' ' :: ((", ".intercalate texts).toList ++ ']' :: rest)) =
            (", ".intercalate texts).toList ++ ']' :: rest :=
          skipBlanks_append (head_intercalate hothers hnext) _
        have hlater := ih hnext (by omega : (", ".intercalate texts).toList.length < fuel)
        have hcomma : skipBlanks [','] = [','] := rfl
        simp only [Option.bind_eq_bind, Option.bind_some, skipBlanks_cons hcomma, hskip, hlater]
        rfl

/-- An array is read back. -/
theorem isWritten_bracketed : IsWritten (bracketed texts).toList (.array values) := by
  rw [bracketed_toList]
  refine ⟨⟨'[', _, rfl, rfl, by decide⟩, fun fuel rest hfuel _ => ?_⟩
  cases fuel with
  | zero => simp at hfuel
  | succ fuel =>
    rw [cons_append, readValue?, append_assoc, singleton_append]
    cases htexts : texts with
    | nil =>
      subst htexts
      cases h
      rfl
    | cons next others =>
      have hne : texts ≠ [] := by simp [htexts]
      rw [← htexts]
      obtain ⟨c, tail, hhead, -, hclosing⟩ := head_intercalate h hne
      have hitems := readItems?_intercalate h hne
        (by simp at hfuel ⊢; omega : (", ".intercalate texts).toList.length < fuel) rest
      rw [skipBlanks_append (head_intercalate h hne)]
      split
      next heq =>
        rw [hhead] at heq
        exact absurd (List.cons.inj heq).1 hclosing
      · rw [hitems]
        rfl

end Items

/-! ### Source maps -/

def sourceMapValue (lines : List Line) : Text.Json :=
  .array (lines.map fun line => .array (line.sources.map ofInt))

theorem isWritten_sources (sources : List Int) :
    IsWritten (bracketed (sources.map toString)).toList (.array (sources.map ofInt)) := by
  apply isWritten_bracketed
  rw [forall₂_map_left_iff, forall₂_map_right_iff, forall₂_same]
  exact fun n _ => isWritten_ofInt n

/-- A source map is read back. -/
theorem parse?_sourceMapText (lines : List Line) :
    parse? (sourceMapText lines).toList = some (sourceMapValue lines) := by
  have hwritten : IsWritten
      (bracketed (lines.map fun line => bracketed (line.sources.map toString))).toList
      (sourceMapValue lines) := by
    apply isWritten_bracketed
    rw [forall₂_map_left_iff, forall₂_map_right_iff, forall₂_same]
    exact fun line _ => isWritten_sources line.sources
  have hskip : skipBlanks (sourceMapText lines).toList = (sourceMapText lines).toList := by
    rw [sourceMapText, String.toList_append]
    exact skipBlanks_append hwritten.head _
  have hbreak : EndsNumber "\n".toList := endsNumber_cons (.inr (.inr rfl))
  rw [parse?, hskip, sourceMapText, String.toList_append,
    hwritten.read _ _ (by rw [length_append]; omega) hbreak]
  rfl

theorem numbersOf?_ofInt (sources : List Int) :
    Workspace.numbersOf? (.array (sources.map ofInt)) = some sources := by
  rw [Workspace.numbersOf?]
  induction sources with
  | nil => rfl
  | cons n sources ih =>
    rw [map_cons, mapM_cons, ih]
    simp [ofInt, Int.toString_eq_repr, Int.toInt?_repr]

end Pcode

end MovieDiff
