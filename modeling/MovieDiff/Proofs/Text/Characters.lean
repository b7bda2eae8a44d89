import Mathlib.Data.List.TakeWhile
import MovieDiff.Text.Characters
import MovieDiff.Text.Word

/-!
Character classes that exclude one another, and what is left of a text once its leading blanks
are gone. Blanks form a finite set, so that every class is compared with them by enumeration.
-/
namespace MovieDiff.Text

open List

variable {c : Char} {α : Type} {cs : List Char}

def blankCodes : List Nat :=
  [9, 10, 11, 12, 13, 28, 29, 30, 31, 32, 0x85, 0xA0, 0x1680, 0x2000, 0x2001, 0x2002, 0x2003,
   0x2004, 0x2005, 0x2006, 0x2007, 0x2008, 0x2009, 0x200A, 0x2028, 0x2029, 0x202F, 0x205F, 0x3000]

theorem toNat_mem_blankCodes (h : isBlank c) : c.toNat ∈ blankCodes := by
  simp only [isBlank, Bool.or_eq_true, Bool.and_eq_true, decide_eq_true_eq, beq_iff_eq] at h
  simp only [blankCodes, mem_cons, not_mem_nil, or_false]
  omega

/-- A class that holds no blank code point holds no blank. -/
theorem eq_false_of_isBlank {p : Char → Bool} (hp : ∀ n ∈ blankCodes, p (Char.ofNat n) = false)
    (h : isBlank c) : p c = false := by
  have hcode := hp _ (toNat_mem_blankCodes h)
  rwa [Char.ofNat_toNat] at hcode

theorem isWordChar_of_isBlank : isBlank c → isWordChar c = false :=
  eq_false_of_isBlank (by decide +kernel)

theorem isBlank_eq_false {p : Char → Bool} (hp : ∀ n ∈ blankCodes, p (Char.ofNat n) = false)
    (h : p c) : isBlank c = false := by
  rw [Bool.eq_false_iff]
  exact fun hblank => Bool.eq_false_iff.1 (eq_false_of_isBlank hp hblank) h

theorem isBlank_of_isDigit : isDigit c → isBlank c = false :=
  isBlank_eq_false (by decide +kernel)

/-! ### Cutting at the end of a class -/

theorem takeWhile_append_of_head {p : α → Bool} {word rest : List α} (hword : ∀ c ∈ word, p c)
    (hrest : ∀ c ∈ rest.head?, p c = false) :
    (word ++ rest).takeWhile p = word := by
  rw [takeWhile_append_of_pos hword]
  cases rest with
  | nil => simp
  | cons c rest => simp [hrest c rfl]

theorem dropWhile_append_of_head {p : α → Bool} {word rest : List α} (hword : ∀ c ∈ word, p c)
    (hrest : ∀ c ∈ rest.head?, p c = false) :
    (word ++ rest).dropWhile p = rest := by
  rw [dropWhile_append_of_pos hword]
  cases rest with
  | nil => simp
  | cons c rest => simp [hrest c rfl]

theorem head?_dropWhile {p : α → Bool} (xs : List α) :
    ∀ x ∈ (xs.dropWhile p).head?, p x = false := by
  intro x hx
  have hhead := head?_dropWhile_not p xs
  rwa [hx] at hhead

/-! ### Leading blanks -/

theorem stripLeft_cons_of_blank (h : isBlank c) (cs : List Char) :
    stripLeft (c :: cs) = stripLeft cs :=
  dropWhile_cons_of_pos h

theorem stripLeft_cons_of_not_blank (h : isBlank c = false) (cs : List Char) :
    stripLeft (c :: cs) = c :: cs :=
  dropWhile_cons_of_neg (by simp [h])

/-- A text that starts with no blank, the empty text included. -/
def StartsClear (cs : List Char) : Prop :=
  ∀ c ∈ cs.head?, isBlank c = false

theorem startsClear_cons : StartsClear (c :: cs) ↔ isBlank c = false := by
  simp [StartsClear]

theorem stripLeft_eq_self (h : StartsClear cs) : stripLeft cs = cs := by
  cases cs with
  | nil => rfl
  | cons c cs => exact stripLeft_cons_of_not_blank (startsClear_cons.1 h) cs

/-- Stripping leaves no blank in front. -/
theorem startsClear_stripLeft (cs : List Char) : StartsClear (stripLeft cs) :=
  head?_dropWhile cs

/-- Only blanks are dropped from the start. -/
theorem exists_blanks_append_stripLeft (cs : List Char) :
    ∃ blanks, (∀ c ∈ blanks, isBlank c = true) ∧ cs = blanks ++ stripLeft cs :=
  ⟨cs.takeWhile isBlank, fun _ hc => mem_takeWhile_imp hc,
    takeWhile_append_dropWhile.symm⟩

/-! ### Blanks at both ends -/

theorem stripRight_append_of_not_blank (h : isBlank c = false) (cs : List Char) :
    stripRight (cs ++ [c]) = cs ++ [c] := by
  simp [stripRight, h]

def EndsClear (cs : List Char) : Prop :=
  ∀ c ∈ cs.getLast?, isBlank c = false

theorem stripRight_eq_self (h : EndsClear cs) : stripRight cs = cs := by
  rcases eq_nil_or_concat cs with rfl | ⟨front, last, rfl⟩
  · rfl
  · rw [concat_eq_append] at h ⊢
    exact stripRight_append_of_not_blank (h last (by simp)) front

theorem endsClear_append {cs rest : List Char} (hne : rest ≠ []) (h : EndsClear rest) :
    EndsClear (cs ++ rest) := by
  have hlast : (cs ++ rest).getLast? = rest.getLast? := by
    rw [getLast?_append, getLast?_eq_some_getLast hne]
    rfl
  rwa [EndsClear, hlast]

theorem strip_eq_self (hclear : StartsClear cs) (hends : EndsClear cs) : strip cs = cs := by
  rw [strip, stripLeft_eq_self hclear, stripRight_eq_self hends]

theorem endsClear_of_forall (h : ∀ c ∈ cs, isBlank c = false) : EndsClear cs :=
  fun c hc => h c (mem_of_getLast? hc)

/-- Trailing blanks do not reach into a part that ends without one. -/
theorem stripRight_append (h : isBlank c = false) (rest : List Char) :
    stripRight (cs ++ c :: rest) = cs ++ c :: stripRight rest := by
  have hreverse : (cs ++ c :: rest).reverse = rest.reverse ++ c :: cs.reverse := by simp
  rw [stripRight, stripRight, hreverse, dropWhile_append]
  split
  next hempty =>
    rw [List.isEmpty_iff] at hempty
    simp [hempty, h]
  next => simp

end MovieDiff.Text
