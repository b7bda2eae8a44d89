import MovieDiff.Text.Characters
import MovieDiff.Text.Lines

/-!
How many lines a text takes at a width. Lines break before words; a word that is too long for
a line is cut when words may be folded, and else runs over.
-/
namespace MovieDiff.Text

/-- Tabs reach to the next multiple of eight; `column` is where the text starts. -/
def expandTabs (column : Nat) : List Char → List Char
  | [] => []
  | '\t' :: rest =>
    let width := 8 - column % 8
    List.replicate width ' ' ++ expandTabs (column + width) rest
  | c :: rest => c :: expandTabs (column + 1) rest

/-- A word with the blanks around it: the first word has those before it, each word has those
after it. -/
structure WordSpan where
  start : Nat
  /-- Characters up to the last one that is no blank. -/
  solid : Nat
  length : Nat
  deriving DecidableEq, Repr

/-- The words from `start` on; a rest of blanks only is none. -/
def words (fuel start : Nat) (cs : List Char) : List WordSpan :=
  match fuel with
  | 0 => []
  | fuel + 1 =>
    let leading := cs.takeWhile isBlank
    let afterLeading := cs.dropWhile isBlank
    let solid := afterLeading.takeWhile fun c => !isBlank c
    let rest := afterLeading.dropWhile fun c => !isBlank c
    let trailing := rest.takeWhile isBlank
    if solid.isEmpty then []
    else
      let length := leading.length + solid.length + trailing.length
      ⟨start, leading.length + solid.length, length⟩ ::
        words fuel (start + length) (rest.dropWhile isBlank)

/-- Whether long words are cut. -/
inductive LongWords where
  | fold
  | overflow
  deriving DecidableEq, Repr

/-- The breaks so far, and the column after the last word. -/
structure WrapState where
  breaks : Nat
  column : Nat
  deriving DecidableEq, Repr

/-- The pieces of a word that is cut at a width: how many, and the length of the last. -/
def foldPieces (width length : Nat) : Nat × Nat :=
  let pieces := (length + width - 1) / width
  (pieces, length - width * (pieces - 1))

/-- A break before a word that starts the text is none. -/
def placeWord (width : Nat) (long : LongWords) (s : WrapState) (word : WordSpan) : WrapState :=
  let first := if 0 < word.start then 1 else 0
  if s.column + word.solid ≤ width then { s with column := s.column + word.length }
  else if width < word.solid then
    match long with
    | .fold =>
      let (pieces, last) := foldPieces width word.length
      ⟨s.breaks + first + (pieces - 1), last⟩
    | .overflow => ⟨s.breaks + first, word.length⟩
  else if 0 < s.column ∧ 0 < word.start then ⟨s.breaks + 1, word.length⟩
  else s

def wrappedHeight (width : Nat) (long : LongWords) (cs : List Char) : Nat :=
  let cs := expandTabs 0 cs
  ((words cs.length 0 cs).foldl (placeWord width long) ⟨0, 0⟩).breaks + 1

/-- The lines of a text at a width; each line feed starts a new one. -/
def textHeight (width : Nat) (long : LongWords) (s : String) : Nat :=
  ((splitAtChar '\n' s.toList).map (wrappedHeight width long)).foldr (· + ·) 0

end MovieDiff.Text
