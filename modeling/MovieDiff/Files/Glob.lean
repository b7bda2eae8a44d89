import MovieDiff.Fault
import MovieDiff.Path

/-!
Patterns that select the files below a directory. A pattern is a path whose names may hold
wildcards: a star for any characters, a question mark for one, a bracket for one of a set. A
name of two stars stands for any number of directories. All names count, hidden ones too.
-/
namespace MovieDiff

inductive GlobChar where
  | anyText
  | anyChar
  | oneOf (negated : Bool) (ranges : List (Char × Char))
  | exactly (c : Char)
  deriving DecidableEq, Repr

/-- A name without wildcards is looked up as it is, a double dot too. -/
inductive GlobStep where
  | anyDepth
  | exactly (name : String)
  | matching (pattern : List GlobChar)
  deriving DecidableEq, Repr

/-- A pattern that ends in a slash asks for directories, so it selects no file. -/
structure Glob where
  steps : List GlobStep
  directoriesOnly : Bool
  deriving DecidableEq, Repr

namespace Glob

/-- Cuts the text of a bracket at the hyphens that make ranges. Such a hyphen is not among the
first `skip` characters of its chunk, nor the last character of all; `chunk` holds, last first,
what the chunk has so far. -/
def cutChunks : Nat → List Char → List Char → List (List Char)
  | 0, chunk, '-' :: next :: rest => chunk.reverse :: cutChunks 1 [next] rest
  | skip, chunk, c :: rest => cutChunks (skip - 1) (c :: chunk) rest
  | _, chunk, [] => [chunk.reverse]

/-- Whether the range between two chunks would run backwards. -/
def isBackward (chunk next : List Char) : Bool :=
  match chunk.getLast?, next.head? with
  | some first, some last => last < first
  | _, _ => false

/-- Drops the ranges that run backwards, from the last one on. -/
def joinChunks : List (List Char) → List (List Char)
  | [] => []
  | chunk :: rest =>
    match joinChunks rest with
    | next :: others =>
      if isBackward chunk next then (chunk.dropLast ++ next.drop 1) :: others
      else chunk :: next :: others
    | [] => [chunk]

/-- The characters of the chunks, with nothing for a hyphen between two of them. -/
def spreadChunks (chunks : List (List Char)) : List (Option Char) :=
  [none].intercalate (chunks.map fun chunk => chunk.map some)

/-- A hyphen without a character before it stands for itself. -/
def readRanges : List (Option Char) → List (Char × Char)
  | some first :: none :: some last :: rest => (first, last) :: readRanges rest
  | some c :: rest => (c, c) :: readRanges rest
  | none :: rest => ('-', '-') :: readRanges rest
  | [] => []

/-- The set that the text of a bracket describes. An exclamation mark in front, also one that
comes there when a range is dropped, takes the characters outside. -/
def readSet (text : List Char) : GlobChar :=
  let skip := if text.head? = some '!' then 2 else 1
  match spreadChunks (joinChunks (cutChunks skip [] text)) with
  | [some '!'] => .anyChar
  | some '!' :: rest => .oneOf true (readRanges rest)
  | places => .oneOf false (readRanges places)

/-- Cuts a text at its first closing bracket. -/
def closeBracket (cs : List Char) : Option (List Char × List Char) :=
  match cs.dropWhile (· ≠ ']') with
  | _ :: rest => some (cs.takeWhile (· ≠ ']'), rest)
  | [] => none

/-- Cuts what follows an opening bracket at the closing one. A closing bracket at the start, or
after an exclamation mark there, belongs to the set. -/
def cutBracket : List Char → Option (List Char × List Char)
  | '!' :: ']' :: cs => (closeBracket cs).map fun (text, rest) => ('!' :: ']' :: text, rest)
  | ']' :: cs => (closeBracket cs).map fun (text, rest) => (']' :: text, rest)
  | cs => closeBracket cs

/-- Reading a bracket takes up text. -/
theorem closeBracket_shorter {cs text rest : List Char} (h : closeBracket cs = some (text, rest)) :
    rest.length < cs.length := by
  have hle := (List.dropWhile_sublist (l := cs) (p := (· ≠ ']'))).length_le
  unfold closeBracket at h
  split at h
  · rename_i heq
    rw [heq] at hle
    simp only [Option.some.injEq, Prod.mk.injEq] at h
    simp only [List.length_cons] at hle
    rw [← h.2]
    omega
  · simp at h

theorem cutBracket_shorter {cs text rest : List Char} (h : cutBracket cs = some (text, rest)) :
    rest.length < cs.length := by
  unfold cutBracket at h
  split at h
  case h_3 => exact closeBracket_shorter h
  all_goals
    obtain ⟨⟨inner, after⟩, hclose, heq⟩ := Option.map_eq_some_iff.1 h
    have hlt := closeBracket_shorter hclose
    simp only [Prod.mk.injEq] at heq
    grind

/-- A bracket without its closing one stands for itself. -/
def readName : List Char → List GlobChar
  | [] => []
  | '*' :: rest => .anyText :: readName rest
  | '?' :: rest => .anyChar :: readName rest
  | '[' :: rest =>
    match h : cutBracket rest with
    | some (text, after) =>
      have := cutBracket_shorter h
      readSet text :: readName after
    | none => .exactly '[' :: readName rest
  | c :: rest => .exactly c :: readName rest
termination_by cs => cs.length

def hasDoubleStar : List Char → Bool
  | '*' :: '*' :: _ => true
  | _ :: rest => hasDoubleStar rest
  | [] => false

def isWildcard (c : Char) : Bool :=
  c == '*' || c == '?' || c == '['

def readStep (name : String) : Except Fault GlobStep :=
  if name = "**" then .ok .anyDepth
  else if hasDoubleStar name.toList then .error .joinedStars
  else if name.toList.any isWildcard then .ok (.matching (readName name.toList))
  else .ok (.exactly name)

def ofString (pattern : String) : Except Fault Glob := do
  if pattern.isEmpty then throw .emptyPattern
  let path := Path.ofString pattern
  if path.root ≠ .none then throw .absolutePattern
  let directoriesOnly := pattern.toList.getLast? == some '/'
  if path.names.isEmpty then
    throw (if directoriesOnly then .dotDirectoryPattern else .bareDotPattern)
  return ⟨← path.names.mapM readStep, directoriesOnly⟩

def everything : Glob :=
  ⟨[.anyDepth, .matching [.anyText]], false⟩

/-- All names with an ending, at the top or at any depth. -/
def ending (suffix : String) (deep : Bool) : Glob :=
  ⟨(if deep then [.anyDepth] else []) ++
    [.matching (.anyText :: suffix.toList.map GlobChar.exactly)], false⟩

def inRange (c : Char) (range : Char × Char) : Bool :=
  range.1 ≤ c && c ≤ range.2

def matchesName : List GlobChar → List Char → Bool
  | [], cs => cs.isEmpty
  | .anyText :: rest, [] => matchesName rest []
  | .anyText :: rest, c :: cs => matchesName rest (c :: cs) || matchesName (.anyText :: rest) cs
  | .anyChar :: rest, _ :: cs => matchesName rest cs
  | .oneOf negated ranges :: rest, c :: cs =>
    (ranges.any (inRange c) != negated) && matchesName rest cs
  | .exactly x :: rest, c :: cs => x == c && matchesName rest cs
  | _, [] => false
termination_by pattern cs => pattern.length + cs.length

end Glob

end MovieDiff
