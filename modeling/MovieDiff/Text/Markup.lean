import MovieDiff.Text.Literal
import MovieDiff.Text.Style
import MovieDiff.Text.Word

/-!
Markup: text with style tags between brackets. A backslash before a tag makes it plain text,
and two backslashes before a tag are one. `escape` writes plain text as markup, and
`StyledText.ofMarkup` reads markup.
-/
namespace MovieDiff.Text

/-- A stretch of characters that has a style. -/
structure StyleSpan where
  start : Nat
  stop : Nat
  style : String
  deriving DecidableEq, Repr

structure StyledText where
  plain : String
  spans : List StyleSpan
  deriving DecidableEq, Repr

/-- Some control characters never reach the screen. -/
def isDropped (c : Char) : Bool :=
  let n := c.toNat
  n == 7 || n == 8 || n == 11 || n == 12 || n == 13

def dropControls (s : String) : String :=
  String.ofList (s.toList.filter fun c => !isDropped c)

def StyledText.ofPlain (s : String) : StyledText :=
  ⟨dropControls s, []⟩

namespace Markup

/-- Plain characters, or a tag with the number of backslashes before it. -/
inductive Piece where
  | literal (cs : List Char)
  | tag (slashes : Nat) (inner : List Char)
  deriving DecidableEq, Repr

def opensTag (c : Char) : Bool :=
  'a' ≤ c && c ≤ 'z' || c == '#' || c == '/' || c == '@'

/-- The inside of a tag, and what follows it. -/
def tagAt? : List Char → Option (List Char × List Char)
  | '[' :: c :: rest =>
    if opensTag c then
      match rest.dropWhile fun d => d ≠ '[' && d ≠ ']' with
      | ']' :: after => some (c :: rest.takeWhile (fun d => d ≠ '[' && d ≠ ']'), after)
      | _ => none
    else none
  | _ => none

theorem tagAt?_shorter {cs inner after : List Char} (h : tagAt? cs = some (inner, after)) :
    after.length < cs.length := by
  unfold tagAt? at h
  split at h
  · rename_i c rest
    split at h
    · have hle := (List.dropWhile_sublist
        (l := rest) (p := fun d => decide (d ≠ '[') && decide (d ≠ ']'))).length_le
      split at h
      · rename_i heq
        rw [heq] at hle
        simp only [Option.some.injEq, Prod.mk.injEq] at h
        simp only [List.length_cons] at hle ⊢
        rw [← h.2]
        omega
      · simp at h
    · simp at h
  · simp at h

def isSlash (c : Char) : Bool := c == '\\'

/-- A text as its pieces. A run of backslashes that no tag follows goes with the next
character. -/
def scan : List Char → List Piece
  | [] => []
  | c :: cs =>
    let slashes := (c :: cs).takeWhile isSlash
    let rest := (c :: cs).dropWhile isSlash
    match _found : tagAt? rest with
    | some (inner, after) => .tag slashes.length inner :: scan after
    | none =>
      match _split : rest with
      | [] => [.literal slashes]
      | d :: after => .literal (slashes ++ [d]) :: scan after
termination_by cs => cs.length
decreasing_by
  · have h1 := tagAt?_shorter _found
    have h2 := (List.dropWhile_sublist (l := c :: cs) (p := isSlash)).length_le
    simp only [rest, List.length_cons] at *
    omega
  · have h2 := (List.dropWhile_sublist (l := c :: cs) (p := isSlash)).length_le
    simp only [rest] at _split
    rw [_split] at h2
    simp only [List.length_cons] at *
    omega

def backslashes (n : Nat) : List Char :=
  List.replicate n '\\'

def bracketed (inner : List Char) : List Char :=
  '[' :: inner ++ [']']

def escapePiece : Piece → List Char
  | .literal cs => cs
  | .tag slashes inner => backslashes (2 * slashes + 1) ++ bracketed inner

/-- Whether a text ends in a single backslash. -/
def endsInSlash (cs : List Char) : Bool :=
  match cs.reverse with
  | '\\' :: '\\' :: _ => false
  | '\\' :: _ => true
  | _ => false

/-- A tag in the text gets one more backslash than twice what stood before it, and a single
backslash at the end is doubled. -/
def escape (s : String) : String :=
  let cs := (scan s.toList).flatMap escapePiece
  String.ofList (if endsInSlash cs then cs ++ ['\\'] else cs)

/-- In plain pieces a backslash before an opening bracket is dropped. -/
def unescapeBrackets : List Char → List Char
  | '\\' :: '[' :: rest => '[' :: unescapeBrackets rest
  | c :: rest => c :: unescapeBrackets rest
  | [] => []

/-- A style that is open: where it began, its name and what follows an equals sign. -/
structure OpenStyle where
  start : Nat
  name : String
  parameters : Option String
  deriving DecidableEq, Repr

namespace OpenStyle

def text (style : OpenStyle) : String :=
  match style.parameters with
  | some parameters => style.name ++ " " ++ parameters
  | none => style.name

/-- A style whose name starts with an at sign is an action. -/
def isAction (style : OpenStyle) : Bool :=
  style.name.toList.head? == some '@'

/-- The arguments of an action: what follows its name, between parentheses. Where there is
nothing of that form, all of it. -/
def arguments (parameters : List Char) : List Char :=
  let given := strip parameters
  let rest := given.dropWhile fun c => isWordChar c || c == '.'
  if rest.isEmpty then ['(', ')']
  else if rest.head? == some '(' && rest.getLast? == some ')' && !rest.contains '\n' then rest
  else given

/-- The style of the text once the tag is closed; the arguments of an action are literals. -/
def closedText (style : OpenStyle) : Except Fault String :=
  if style.isAction then
    match style.parameters with
    | some parameters =>
      if parameters.isEmpty || Literal.isLiteral (arguments parameters.toList) then
        .ok Style.plainName
      else .error (.badAction parameters)
    | none => .ok Style.plainName
  else .ok style.text

end OpenStyle

/-- The text so far, the open styles with the innermost first, and the closed spans with the
last one first. -/
structure State where
  plain : List Char
  opened : List OpenStyle
  closed : List StyleSpan
  deriving DecidableEq, Repr

namespace State

def addText (s : State) (cs : List Char) : State :=
  { s with plain := s.plain ++ cs.filter fun c => !isDropped c }

def openTag (s : State) (inner : List Char) : Except Fault State := do
  let name ← Style.normalText (String.ofList (inner.takeWhile (· ≠ '=')))
  let parameters := match inner.dropWhile (· ≠ '=') with
    | _ :: rest => some (String.ofList rest)
    | [] => none
  return { s with opened := ⟨s.plain.length, name, parameters⟩ :: s.opened }

def close (s : State) (style : OpenStyle) : Except Fault State := do
  return { s with
    opened := s.opened.erase style
    closed := ⟨style.start, s.plain.length, ← style.closedText⟩ :: s.closed }

/-- Closes the innermost style of a name, or the innermost of all. -/
def closeTag (s : State) (inner : List Char) : Except Fault State := do
  if isBlankText inner then
    let some style := s.opened.head? | throw (.unmatchedTag "")
    s.close style
  else
    let name ← Style.normalText (String.ofList (strip inner))
    let some style := s.opened.find? (·.name == name) | throw (.unmatchedTag name)
    s.close style

def addTag (s : State) : List Char → Except Fault State
  | '/' :: inner => s.closeTag (inner.takeWhile (· ≠ '='))
  | inner => s.openTag inner

def addPiece (s : State) : Piece → Except Fault State
  | .literal cs => .ok (s.addText (unescapeBrackets cs))
  | .tag slashes inner =>
    let s := s.addText (backslashes (slashes / 2))
    if slashes % 2 = 1 then .ok (s.addText (bracketed inner)) else s.addTag inner

/-- Styles that are still open reach to the end. -/
def finish (s : State) : StyledText :=
  let all := s.opened.foldl (fun closed style =>
    ⟨style.start, s.plain.length, style.text⟩ :: closed) s.closed
  ⟨String.ofList s.plain, all.mergeSort fun x y => x.start ≤ y.start⟩

end State

end Markup

/-- A text without an opening bracket has no tags, and stays as it is. -/
def StyledText.ofMarkup (markup : String) : Except Fault StyledText :=
  if !markup.toList.contains '[' then .ok (.ofPlain markup)
  else do
    let state ← (Markup.scan markup.toList).foldlM Markup.State.addPiece ⟨[], [], []⟩
    return state.finish

/-- Drawing reads the style of every span. One that is no style is passed over. -/
def StyledText.draw (line : StyledText) : Except Fault Unit :=
  line.spans.forM fun span => discard (Style.normalText span.style)

end MovieDiff.Text
