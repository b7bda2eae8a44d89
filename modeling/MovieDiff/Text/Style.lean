import MovieDiff.Text.Color

/-!
Styles of text as words: attributes, a colour, a background and a link. Different texts may
write the same style, and `Style.text` is the one that stands for all of them.
-/
namespace MovieDiff.Text

inductive StyleAttribute where
  | bold | dim | italic | underline | blink | blink2 | reverse | conceal | strike | underline2
  | frame | encircle | overline
  deriving DecidableEq, Repr

namespace StyleAttribute

/-- All attributes, in the order in which they are written. -/
def all : List StyleAttribute :=
  [bold, dim, italic, underline, blink, blink2, reverse, conceal, strike, underline2, frame,
   encircle, overline]

def name : StyleAttribute → String
  | bold => "bold"
  | dim => "dim"
  | italic => "italic"
  | underline => "underline"
  | blink => "blink"
  | blink2 => "blink2"
  | reverse => "reverse"
  | conceal => "conceal"
  | strike => "strike"
  | underline2 => "underline2"
  | frame => "frame"
  | encircle => "encircle"
  | overline => "overline"

def shortName? : StyleAttribute → Option String
  | bold => "b"
  | dim => "d"
  | italic => "i"
  | underline => "u"
  | reverse => "r"
  | conceal => "c"
  | strike => "s"
  | underline2 => "uu"
  | overline => "o"
  | _ => none

def ofWord? (word : String) : Option StyleAttribute :=
  all.find? fun a => a.name == word || a.shortName? == some word

end StyleAttribute

/-- Attributes may be switched on or off; of two settings the first counts. -/
structure Style where
  attributes : List (StyleAttribute × Bool) := []
  color : Option Color := none
  background : Option Color := none
  link : Option String := none
  deriving DecidableEq, Repr

namespace Style

def set (style : Style) (a : StyleAttribute) (on : Bool) : Style :=
  { style with attributes := (a, on) :: style.attributes }

/-- A word that stands for itself: an attribute or a colour. -/
def addWord (style : Style) (word : String) : Except Fault Style :=
  match StyleAttribute.ofWord? word with
  | some a => .ok (style.set a true)
  | none => do return { style with color := some (← Color.ofString word) }

/-- Whether a word needs another one after it. -/
def isOpening (word : String) : Bool :=
  word == "on" || word == "not" || word == "link"

def addWords (style : Style) : List String → Except Fault Style
  | [] => .ok style
  | [word] =>
    if isOpening (lowercase word) then .error (.notAStyle word) else style.addWord (lowercase word)
  | word :: next :: rest =>
    match lowercase word with
    | "on" => do addWords { style with background := some (← Color.ofString next) } rest
    | "not" =>
      match StyleAttribute.ofWord? next with
      | some a => addWords (style.set a false) rest
      | none => .error (.notAStyle next)
    | "link" => addWords { style with link := some next } rest
    | lower => do addWords (← style.addWord lower) (next :: rest)

def wordsOf (cs : List Char) : List String :=
  let spaced := cs.map fun c => if isBlank c then ' ' else c
  ((splitAtChar ' ' spaced).filter fun word => !word.isEmpty).map String.ofList

/-- The word for no style stands alone. -/
def plainName : String := "none"

def ofString (text : String) : Except Fault Style :=
  let words := wordsOf text.toList
  if words == [plainName] then .ok {} else addWords {} words

def attributeWords (style : Style) : List String :=
  StyleAttribute.all.filterMap fun a =>
    (style.attributes.lookup a).map fun on => if on then a.name else "not " ++ a.name

def text (style : Style) : String :=
  let words := style.attributeWords ++ (style.color.map Color.name).toList ++
    (style.background.map fun color => "on " ++ color.name).toList ++
    (style.link.map fun link => "link " ++ link).toList
  if words.isEmpty then plainName else " ".intercalate words

/-- The text that stands for a style. What is no style stands for itself, in lower case and
without the blanks around it. -/
def normalText (text : String) : Except Fault String :=
  match ofString text with
  | .ok style => .ok style.text
  | .error (.notAStyle _) | .error (.notAColor _) =>
    .ok (lowercase (String.ofList (strip text.toList)))
  | .error fault => .error fault

end Style

end MovieDiff.Text
