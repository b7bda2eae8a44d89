import MovieDiff.Command.Session

/-!
What a run shows, as plain text.
-/
namespace MovieDiff

open Text (StyledText)

/-- Markup without its styles; what is no markup is taken as it is. -/
def markupText (markup : String) : String :=
  match StyledText.ofMarkup markup with
  | .ok text => text.plain
  | .error _ => markup

def padTo (width : Nat) (s : String) : String :=
  s ++ String.ofList (List.replicate (width - s.length) ' ')

/-- Rows in columns, two blanks apart. -/
def columnsText (rows : List (List String)) : String :=
  let count := (rows.map List.length).foldl max 0
  let widths := (List.range count).map fun i =>
    (rows.map fun row => (row.getD i "").length).foldl max 0
  "\n".intercalate (rows.map fun row =>
    "  ".intercalate ((row.zip widths).map fun (cell, width) => padTo width cell))

def paneTexts (width : Nat) : Layout.ShownPane → List String
  | .message markup => [padTo width (markupText markup)]
  | .rows rows => rows.map fun row => padTo width (padTo 5 row.gutter ++ "   " ++ row.text)

/-- Two columns of lines, the shorter one filled up. -/
def besides (width : Nat) (left right : List String) : List String :=
  (List.range (max left.length right.length)).map fun i =>
    left.getD i (padTo width "") ++ " " ++ right.getD i ""

def Shown.text : Shown → String
  | markup text => markupText text
  | rule title => markupText title
  | table rows => columnsText (rows.map fun row => row.map markupText)
  | unified lines _ => "\n".intercalate (lines.map (·.plain))
  | split layout =>
    let width := layout.widths.1.toNat
    "\n".intercalate (besides width (paneTexts width layout.left)
      (paneTexts layout.widths.2.toNat layout.right))

/-- The text of an event; calls of the extractor are not shown. -/
def Event.text? : Event → Option String
  | out items => some (" ".intercalate (items.map Shown.text))
  | line => some ""
  | err markup => some (markupText markup)
  | run _ => none

def Event.isError : Event → Bool
  | err _ => true
  | _ => false

end MovieDiff
