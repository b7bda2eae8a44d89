import MovieDiff.Text.Markup

/-!
Colouring a line of source text by its tokens.
-/
namespace MovieDiff.Layout

open Text (StyledText)

structure TokenStyle where
  color : Option String := none
  bold : Bool := false
  italic : Bool := false
  underline : Bool := false
  deriving DecidableEq, Repr

def TokenStyle.text (style : TokenStyle) : String :=
  let color := match style.color with
    | some color => if color.isEmpty then [] else ["#" ++ color]
    | none => []
  " ".intercalate (color ++ (if style.bold then ["bold"] else []) ++
    (if style.italic then ["italic"] else []) ++ (if style.underline then ["underline"] else []))

/-- Line feeds at the end of a token are not shown, and a token of nothing else is left out. -/
def addToken (line : StyledText) (style : TokenStyle) (token : String) : StyledText :=
  let value := String.ofList ((token.toList.reverse.dropWhile (· == '\n')).reverse)
  if value.isEmpty then line
  else
    let shown := Text.dropControls value
    let start := line.plain.length
    let spans := if style.text.isEmpty then [] else [⟨start, start + shown.length, style.text⟩]
    ⟨line.plain ++ shown, line.spans ++ spans⟩

def highlight (tokens : List (TokenStyle × String)) : StyledText :=
  tokens.foldl (fun line (style, token) => addToken line style token) ⟨"", []⟩

end MovieDiff.Layout
