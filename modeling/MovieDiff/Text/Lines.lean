/-!
Lines of a text. A line ends at a line break of any kind, carriage return and line feed
together count as one, and a break at the very end opens no further line.
-/
namespace MovieDiff.Text

def isLineBreak (c : Char) : Bool :=
  let n := c.toNat
  (10 ≤ n && n ≤ 13) || (28 ≤ n && n ≤ 30) || n == 0x85 || n == 0x2028 || n == 0x2029

def cutLines : List Char → List (List Char)
  | [] => []
  | '\r' :: '\n' :: rest => [] :: cutLines rest
  | c :: rest =>
    if isLineBreak c then [] :: cutLines rest
    else match cutLines rest with
      | [] => [[c]]
      | line :: lines => (c :: line) :: lines

def splitLines (s : String) : List String :=
  (cutLines s.toList).map String.ofList

/-- Writes every carriage return, alone or before a line feed, as one line feed. -/
def unifyNewlines : List Char → List Char
  | [] => []
  | '\r' :: '\n' :: rest => '\n' :: unifyNewlines rest
  | c :: rest => (if c = '\r' then '\n' else c) :: unifyNewlines rest

/-- The pieces between the occurrences of a separator; an empty text is one empty piece. -/
def splitAtChar (sep : Char) : List Char → List (List Char)
  | [] => [[]]
  | c :: rest =>
    match splitAtChar sep rest with
    | [] => [[c]]
    | piece :: pieces => if c = sep then [] :: piece :: pieces else (c :: piece) :: pieces

def joinLines (lines : List String) : String :=
  "\n".intercalate lines

end MovieDiff.Text
