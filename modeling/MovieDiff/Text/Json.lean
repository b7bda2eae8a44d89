import MovieDiff.Text.Numeral

/-!
JSON values as text. Written text holds printable ASCII only; reading takes one value and
nothing but blanks around it.
-/
namespace MovieDiff.Text

/-- Numbers are kept as they are written. -/
inductive Json where
  | null
  | bool (b : Bool)
  | number (text : String)
  | string (s : String)
  | array (items : List Json)
  | object (fields : List (String × Json))
  deriving Repr, Inhabited

namespace Json

def ofInt (n : Int) : Json := .number (toString n)

/-! ### Writing -/

def escapeUnit (n : Nat) : List Char :=
  '\\' :: 'u' :: hexText 4 n

/-- Beyond the first plane a character is written as a pair of surrogates. -/
def escapeChar (c : Char) : List Char :=
  let n := c.toNat
  if c = '"' || c = '\\' then ['\\', c]
  else if c = '\n' then ['\\', 'n']
  else if c = '\r' then ['\\', 'r']
  else if c = '\t' then ['\\', 't']
  else if n = 8 then ['\\', 'b']
  else if n = 12 then ['\\', 'f']
  else if 32 ≤ n && n ≤ 126 then [c]
  else if n < 0x10000 then escapeUnit n
  else escapeUnit (0xD800 + (n - 0x10000) / 1024) ++ escapeUnit (0xDC00 + n % 1024)

def stringText (s : String) : String :=
  String.ofList ('"' :: s.toList.flatMap escapeChar ++ ['"'])

/-- How the parts of an array or object are set apart. -/
structure Style where
  /-- Text between two items, and around the items of one bracket, at a depth. -/
  comma : Nat → String
  edge : Nat → String

/-- All on one line, a blank after each comma. -/
def Style.inline : Style := ⟨fun _ => ", ", fun _ => ""⟩

def newline (indent depth : Nat) : String :=
  String.ofList ('\n' :: List.replicate (indent * depth) ' ')

/-- One item a line, each depth further in. -/
def Style.indented (indent : Nat) : Style :=
  ⟨fun depth => "," ++ newline indent depth, newline indent⟩

/-- Items between brackets; without items the brackets touch. -/
def bracket (style : Style) (depth : Nat) (opening closing : String) (items : List String) :
    String :=
  if items.isEmpty then opening ++ closing
  else opening ++ style.edge (depth + 1) ++ (style.comma (depth + 1)).intercalate items ++
    style.edge depth ++ closing

mutual

def render (style : Style) (depth : Nat) : Json → String
  | .null => "null"
  | .bool b => if b then "true" else "false"
  | .number text => text
  | .string s => stringText s
  | .array items => bracket style depth "[" "]" (renderItems style (depth + 1) items)
  | .object fields => bracket style depth "\x7b" "\x7d" (renderFields style (depth + 1) fields)

def renderItems (style : Style) (depth : Nat) : List Json → List String
  | [] => []
  | item :: items => render style depth item :: renderItems style depth items

def renderFields (style : Style) (depth : Nat) : List (String × Json) → List String
  | [] => []
  | (name, value) :: fields =>
    (stringText name ++ ": " ++ render style depth value) :: renderFields style depth fields

end

def compact (value : Json) : String :=
  value.render Style.inline 0

def pretty (value : Json) : String :=
  value.render (Style.indented 4) 0

/-! ### Reading -/

def skipBlanks (cs : List Char) : List Char :=
  cs.dropWhile fun c => c == ' ' || c == '\t' || c == '\n' || c == '\r'

def hexDigit? (c : Char) : Option Nat :=
  if '0' ≤ c && c ≤ '9' then some (c.toNat - 48)
  else if 'a' ≤ c && c ≤ 'f' then some (c.toNat - 87)
  else if 'A' ≤ c && c ≤ 'F' then some (c.toNat - 55)
  else none

def readUnit? : List Char → Option (Nat × List Char)
  | a :: b :: c :: d :: rest => do
    return ((((← hexDigit? a) * 16 + (← hexDigit? b)) * 16 + (← hexDigit? c)) * 16 +
      (← hexDigit? d), rest)
  | _ => none

def escapeOf? : Char → Option Char
  | '"' => some '"'
  | '\\' => some '\\'
  | '/' => some '/'
  | 'b' => some (Char.ofNat 8)
  | 'f' => some (Char.ofNat 12)
  | 'n' => some '\n'
  | 'r' => some '\r'
  | 't' => some '\t'
  | _ => none

/-- The rest of a string after its opening quote. -/
def readString? : Nat → List Char → Option (List Char × List Char)
  | 0, _ => none
  | _, [] => none
  | _, '"' :: rest => some ([], rest)
  | fuel + 1, '\\' :: 'u' :: rest => do
    let (high, after) ← readUnit? rest
    let low : Option (Nat × List Char) := match after with
      | '\\' :: 'u' :: more => readUnit? more
      | _ => none
    match low with
    | some (low, more) =>
      if 0xD800 ≤ high && high < 0xDC00 && 0xDC00 ≤ low && low < 0xE000 then do
        let (text, tail) ← readString? fuel more
        return (Char.ofNat (0x10000 + (high - 0xD800) * 1024 + (low - 0xDC00)) :: text, tail)
      else do
        let (text, tail) ← readString? fuel after
        return (Char.ofNat high :: text, tail)
    | none => do
      let (text, tail) ← readString? fuel after
      return (Char.ofNat high :: text, tail)
  | fuel + 1, '\\' :: c :: rest => do
    let escaped ← escapeOf? c
    let (text, tail) ← readString? fuel rest
    return (escaped :: text, tail)
  | fuel + 1, c :: rest => do
    if c.toNat < 32 || c = '\\' then none
    else
      let (text, tail) ← readString? fuel rest
      return (c :: text, tail)

def isDecimal (c : Char) : Bool :=
  '0' ≤ c && c ≤ '9'

/-- One digit or more. -/
def readDigits? (cs : List Char) : Option (List Char × List Char) :=
  match cs.takeWhile isDecimal with
  | [] => none
  | digits => some (digits, cs.dropWhile isDecimal)

/-- Digits without a leading zero. -/
def readWhole? : List Char → Option (List Char × List Char)
  | '0' :: rest => some (['0'], rest)
  | cs => readDigits? cs

/-- A point and digits, if they follow. -/
def readFraction (cs : List Char) : List Char × List Char :=
  match cs with
  | '.' :: rest =>
    match readDigits? rest with
    | some (digits, tail) => ('.' :: digits, tail)
    | none => ([], cs)
  | _ => ([], cs)

/-- An exponent, if one follows. -/
def readExponent (cs : List Char) : List Char × List Char :=
  match cs with
  | e :: rest =>
    if e = 'e' || e = 'E' then
      let (sign, digits) := match rest with
        | '+' :: more => (['+'], more)
        | '-' :: more => (['-'], more)
        | _ => ([], rest)
      match readDigits? digits with
      | some (found, tail) => (e :: sign ++ found, tail)
      | none => ([], cs)
    else ([], cs)
  | [] => ([], cs)

def readNumber? (cs : List Char) : Option (List Char × List Char) := do
  let (sign, rest) := match cs with
    | '-' :: rest => (['-'], rest)
    | _ => ([], cs)
  let (whole, rest) ← readWhole? rest
  let (fraction, rest) := readFraction rest
  let (exponent, rest) := readExponent rest
  return (sign ++ whole ++ fraction ++ exponent, rest)

def dropWord? (word : String) (cs : List Char) : Option (List Char) :=
  if word.toList.isPrefixOf cs then some (cs.drop word.length) else none

/-- The words that stand for themselves. -/
def words : List (String × Json) :=
  [("null", .null), ("true", .bool true), ("false", .bool false), ("NaN", .number "NaN"),
   ("Infinity", .number "Infinity"), ("-Infinity", .number "-Infinity")]

def readWord? (cs : List Char) : Option (Json × List Char) :=
  words.findSome? fun (word, value) => (dropWord? word cs).map fun rest => (value, rest)

mutual

def readValue? : Nat → List Char → Option (Json × List Char)
  | 0, _ => none
  | fuel + 1, cs =>
    match cs with
    | '"' :: rest => do
      let (text, tail) ← readString? rest.length rest
      return (.string (String.ofList text), tail)
    | '[' :: rest =>
      match skipBlanks rest with
      | ']' :: tail => some (.array [], tail)
      | items => do
        let (found, tail) ← readItems? fuel items
        return (.array found, tail)
    | '\x7b' :: rest =>
      match skipBlanks rest with
      | '\x7d' :: tail => some (.object [], tail)
      | fields => do
        let (found, tail) ← readFields? fuel fields
        return (.object found, tail)
    | _ =>
      match readWord? cs with
      | some found => some found
      | none => (readNumber? cs).map fun (text, tail) => (.number (String.ofList text), tail)

/-- The items of an array, up to its closing bracket. -/
def readItems? : Nat → List Char → Option (List Json × List Char)
  | 0, _ => none
  | fuel + 1, cs => do
    let (item, rest) ← readValue? fuel cs
    match skipBlanks rest with
    | ']' :: tail => return ([item], tail)
    | ',' :: more =>
      let (items, tail) ← readItems? fuel (skipBlanks more)
      return (item :: items, tail)
    | _ => none

/-- The fields of an object, up to its closing brace. -/
def readFields? : Nat → List Char → Option (List (String × Json) × List Char)
  | 0, _ => none
  | fuel + 1, cs =>
    match cs with
    | '"' :: rest => do
      let (name, rest) ← readString? rest.length rest
      match skipBlanks rest with
      | ':' :: rest =>
        let (value, rest) ← readValue? fuel (skipBlanks rest)
        match skipBlanks rest with
        | '\x7d' :: tail => return ([(String.ofList name, value)], tail)
        | ',' :: more =>
          let (fields, tail) ← readFields? fuel (skipBlanks more)
          return ((String.ofList name, value) :: fields, tail)
        | _ => none
      | _ => none
    | _ => none

end

def parse? (cs : List Char) : Option Json :=
  match readValue? (cs.length + 1) (skipBlanks cs) with
  | some (value, rest) => if (skipBlanks rest).isEmpty then some value else none
  | none => none

end Json

end MovieDiff.Text
