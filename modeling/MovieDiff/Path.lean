import MovieDiff.Text.Lines
import MovieDiff.Text.Numeral
import MovieDiff.Text.Utf8

/-!
Paths: a root, or none, and the names below it. Empty names and single dots are dropped when a
path is read, a double dot is kept. Paths are ordered by their parts, so a directory comes just
before what it holds.
-/
namespace MovieDiff

/-- Two slashes at the start are a root of their own; any other number of them is one. -/
inductive PathRoot where
  | none
  | slash
  | doubleSlash
  deriving DecidableEq, Repr

structure Path where
  root : PathRoot
  names : List String
  deriving DecidableEq, Repr

namespace PathRoot

def text : PathRoot → String
  | none => ""
  | slash => "/"
  | doubleSlash => "//"

def ofText : List Char → PathRoot
  | '/' :: '/' :: '/' :: _ => slash
  | '/' :: '/' :: _ => doubleSlash
  | '/' :: _ => slash
  | _ => none

end PathRoot

namespace Path

def empty : Path := ⟨.none, []⟩

def ofString (s : String) : Path :=
  let pieces := (Text.splitAtChar '/' s.toList).map String.ofList
  ⟨PathRoot.ofText s.toList, pieces.filter fun name => name ≠ "" ∧ name ≠ "."⟩

/-- The empty path is written as a dot. -/
def text (p : Path) : String :=
  if p = empty then "." else p.root.text ++ "/".intercalate p.names

/-- The root, if there is one, then the names. -/
def parts (p : Path) : List String :=
  match p.root with
  | .none => p.names
  | root => root.text :: p.names

def le (p q : Path) : Bool :=
  !decide (q.parts < p.parts)

def sort (paths : List Path) : List Path :=
  paths.mergeSort le

/-- An absolute path replaces what it is appended to. -/
def append (p q : Path) : Path :=
  match q.root with
  | .none => ⟨p.root, p.names ++ q.names⟩
  | _ => q

instance : Append Path := ⟨append⟩

def child (p : Path) (name : String) : Path :=
  ⟨p.root, p.names ++ [name]⟩

def parent (p : Path) : Path :=
  ⟨p.root, p.names.dropLast⟩

def name (p : Path) : String :=
  p.names.getLastD ""

/-- Cuts a name before its last dot, unless the dot is its first or last character. -/
def splitName (name : String) : String × String :=
  let (after, before) := name.toList.reverse.span (· ≠ '.')
  match before with
  | _ :: stem =>
    if after = [] ∨ stem = [] then (name, "")
    else (String.ofList stem.reverse, String.ofList ('.' :: after.reverse))
  | [] => (name, "")

def stem (p : Path) : String :=
  (splitName p.name).1

/-- Replaces the ending of the last name, or appends one. -/
def withSuffix (p : Path) (suffix : String) : Path :=
  p.parent.child (p.stem ++ suffix)

def isWithin (p dir : Path) : Bool :=
  p.root == dir.root && dir.names.isPrefixOf p.names

/-- What remains of a path below a directory. -/
def below (p dir : Path) : Path :=
  ⟨.none, p.names.drop dir.names.length⟩

/-- Lets every double dot cancel the name before it. -/
def cancelDots (names : List String) : List String :=
  names.foldl (fun kept name => if name = ".." then kept.dropLast else kept ++ [name]) []

/-- An absolute path without double dots, where no links exist. -/
def resolve (p : Path) : Path :=
  ⟨.slash, cancelDots p.names⟩

end Path

/-! ### Addresses -/

/-- Bytes that stand for themselves in an address. -/
def isAddressByte (b : UInt8) : Bool :=
  let c := Char.ofNat b.toNat
  c.isAlphanum || c == '_' || c == '.' || c == '-' || c == '~' || c == '/'

def addressByte (b : UInt8) : List Char :=
  if isAddressByte b then [Char.ofNat b.toNat]
  else '%' :: (Text.hexText 2 b.toNat).map Char.toUpper

/-- The address of an absolute path: its bytes, those that are not plain written as two digits. -/
def Path.address (p : Path) : String :=
  "file://" ++ String.ofList ((Text.encode p.text).flatMap addressByte)

end MovieDiff
