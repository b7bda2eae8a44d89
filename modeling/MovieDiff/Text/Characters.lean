/-!
Classes of characters: sets of code points, blanks and decimal digits, with the ways a text is
freed of its blanks and read as a number.
-/
namespace MovieDiff.Text

/-- Membership in the set that boundaries in increasing order describe: the first is where it
starts, the second where it stops, the third where it starts again, and so on. A stop is not a
member. -/
def inRanges : List Nat → Nat → Bool
  | start :: stop :: rest, n => if n < start then false else n < stop || inRanges rest n
  | _, _ => false

/-! ### Blanks -/

/-- White space of every script. -/
def isBlank (c : Char) : Bool :=
  let n := c.toNat
  (9 ≤ n && n ≤ 13) || (28 ≤ n && n ≤ 32) || n == 0x85 || n == 0xA0 || n == 0x1680 ||
    (0x2000 ≤ n && n ≤ 0x200A) || n == 0x2028 || n == 0x2029 || n == 0x202F || n == 0x205F ||
    n == 0x3000

def stripLeft (cs : List Char) : List Char :=
  cs.dropWhile isBlank

def stripRight (cs : List Char) : List Char :=
  (cs.reverse.dropWhile isBlank).reverse

def strip (cs : List Char) : List Char :=
  stripRight (stripLeft cs)

/-- A text of blanks only; the empty text is one. -/
def isBlankText (cs : List Char) : Bool :=
  cs.all isBlank

/-! ### Digits -/

/-- Decimal digits of every script (general category Nd), in runs of whole tens, zero to nine. -/
def digitBounds : List Nat :=
  [48, 58, 1632, 1642, 1776, 1786, 1984, 1994, 2406, 2416, 2534, 2544, 2662, 2672, 2790, 2800,
   2918, 2928, 3046, 3056, 3174, 3184, 3302, 3312, 3430, 3440, 3558, 3568, 3664, 3674, 3792,
   3802, 3872, 3882, 4160, 4170, 4240, 4250, 6112, 6122, 6160, 6170, 6470, 6480, 6608, 6618,
   6784, 6794, 6800, 6810, 6992, 7002, 7088, 7098, 7232, 7242, 7248, 7258, 42528, 42538, 43216,
   43226, 43264, 43274, 43472, 43482, 43504, 43514, 43600, 43610, 44016, 44026, 65296, 65306,
   66720, 66730, 68912, 68922, 69734, 69744, 69872, 69882, 69942, 69952, 70096, 70106, 70384,
   70394, 70736, 70746, 70864, 70874, 71248, 71258, 71360, 71370, 71472, 71482, 71904, 71914,
   72016, 72026, 72784, 72794, 73040, 73050, 73120, 73130, 92768, 92778, 92864, 92874, 93008,
   93018, 120782, 120832, 123200, 123210, 123632, 123642, 125264, 125274, 130032, 130042]

def isDigit (c : Char) : Bool :=
  if c.val < 128 then '0' ≤ c && c ≤ '9' else inRanges digitBounds c.toNat

/-- The value of the digit at a code point, by the blocks of tens. -/
def digitValueIn : List Nat → Nat → Nat
  | start :: stop :: rest, n => if n < stop then (n - start) % 10 else digitValueIn rest n
  | _, _ => 0

/-- The number that a list of digits writes. -/
def numberOf (digits : List Char) : Nat :=
  digits.foldl (fun n c => 10 * n + digitValueIn digitBounds c.toNat) 0

end MovieDiff.Text
