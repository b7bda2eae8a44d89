import MovieDiff.Fault
import MovieDiff.Text.Characters
import MovieDiff.Text.Lines
import MovieDiff.Text.Lowercase

/-!
Colours as they are written in styles: a known name, a number of the palette, or the three
parts of the colour itself, in hexadecimal or decimal. Letter case does not matter.
-/
namespace MovieDiff.Text

/-- A colour by its text, in lower case. -/
structure Color where
  name : String
  deriving DecidableEq, Repr

namespace Color

def basicNames : List String :=
  ["black", "red", "green", "yellow", "blue", "magenta", "cyan", "white"]

/-- The levels of grey that have a name. -/
def greyLevels : List Nat :=
  [0, 3, 7, 11, 15, 19, 23, 27, 30, 35, 37, 39, 42, 46, 50, 53, 54, 58, 62, 63, 66, 69, 70, 74,
   78, 82, 84, 85, 89, 93, 100]

def paletteNames : List String :=
  ["navy_blue", "dark_blue", "blue3", "blue1", "dark_green", "deep_sky_blue4", "dodger_blue3",
   "dodger_blue2", "green4", "spring_green4", "turquoise4", "deep_sky_blue3", "dodger_blue1",
   "green3", "spring_green3", "dark_cyan", "light_sea_green", "deep_sky_blue2",
   "deep_sky_blue1", "spring_green2", "cyan3", "dark_turquoise", "turquoise2", "green1",
   "spring_green1", "medium_spring_green", "cyan2", "cyan1", "dark_red", "deep_pink4", "purple4",
   "purple3", "blue_violet", "orange4", "medium_purple4", "slate_blue3", "royal_blue1",
   "chartreuse4", "dark_sea_green4", "pale_turquoise4", "steel_blue", "steel_blue3",
   "cornflower_blue", "chartreuse3", "cadet_blue", "sky_blue3", "steel_blue1", "pale_green3",
   "sea_green3", "aquamarine3", "medium_turquoise", "chartreuse2", "sea_green2", "sea_green1",
   "aquamarine1", "dark_slate_gray2", "dark_magenta", "dark_violet", "purple", "light_pink4",
   "plum4", "medium_purple3", "slate_blue1", "yellow4", "wheat4", "light_slate_grey",
   "light_slate_gray", "medium_purple", "light_slate_blue", "dark_olive_green3",
   "dark_sea_green", "light_sky_blue3", "sky_blue2", "dark_sea_green3", "dark_slate_gray3",
   "sky_blue1", "chartreuse1", "light_green", "pale_green1", "dark_slate_gray1", "red3",
   "medium_violet_red", "magenta3", "dark_orange3", "indian_red", "hot_pink3", "medium_orchid3",
   "medium_orchid", "medium_purple2", "dark_goldenrod", "light_salmon3", "rosy_brown",
   "medium_purple1", "gold3", "dark_khaki", "navajo_white3", "light_steel_blue3",
   "light_steel_blue", "yellow3", "dark_sea_green2", "light_cyan3", "light_sky_blue1",
   "green_yellow", "dark_olive_green2", "dark_sea_green1", "pale_turquoise1", "deep_pink3",
   "magenta2", "hot_pink2", "orchid", "medium_orchid1", "orange3", "light_pink3", "pink3",
   "plum3", "violet", "light_goldenrod3", "tan", "misty_rose3", "thistle3", "plum2", "khaki3",
   "light_goldenrod2", "light_yellow3", "light_steel_blue1", "yellow2", "dark_olive_green1",
   "honeydew2", "light_cyan1", "red1", "deep_pink2", "deep_pink1", "magenta1", "orange_red1",
   "indian_red1", "hot_pink", "dark_orange", "salmon1", "light_coral", "pale_violet_red1",
   "orchid2", "orchid1", "orange1", "sandy_brown", "light_salmon1", "light_pink1", "pink1",
   "plum1", "gold1", "navajo_white1", "misty_rose1", "thistle1", "yellow1", "light_goldenrod1",
   "khaki1", "wheat1", "cornsilk1"]

/-- The part of a text after an opening, up to the bracket that ends it. -/
def argument? (opening : String) (cs : List Char) : Option (List Char) :=
  if opening.toList.isPrefixOf cs && cs.getLast? == some ')' then
    some ((cs.drop opening.length).dropLast)
  else none

def isKnownName (name : String) : Bool :=
  name == "default" || basicNames.contains name ||
    basicNames.any (fun basic => "bright_" ++ basic == name) ||
    greyLevels.any (fun level => name == s!"grey{level}" || name == s!"gray{level}") ||
    paletteNames.contains name

def isHexDigit (c : Char) : Bool :=
  '0' ≤ c && c ≤ '9' || 'a' ≤ c && c ≤ 'f'

def isHexadecimal : List Char → Bool
  | '#' :: digits => digits.length == 6 && digits.all isHexDigit
  | _ => false

/-- A number of the palette; three digits at most. -/
def isNumbered (cs : List Char) : Bool :=
  match argument? "color(" cs with
  | some digits =>
    !digits.isEmpty && digits.length ≤ 3 && digits.all Char.isDigit && numberOf digits ≤ 255
  | none => false

/-- One of three parts; blanks around it do not matter. -/
def part (cs : List Char) : Except Fault Nat :=
  let digits := strip cs
  if !digits.isEmpty && digits.all isDigit then .ok (numberOf digits)
  else .error (.notANumber (String.ofList cs))

/-- Whether a text gives three parts, none above 255. A part that is no number is a fault of
its own. -/
def isDecimal (cs : List Char) : Except Fault Bool := do
  let some inner := argument? "rgb(" cs | return false
  if inner.isEmpty || !inner.all (fun c => isDigit c || isBlank c || c == ',') then return false
  match splitAtChar ',' inner with
  | [red, green, blue] =>
    let red ← part red
    let green ← part green
    let blue ← part blue
    return red ≤ 255 && green ≤ 255 && blue ≤ 255
  | _ => return false

def ofString (text : String) : Except Fault Color := do
  let cs := strip (lowercase text).toList
  let color : Color := ⟨String.ofList cs⟩
  if isKnownName color.name || isHexadecimal cs || isNumbered cs then return color
  if ← isDecimal cs then return color
  throw (.notAColor text)

end Color

end MovieDiff.Text
