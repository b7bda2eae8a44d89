/-!
Numbers as text: natural numbers in hexadecimal, and doubles that are finite and not negative in
decimal. The exact binary value of a double is rounded, a half to the even neighbour.
-/
namespace MovieDiff.Text

/-- Hexadecimal text with a fixed number of digits. -/
def hexText (width : Nat) (n : Nat) : List Char :=
  (List.range width).map fun i => Nat.digitChar (n / Nat.pow 16 (width - 1 - i) % 16)

structure Binary where
  mantissa : Nat
  exponent : Int
  deriving DecidableEq, Repr

def Binary.ofFloat (x : Float) : Binary :=
  let bits := x.toBits.toNat
  let fraction := bits % Nat.pow 2 52
  let exponent : Nat := bits / Nat.pow 2 52 % Nat.pow 2 11
  if exponent = 0 then ⟨fraction, -1074⟩ else ⟨Nat.pow 2 52 + fraction, (exponent : Int) - 1075⟩

/-- The quotient to the nearest whole number. -/
def roundDiv (num den : Nat) : Nat :=
  let quotient := num / den
  let rest := 2 * (num % den)
  if rest < den then quotient
  else if den < rest then quotient + 1
  else quotient + quotient % 2

/-- The nearest multiple of one over `scale`, as a multiple. -/
def Binary.scaled (x : Binary) (scale : Nat) : Nat :=
  roundDiv (x.mantissa * scale * Nat.pow 2 x.exponent.toNat) (Nat.pow 2 (-x.exponent).toNat)

def nearestWhole (x : Float) : Nat :=
  (Binary.ofFloat x).scaled 1

def fixedPlaces (places : Nat) (x : Float) : String :=
  let scale := Nat.pow 10 places
  let units := (Binary.ofFloat x).scaled scale
  let digits := toString (units % scale)
  let zeros := String.ofList (List.replicate (places - digits.length) '0')
  s!"{units / scale}.{zeros}{digits}"

end MovieDiff.Text
