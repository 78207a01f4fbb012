import Wattle.Number.Double

/-!
# Reading numbers

The spellings of numbers: whole numbers of 32 bits, and decimal fractions, which are read to the
nearest `Double`.  A fraction has a sign, digits on at least one side of an optional point, and an
optional exponent; infinity and not-a-number are written by name.
-/

namespace Wattle

/-- the number that a run of digits denotes -/
def digitsValue (cs : List Char) : Nat := Nat.ofDigitChars 10 cs 0

/-! ### whole numbers -/

/-- a whole number below `2 ^ 32`: digits, after a plus sign or none -/
def word? (s : String) : Option Nat :=
  let digits := match s.toList with
    | '+' :: cs => cs
    | cs => cs
  if digits.isEmpty || !digits.all Char.isDigit then none
  else if digitsValue digits < 2 ^ 32 then some (digitsValue digits)
  else none

/-! ### decimal fractions -/

/-- the magnitude `digits * 10 ^ exponent` -/
structure Decimal where
  digits : Nat
  exponent : Int
deriving DecidableEq

namespace Decimal

/-- a sign at the front of a text; only a minus sign negates -/
def splitSign : List Char → Bool × List Char
  | '-' :: cs => (true, cs)
  | '+' :: cs => (false, cs)
  | cs => (false, cs)

/-- an exponent up to the end of a text, `0` if there is none -/
def exponent? : List Char → Option Int
  | [] => some 0
  | c :: cs =>
    if c = 'e' ∨ c = 'E' then
      let (negative, digits) := splitSign cs
      if digits.isEmpty || !digits.all Char.isDigit then none
      else some (if negative then -digitsValue digits else digitsValue digits)
    else none

/-- digits, an optional point with digits, and an optional exponent -/
def ofChars? (cs : List Char) : Option Decimal :=
  let whole := cs.takeWhile Char.isDigit
  let (fraction, rest) := match cs.dropWhile Char.isDigit with
    | '.' :: rest => (rest.takeWhile Char.isDigit, rest.dropWhile Char.isDigit)
    | rest => ([], rest)
  if whole.isEmpty && fraction.isEmpty then none
  else (exponent? rest).map fun e => ⟨digitsValue (whole ++ fraction), e - fraction.length⟩

end Decimal

namespace Double

/-- the number nearest to a decimal fraction.  Magnitudes of `10 ^ 309` and more are infinite, and
those below `10 ^ (-324)` are nearest to zero. -/
def ofDecimal (negative : Bool) (d : Decimal) : Double :=
  let places := (Nat.toDigits 10 d.digits).length
  if d.digits = 0 ∨ d.exponent + places ≤ -324 then zero negative
  else if 310 ≤ d.exponent + places then infinity negative
  else ofRatio negative (d.digits * 10 ^ d.exponent.toNat) (10 ^ (-d.exponent).toNat)

/-- the number that a text spells; names are read in any case -/
def ofText? (s : String) : Option Double :=
  let (negative, cs) := Decimal.splitSign s.toList
  let name := String.ofList (cs.map Char.toLower)
  if name = "inf" ∨ name = "infinity" then some (infinity negative)
  else if name = "nan" then some (nan negative)
  else (Decimal.ofChars? cs).map (ofDecimal negative)

end Double

end Wattle
