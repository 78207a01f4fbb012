import Wattle.Number.Shortest

/-!
# Spelling numbers

A number is spelled by its shortest decimal fraction.  A `Layout` says between which sizes the
fraction is written out in full, with at least one digit behind the point; outside of them it is
written with an exponent.
-/

namespace Wattle

structure Layout where
  /-- the smallest exponent of a first digit that is written out -/
  least : Int
  /-- the largest exponent of a first digit that is written out -/
  greatest : Int
  /-- whether a plus sign stands before a positive exponent -/
  plusSign : Bool
  tie : Tie

namespace Layout

/-- digits without the zeros at their end; the last digit left stays -/
def trimZeros (digits : List Char) : List Char :=
  match (digits.reverse.dropWhile (· = '0')).reverse with
  | [] => ['0']
  | ds => ds

def zeros (n : Nat) : List Char := List.replicate n '0'

/-- digits written out, the first one worth `10 ^ k` -/
def plain (digits : List Char) (k : Int) : List Char :=
  if k < 0 then '0' :: '.' :: zeros ((-k).toNat - 1) ++ digits
  else
    let places := k.toNat + 1
    if digits.length ≤ places then digits ++ zeros (places - digits.length) ++ ['.', '0']
    else digits.take places ++ '.' :: digits.drop places

/-- digits with an exponent, a point behind the first one -/
def scientific (plusSign : Bool) (digits : List Char) (k : Int) : List Char :=
  let fraction := match digits.drop 1 with
    | [] => []
    | ds => '.' :: ds
  let sign := if k < 0 then ['-'] else if plusSign then ['+'] else []
  digits.take 1 ++ fraction ++ 'e' :: sign ++ Nat.toDigits 10 k.natAbs

def decimal (layout : Layout) (d : Decimal) : List Char :=
  let digits := Nat.toDigits 10 d.digits
  let k := d.exponent + digits.length - 1
  if d.digits = 0 ∨ layout.least ≤ k ∧ k ≤ layout.greatest then plain (trimZeros digits) k
  else scientific layout.plusSign (trimZeros digits) k

/-- the spelling of a number -/
def text (layout : Layout) (x : Double) : String :=
  if x.isNaN then "NaN"
  else
    let sign := if x.negative then "-" else ""
    if x.isInfinite then sign ++ "inf"
    else sign ++ String.ofList (layout.decimal (x.shortest layout.tie))

end Layout

end Wattle
