import Wattle.Number.Decimal

/-!
# Shortest decimals

The decimal fraction with the fewest digits that reads back as a given number, and the nearest one
of those.  A number is what the fractions of an interval around it are rounded to; its ends belong
to it if the significand is even.  For one digit, two digits and so on, the two neighbours of the
number among the fractions of that length are tried: if any fraction of that length lies in the
interval, one of the two does.
-/

namespace Wattle

/-- what to do with a number half way between two fractions -/
inductive Tie where
  | up
  | even
deriving DecidableEq

/-- the fractions `x / den` with `low ≤ x ≤ high`, or without the two ends, around `mid / den` -/
structure Interval where
  low : Nat
  mid : Nat
  high : Nat
  den : Nat
  closed : Bool

namespace Interval

/-- whether `a * 10 ^ e` lies in the interval -/
def contains (i : Interval) (a : Nat) (e : Int) : Bool :=
  let x := a * 10 ^ e.toNat * i.den
  let ten := 10 ^ (-e).toNat
  if i.closed then i.low * ten ≤ x && x ≤ i.high * ten else i.low * ten < x && x < i.high * ten

/-- the exponent of the first digit of `num / den`, for `num` not zero -/
def leading (num den : Nat) : Int :=
  if den ≤ num then (Nat.toDigits 10 (num / den)).length - 1
  else -(Nat.toDigits 10 ((den - 1) / num)).length

/-- the multiple of `10 ^ e` nearest to the middle, among those in the interval -/
def nearest? (i : Interval) (tie : Tie) (e : Int) : Option Nat :=
  let num := i.mid * 10 ^ (-e).toNat
  let den := i.den * 10 ^ e.toNat
  let a := num / den
  let r := num % den
  match i.contains a e, i.contains (a + 1) e with
  | false, false => none
  | true, false => some a
  | false, true => some (a + 1)
  | true, true =>
    if 2 * r < den then some a
    else if den < 2 * r then some (a + 1)
    else match tie with
      | .up => some (a + 1)
      | .even => some (a + a % 2)

/-- tries `e`, and then ever smaller exponents -/
def search (i : Interval) (tie : Tie) : Nat → Int → Decimal
  | 0, e => ⟨i.mid * 10 ^ (-e).toNat / (i.den * 10 ^ e.toNat), e⟩
  | n + 1, e =>
    match i.nearest? tie e with
    | some a => ⟨a, e⟩
    | none => search i tie n (e - 1)

/-- the shortest fraction of the interval; seventeen digits tell any two numbers apart -/
def shortest (i : Interval) (tie : Tie) : Decimal := i.search tie 17 (leading i.mid i.den)

end Interval

namespace Double

/-- the fractions that are rounded to a number.  Below a power of two the numbers lie twice as
close. -/
def interval (x : Double) : Interval where
  low := 4 * x.units - (if x.significand = 2 ^ 52 ∧ 1 < x.scale then 1 else 2) * 2 ^ x.shift
  mid := 4 * x.units
  high := 4 * x.units + 2 * 2 ^ x.shift
  den := 4 * 2 ^ 1074
  closed := x.significand % 2 == 0

/-- the shortest fraction that reads back as the magnitude of a finite number -/
def shortest (x : Double) (tie : Tie) : Decimal :=
  if x.units = 0 then ⟨0, 0⟩ else x.interval.shortest tie

end Double

end Wattle
