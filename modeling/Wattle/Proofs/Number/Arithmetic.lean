import Wattle.Number.Double

/-!
# Arithmetic of double-precision numbers

The four operations, the comparisons and the conversion of whole numbers, each as the exact result
rounded to the nearest number.  What is not a number, as a result, is always the same positive
word.  Only nearest rounding is needed, so that a sum of opposite numbers is the positive zero.
-/

namespace Wattle

namespace Double

/-- the value in units of `2 ^ (-1074)`; infinity is above and below all other values -/
def signedUnits (x : Double) : Int := if x.negative then -x.units else x.units

def isZero (x : Double) : Bool := x.units == 0

/-- the same magnitude with the other sign -/
def flip (x : Double) : Double := ofMagnitude (!x.negative) (x.bits.toNat % 2 ^ 63)

def ofInt (n : Int) : Double := ofRatio (decide (n < 0)) n.natAbs 1

/-! ### operations -/

def add (x y : Double) : Double :=
  if x.isNaN || y.isNaN then nan false
  else if x.isInfinite then if y.isInfinite && x.negative != y.negative then nan false else x
  else if y.isInfinite then y
  else
    let sum := x.signedUnits + y.signedUnits
    if sum = 0 then zero (x.negative && y.negative)
    else ofRatio (decide (sum < 0)) sum.natAbs (2 ^ 1074)

def sub (x y : Double) : Double := x.add y.flip

def mul (x y : Double) : Double :=
  let negative := x.negative != y.negative
  if x.isNaN || y.isNaN then nan false
  else if x.isInfinite || y.isInfinite then
    if x.isZero || y.isZero then nan false else infinity negative
  else ofRatio negative (x.units * y.units) (2 ^ 1074 * 2 ^ 1074)

def div (x y : Double) : Double :=
  let negative := x.negative != y.negative
  if x.isNaN || y.isNaN then nan false
  else if x.isInfinite then if y.isInfinite then nan false else infinity negative
  else if y.isInfinite then zero negative
  else if y.isZero then if x.isZero then nan false else infinity negative
  else ofRatio negative x.units y.units

/-! ### comparisons -/

/-- nothing is equal to what is not a number, and the two zeros are equal -/
def eq (x y : Double) : Bool := !x.isNaN && !y.isNaN && x.signedUnits == y.signedUnits

def lt (x y : Double) : Bool := !x.isNaN && !y.isNaN && decide (x.signedUnits < y.signedUnits)

def le (x y : Double) : Bool := !x.isNaN && !y.isNaN && decide (x.signedUnits ≤ y.signedUnits)

end Double

end Wattle
