/-!
# Double-precision numbers

A `Double` is a word of 64 bits: a sign, eleven bits of exponent and a fraction of 52 bits.  Every
finite magnitude is a whole multiple of `2 ^ (-1074)`, and `Double.units` is that multiple, so that
all arithmetic below is exact arithmetic on natural numbers.  `Double.ofRatio` rounds a quotient to
the nearest magnitude, a half to the even neighbour.
-/

namespace Wattle

-- powers of numbers are those of the core library, whatever else is imported
attribute [instance (20000), default_instance 20000] instPowNat

/-- the whole number nearest to a quotient, a half to the even neighbour -/
def roundHalfEven (num den : Nat) : Nat :=
  let q := num / den
  let r := num % den
  if 2 * r < den then q else if den < 2 * r then q + 1 else q + q % 2

theorem roundHalfEven_mul {n den : Nat} (h : 0 < den) : roundHalfEven (n * den) den = n := by
  simp [roundHalfEven, Nat.mul_div_cancel _ h, h]

structure Double where
  bits : UInt64
deriving DecidableEq, Inhabited

namespace Double

/-! ### the fields of the word -/

def negative (x : Double) : Bool := 2 ^ 63 ≤ x.bits.toNat

/-- the exponent as it is stored -/
def scale (x : Double) : Nat := x.bits.toNat / 2 ^ 52 % 2 ^ 11

def fraction (x : Double) : Nat := x.bits.toNat % 2 ^ 52

def isFinite (x : Double) : Bool := x.scale != 2047
def isInfinite (x : Double) : Bool := x.scale == 2047 && x.fraction == 0
def isNaN (x : Double) : Bool := x.scale == 2047 && x.fraction != 0

/-- the fraction with its leading bit, which is not stored -/
def significand (x : Double) : Nat := if x.scale = 0 then x.fraction else 2 ^ 52 + x.fraction

/-- the power of two that a unit of the significand is worth, in units of the smallest one -/
def shift (x : Double) : Nat := x.scale - 1

/-- the magnitude in units of `2 ^ (-1074)` -/
def units (x : Double) : Nat := x.significand * 2 ^ x.shift

/-! ### making numbers -/

/-- the word without its sign for the number nearest to `num / den` -/
def magnitude (num den : Nat) : Nat :=
  let v := num * 2 ^ 1074
  let q := (v / den).log2 - 52
  min (2047 * 2 ^ 52) (q * 2 ^ 52 + roundHalfEven v (den * 2 ^ q))

def ofMagnitude (negative : Bool) (m : Nat) : Double :=
  ⟨UInt64.ofNat (if negative then 2 ^ 63 + m else m)⟩

def zero (negative : Bool) : Double := ofMagnitude negative 0
def infinity (negative : Bool) : Double := ofMagnitude negative (2047 * 2 ^ 52)
def nan (negative : Bool) : Double := ofMagnitude negative (2047 * 2 ^ 52 + 2 ^ 51)

/-- the number nearest to a quotient; infinity where it is too large -/
def ofRatio (negative : Bool) (num den : Nat) : Double := ofMagnitude negative (magnitude num den)

def ofNat (n : Nat) : Double := ofRatio false n 1

/-! ### whole parts -/

/-- the whole part as a signed word of 64 bits: the nearest such word where it does not fit, and
`0` for what is not a number -/
def toWord (x : Double) : Int :=
  if x.isNaN then 0
  else
    let whole := x.units / 2 ^ 1074
    if x.negative then -(min whole (2 ^ 63) : Nat) else (min whole (2 ^ 63 - 1) : Nat)

end Double

end Wattle
