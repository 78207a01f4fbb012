import Wattle.DataType
import Wattle.Operator
import Wattle.Proofs.Number.Arithmetic

/-!
# Values and operators

The values of programs and of the machine, and what the operators of programs do with them.  An
`Int` is a word of 32 bits, whose arithmetic is that of the whole numbers, wrapped.  An operator on
an `Int` and a `Double` converts the `Int`.
-/

namespace Wattle

inductive Value where
  | int (n : BitVec 32)
  | double (x : Double)
deriving DecidableEq

namespace Value

def type : Value → DataType
  | int _ => .int
  | double _ => .double

/-- the value of a variable before it is set -/
def zero : DataType → Value
  | .int => int 0
  | .double => double (.zero false)

/-- the word of a whole number -/
def wrap (n : Int) : Value := int (.ofInt 32 n)

def ofBool (b : Bool) : Value := int (if b then 1 else 0)

/-- what a number in a program stands for -/
def ofLiteral (x : Double) : DataType → Value
  | .int => wrap (x.units / 2 ^ 1074 : Nat)
  | .double => double x

def toDouble : Value → Double
  | int n => .ofInt n.toInt
  | double x => x

@[simp] theorem type_zero (type : DataType) : (zero type).type = type := by cases type <;> rfl

@[simp] theorem type_ofLiteral (x : Double) (type : DataType) :
    (ofLiteral x type).type = type := by
  cases type <;> rfl

end Value

/-- a run that gives no value: it traps, or it goes wrong where no program of the right types
does -/
inductive Halt where
  | trap
  | stuck
deriving DecidableEq

namespace BinaryOp

/-- a quotient is cut towards zero; it traps for the divisor `0`, and where it is too large -/
def onInts : BinaryOp → Int → Int → Except Halt Value
  | add, a, b => .ok (.wrap (a + b))
  | sub, a, b => .ok (.wrap (a - b))
  | mul, a, b => .ok (.wrap (a * b))
  | div, a, b => if b = 0 ∨ a.tdiv b = 2 ^ 31 then .error .trap else .ok (.wrap (a.tdiv b))
  | eq, a, b => .ok (.ofBool (a == b))
  | ne, a, b => .ok (.ofBool (a != b))
  | lt, a, b => .ok (.ofBool (decide (a < b)))
  | le, a, b => .ok (.ofBool (decide (a ≤ b)))
  | gt, a, b => .ok (.ofBool (decide (a > b)))
  | ge, a, b => .ok (.ofBool (decide (a ≥ b)))

def onDoubles : BinaryOp → Double → Double → Value
  | add, x, y => .double (x.add y)
  | sub, x, y => .double (x.sub y)
  | mul, x, y => .double (x.mul y)
  | div, x, y => .double (x.div y)
  | eq, x, y => .ofBool (x.eq y)
  | ne, x, y => .ofBool (!x.eq y)
  | lt, x, y => .ofBool (x.lt y)
  | le, x, y => .ofBool (x.le y)
  | gt, x, y => .ofBool (y.lt x)
  | ge, x, y => .ofBool (y.le x)

def apply (op : BinaryOp) : Value → Value → Except Halt Value
  | .int a, .int b => op.onInts a.toInt b.toInt
  | u, v => .ok (op.onDoubles u.toDouble v.toDouble)

end BinaryOp

end Wattle
