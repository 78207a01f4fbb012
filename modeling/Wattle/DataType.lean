/-!
# The two data types

A value is an `Int`, a word of 32 bits, or a `Double`, a binary floating-point number of 64 bits.
-/

namespace Wattle

inductive DataType where
  | int
  | double
deriving DecidableEq, Inhabited

namespace DataType

/-- the name of the type in programs -/
def text : DataType → String
  | int => "Int"
  | double => "Double"

/-- the type of a sum, a difference, a product or a quotient: `double` wins -/
def join : DataType → DataType → DataType
  | int, int => int
  | _, _ => double

end DataType

end Wattle
