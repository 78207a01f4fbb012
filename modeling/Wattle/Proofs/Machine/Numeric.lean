import Wattle.Instr

/-!
# The numeric instructions of the machine

The instructions on two operands, as the machine knows them: their spellings and their types.  The
code that is written out names them in its text form, and `Numeric.ofText?` reads that name.
-/

namespace Wattle

/-! ### instructions -/

/-- the instructions on words of 32 bits; those with an `S` take the words as signed -/
inductive WordOp where
  | add | sub | mul | divS
  | eq | ne | ltS | leS | gtS | geS
deriving DecidableEq

inductive FloatOp where
  | add | sub | mul | div
  | eq | ne | lt | le | gt | ge
deriving DecidableEq

inductive Numeric where
  | word (op : WordOp)
  | float (op : FloatOp)
deriving DecidableEq

def WordOp.text : WordOp → String
  | add => "i32.add"
  | sub => "i32.sub"
  | mul => "i32.mul"
  | divS => "i32.div_s"
  | eq => "i32.eq"
  | ne => "i32.ne"
  | ltS => "i32.lt_s"
  | leS => "i32.le_s"
  | gtS => "i32.gt_s"
  | geS => "i32.ge_s"

def FloatOp.text : FloatOp → String
  | add => "f64.add"
  | sub => "f64.sub"
  | mul => "f64.mul"
  | div => "f64.div"
  | eq => "f64.eq"
  | ne => "f64.ne"
  | lt => "f64.lt"
  | le => "f64.le"
  | gt => "f64.gt"
  | ge => "f64.ge"

namespace Numeric

def text : Numeric → String
  | word op => op.text
  | float op => op.text

def all : List Numeric :=
  [.add, .sub, .mul, .divS, .eq, .ne, .ltS, .leS, .gtS, .geS].map word ++
    [.add, .sub, .mul, .div, .eq, .ne, .lt, .le, .gt, .ge].map float

/-- the instruction of a spelling -/
def ofText? (s : String) : Option Numeric := all.find? fun op => op.text == s

/-! ### types -/

/-- the type of both operands -/
def operand : Numeric → DataType
  | word _ => .int
  | float _ => .double

/-- a comparison gives a word whatever it compares -/
def result : Numeric → DataType
  | word _ => .int
  | float op =>
    match op with
    | .add | .sub | .mul | .div => .double
    | .eq | .ne | .lt | .le | .gt | .ge => .int

end Numeric

/-! ### operators -/

namespace BinaryOp

def wordOp : BinaryOp → WordOp
  | add => .add
  | sub => .sub
  | mul => .mul
  | div => .divS
  | eq => .eq
  | ne => .ne
  | lt => .ltS
  | le => .leS
  | gt => .gtS
  | ge => .geS

def floatOp : BinaryOp → FloatOp
  | add => .add
  | sub => .sub
  | mul => .mul
  | div => .div
  | eq => .eq
  | ne => .ne
  | lt => .lt
  | le => .le
  | gt => .gt
  | ge => .ge

def numeric (op : BinaryOp) : DataType → Numeric
  | .int => .word op.wordOp
  | .double => .float op.floatOp

/-- the instruction that an operator is written as -/
theorem ofText?_opcode (op : BinaryOp) (type : DataType) :
    Numeric.ofText? (op.opcode type) = some (op.numeric type) := by
  cases op <;> cases type <;> decide

@[simp] theorem operand_numeric (op : BinaryOp) (type : DataType) :
    (op.numeric type).operand = type := by
  cases type <;> rfl

@[simp] theorem result_numeric (op : BinaryOp) (type : DataType) :
    (op.numeric type).result = if op.isComparison then .int else type := by
  cases op <;> cases type <;> rfl

end BinaryOp

end Wattle
