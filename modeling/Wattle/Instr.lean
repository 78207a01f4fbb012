import Wattle.DataType
import Wattle.Number.Layout
import Wattle.Operator

/-!
# Instructions

The instructions of the stack machine that programs are lowered to, as a tree: a conditional holds
the code of its branches.  `Instr.text` spells them in the text form.
-/

namespace Wattle

/-! ### names -/

/-- the machine's type of values: whole numbers are words of 32 bits -/
def DataType.machineText : DataType → String
  | .int => "i32"
  | .double => "f64"

/-- the name of an operator's instruction without its type; division and order of whole numbers are
the signed ones -/
def BinaryOp.mnemonic : BinaryOp → DataType → String
  | .add, _ => "add"
  | .sub, _ => "sub"
  | .mul, _ => "mul"
  | .eq, _ => "eq"
  | .ne, _ => "ne"
  | .div, .int => "div_s"
  | .lt, .int => "lt_s"
  | .le, .int => "le_s"
  | .gt, .int => "gt_s"
  | .ge, .int => "ge_s"
  | .div, .double => "div"
  | .lt, .double => "lt"
  | .le, .double => "le"
  | .gt, .double => "gt"
  | .ge, .double => "ge"

def BinaryOp.opcode (op : BinaryOp) (type : DataType) : String :=
  type.machineText ++ "." ++ op.mnemonic type

/-! ### instructions -/

inductive Instr where
  | intConst (value : Int)
  | doubleConst (value : Double)
  /-- the zero that a `Double` is subtracted from to negate it -/
  | doubleZero
  | localGet (name : String)
  | localSet (name : String)
  | binary (op : BinaryOp) (type : DataType)
  /-- from `Int` to `Double` -/
  | convert
  | drop
  /-- a call, with the number of its arguments, which is not written -/
  | call (callee : String) (arity : Nat)
  | conditional (consequent : List Instr) (alternate : Option (List Instr))

namespace Instr

/-- the constant of a literal -/
def const (value : Double) : DataType → Instr
  | .int => intConst value.toWord
  | .double => doubleConst value

/-- the zero that a negated number is subtracted from -/
def zero : DataType → Instr
  | .int => intConst 0
  | .double => doubleZero

/-- constants are written out from `0.0001` up to below `10 ^ 16`, a tie between two shortest
fractions goes up, and exponents have no plus sign -/
def constLayout : Layout := ⟨-4, 15, false, .up⟩

/-- a branch: its word and its instructions, a line each -/
def branchText (word : String) (lines : List String) : String :=
  if lines.isEmpty then "(" ++ word ++ ")"
  else "(" ++ word ++ " " ++ "\n".intercalate lines ++ ")"

mutual

/-- the spelling of an instruction -/
def text : Instr → String
  | intConst n => "i32.const " ++ toString n
  | doubleConst x => "f64.const " ++ constLayout.text x
  | doubleZero => "f64.const 0"
  | localGet name => "local.get $" ++ name
  | localSet name => "local.set $" ++ name
  | binary op type => op.opcode type
  | convert => "f64.convert_i32_s"
  | drop => "drop"
  | call callee _ => "call $" ++ callee
  | conditional consequent alternate =>
    "(if " ++ branchText "then" (texts consequent) ++ elseText alternate ++ ")"

def texts : List Instr → List String
  | [] => []
  | i :: is => i.text :: texts is

/-- the branch for `0`, if there is one -/
def elseText : Option (List Instr) → String
  | none => ""
  | some is => " " ++ branchText "else" (texts is)

end

theorem texts_eq_map (is : List Instr) : texts is = is.map text := by
  induction is with
  | nil => rfl
  | cons i is ih => simp [texts, ih]

end Instr

end Wattle
