import Wattle.Ast
import Wattle.Instr
import Wattle.Options

/-!
# Lowering

The code of expressions and statements.  The code of an expression leaves its value on the stack,
except that an assignment takes its value away.  Statements run one after the other on one stack.
-/

namespace Wattle

/-! ### expressions -/

/-- the type of the operands of a binary node: what is compared, or what is computed -/
def BinaryOp.operandType (op : BinaryOp) (left : Expr) (result : DataType) : DataType :=
  if op.isComparison then left.type else result

/-- what follows the code of an operand -/
def EmitOptions.conversion (options : EmitOptions) (wanted found : DataType) : List Instr :=
  if options.convertMixedOperands && wanted == .double && found == .int then [.convert] else []

namespace Expr

mutual

def code (options : EmitOptions) : Expr → List Instr
  | number value type _ => [.const value type]
  | var name _ _ => [.localGet name]
  | neg operand type _ => .zero type :: (operand.code options ++ [.binary .sub type])
  | binary op left right type _ =>
    let wanted := op.operandType left type
    left.code options ++ options.conversion wanted left.type ++
      (right.code options ++ options.conversion wanted right.type ++ [.binary op wanted])
  | assign target value _ _ => value.code options ++ [.localSet target.name]
  | call callee args _ _ => argsCode options args ++ [.call callee.name args.length]

def argsCode (options : EmitOptions) : List Expr → List Instr
  | [] => []
  | e :: es => e.code options ++ argsCode options es

end

end Expr

/-! ### statements -/

/-- what follows the code of an expression statement -/
def EmitOptions.disposal (options : EmitOptions) (keep : Bool) (e : Expr) : List Instr :=
  if options.dropExpressionValues && !keep && !e.isAssign then [.drop] else []

namespace Stmt

mutual

/-- the code of a statement, which may be asked to keep its value on the stack -/
def code (options : EmitOptions) (keep : Bool) : Stmt → List Instr
  | declaration _ name _ initializer _ _ => initializer.code options ++ [.localSet name.name]
  | ret argument _ => argument.code options
  | conditional condition consequent alternate _ =>
    condition.code options ++
      [.conditional (branchCode options consequent) (alternateCode options alternate)]
  | expression e _ => e.code options ++ options.disposal keep e

/-- the code of a branch, which keeps no value -/
def branchCode (options : EmitOptions) : List Stmt → List Instr
  | [] => []
  | s :: ss => s.code options false ++ branchCode options ss

def alternateCode (options : EmitOptions) : Option (List Stmt) → Option (List Instr)
  | none => none
  | some ss => some (branchCode options ss)

end

/-- the code of a body, whose last statement keeps its value -/
def bodyCode (options : EmitOptions) : List Stmt → List Instr
  | [] => []
  | [s] => s.code options true
  | s :: ss => s.code options false ++ bodyCode options ss

/-! ### variables -/

mutual

/-- the variables that a statement declares at any depth, in the order of the text -/
def declarations : Stmt → List Binding
  | declaration _ name type _ _ _ => [⟨name, type⟩]
  | ret _ _ => []
  | conditional _ consequent alternate _ =>
    branchDeclarations consequent ++ alternateDeclarations alternate
  | expression _ _ => []

def branchDeclarations : List Stmt → List Binding
  | [] => []
  | s :: ss => s.declarations ++ branchDeclarations ss

def alternateDeclarations : Option (List Stmt) → List Binding
  | none => []
  | some ss => branchDeclarations ss

end

end Stmt

end Wattle
