import Wattle.Module
import Wattle.Proofs.Semantics.Value

/-!
# The meaning of programs

How the functions of a plain program are evaluated.  All variables of a function, at any depth,
are in one store from the start, where those that are not parameters are zero.  Statements run one
after the other, and the last one of a body gives its value.  An operator, a call and a condition
see values of the types that the program has them for; what does not occur in plain programs, such
as an assignment inside an expression, is stuck.
-/

namespace Wattle

/-! ### stores -/

abbrev Store : Type := String → Option Value

def Store.set (store : Store) (x : String) (v : Value) : Store :=
  fun y => if y = x then some v else store y

/-- how functions are called by their names -/
abbrev Calls : Type := String → List Value → Except Halt Value

/-! ### expressions -/

namespace Expr

mutual

def eval (calls : Calls) (store : Store) : Expr → Except Halt Value
  | number x type _ => .ok (.ofLiteral x type)
  | var x _ _ =>
    match store x with
    | some v => .ok v
    | none => .error .stuck
  | neg operand _ _ => do
    let v ← operand.eval calls store
    BinaryOp.sub.apply (.zero v.type) v
  | binary op left right _ _ => do
    let u ← left.eval calls store
    let v ← right.eval calls store
    op.apply u v
  | assign _ _ _ _ => .error .stuck
  | call callee args _ _ => do
    let vs ← argsEval calls store args
    calls callee.name vs

def argsEval (calls : Calls) (store : Store) : List Expr → Except Halt (List Value)
  | [] => .ok []
  | e :: es => do
    let v ← e.eval calls store
    let vs ← argsEval calls store es
    .ok (v :: vs)

end

end Expr

/-! ### statements -/

namespace Stmt

mutual

/-- the store behind a statement that is not a result -/
def exec (calls : Calls) : Stmt → Store → Except Halt Store
  | declaration _ name _ e _ _, store => do
    let v ← e.eval calls store
    .ok (store.set name.name v)
  | ret _ _, _ => .error .stuck
  | conditional condition consequent alternate _, store => do
    let v ← condition.eval calls store
    match v with
    | .int n =>
      if n = 0 then alternateExec calls alternate store else branchExec calls consequent store
    | .double _ => .error .stuck
  | expression (.assign target e _ _) _, store => do
    let v ← e.eval calls store
    .ok (store.set target.name v)
  | expression e _, store => do
    let _ ← e.eval calls store
    .ok store

def branchExec (calls : Calls) : List Stmt → Store → Except Halt Store
  | [], store => .ok store
  | s :: ss, store => do
    let store' ← s.exec calls store
    branchExec calls ss store'

def alternateExec (calls : Calls) : Option (List Stmt) → Store → Except Halt Store
  | none, store => .ok store
  | some ss, store => branchExec calls ss store

end

/-- the value of the last statement of a body -/
def resultEval (calls : Calls) (store : Store) : Stmt → Except Halt Value
  | ret e _ | expression e _ => e.eval calls store
  | _ => .error .stuck

def bodyEval (calls : Calls) : List Stmt → Store → Except Halt Value
  | [], _ => .error .stuck
  | [s], store => s.resultEval calls store
  | s :: ss, store => do
    let store' ← s.exec calls store
    bodyEval calls ss store'

end Stmt

/-! ### functions -/

/-- the store at the start of a function -/
def FunctionDecl.store (f : FunctionDecl) (args : List Value) : Store := fun x =>
  (((f.params.map (·.name.name)).zip args).lookup x).or
    (((Stmt.branchDeclarations f.body).find? (·.name.name == x)).map (Value.zero ·.type))

def FunctionDecl.eval (calls : Calls) (f : FunctionDecl) (args : List Value) : Except Halt Value :=
  if args.map Value.type = f.params.map (·.type) then Stmt.bodyEval calls f.body (f.store args)
  else .error .stuck

namespace Calls

def empty : Calls := fun _ _ => .error .stuck

def bind (calls : Calls) (f : FunctionDecl) : Calls := fun name args =>
  if name = f.name.name then f.eval calls args else calls name args

/-- the functions in the order of the text, each with those in front of it -/
def ofFunctions (fs : List FunctionDecl) : Calls := fs.foldl bind empty

theorem ofFunctions_snoc (fs : List FunctionDecl) (f : FunctionDecl) :
    ofFunctions (fs ++ [f]) = (ofFunctions fs).bind f := by
  simp [ofFunctions]

end Calls

end Wattle
