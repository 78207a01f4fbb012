import Wattle.DataType
import Wattle.Number.Double
import Wattle.Operator
import Wattle.Span

/-!
# Typed programs

The tree of a program.  Every expression carries its type, and every node the span it was read
from.
-/

namespace Wattle

structure Ident where
  name : String
  span : Span
deriving DecidableEq

/-- a name with its type: a parameter or a variable -/
structure Binding where
  name : Ident
  type : DataType
deriving DecidableEq

/-! ### expressions -/

inductive Expr where
  | number (value : Double) (type : DataType) (span : Span)
  | var (name : String) (type : DataType) (span : Span)
  | neg (operand : Expr) (type : DataType) (span : Span)
  | binary (op : BinaryOp) (left right : Expr) (type : DataType) (span : Span)
  | assign (target : Ident) (value : Expr) (type : DataType) (span : Span)
  | call (callee : Ident) (args : List Expr) (type : DataType) (span : Span)

namespace Expr

def type : Expr → DataType
  | number _ type _ | var _ type _ | neg _ type _ | binary _ _ _ type _ | assign _ _ type _
  | call _ _ type _ => type

def span : Expr → Span
  | number _ _ span | var _ _ span | neg _ _ span | binary _ _ _ _ span | assign _ _ _ span
  | call _ _ _ span => span

/-- the same expression read from another span; its parts keep theirs -/
def withSpan (span : Span) : Expr → Expr
  | number value type _ => number value type span
  | var name type _ => var name type span
  | neg operand type _ => neg operand type span
  | binary op left right type _ => binary op left right type span
  | assign target value type _ => assign target value type span
  | call callee args type _ => call callee args type span

def isAssign : Expr → Bool
  | assign _ _ _ _ => true
  | _ => false

@[simp] theorem span_withSpan (e : Expr) (span : Span) : (e.withSpan span).span = span := by
  cases e <;> rfl

@[simp] theorem type_withSpan (e : Expr) (span : Span) : (e.withSpan span).type = e.type := by
  cases e <;> rfl

@[simp] theorem isAssign_withSpan (e : Expr) (span : Span) :
    (e.withSpan span).isAssign = e.isAssign := by
  cases e <;> rfl

end Expr

/-! ### statements -/

inductive VarKind where
  | mutable
  | constant
deriving DecidableEq

namespace VarKind

/-- the word that declares such a variable -/
def text : VarKind → String
  | mutable => "let"
  | constant => "const"

def isConst : VarKind → Bool
  | mutable => false
  | constant => true

end VarKind

inductive Stmt where
  /-- `isConst` repeats what `kind` says, in every tree that is read from a text -/
  | declaration (kind : VarKind) (name : Ident) (type : DataType) (initializer : Expr)
      (isConst : Bool) (span : Span)
  | ret (argument : Expr) (span : Span)
  /-- an alternate that was written as another conditional holds just that one -/
  | conditional (condition : Expr) (consequent : List Stmt) (alternate : Option (List Stmt))
      (span : Span)
  | expression (expression : Expr) (span : Span)

namespace Stmt

def span : Stmt → Span
  | declaration _ _ _ _ _ span | ret _ span | conditional _ _ _ span | expression _ span => span

/-- the variable that a statement declares by itself -/
def binding? : Stmt → Option Binding
  | declaration _ name type _ _ _ => some ⟨name, type⟩
  | _ => none

end Stmt

/-! ### programs -/

structure FunctionDecl where
  name : Ident
  params : List Binding
  /-- the variables declared outside of conditionals -/
  locals : List Binding
  returnType : DataType
  body : List Stmt
  span : Span

structure Program where
  functions : List FunctionDecl
  span : Span

end Wattle
