import Wattle.Ast

/-!
# The parts of a program

`Expr.parts` lists an expression and everything inside of it, and `Stmt.nested` a statement and
everything in its branches, at any depth and in the order of the text.  `FunctionDecl.parts` are
all expressions of a function.  `Expr.children` and `Stmt.branches` are the parts one level down.
-/

namespace Wattle

/-! ### expressions -/

namespace Expr

mutual

def parts : Expr → List Expr
  | number value type span => [number value type span]
  | var name type span => [var name type span]
  | neg operand type span => neg operand type span :: operand.parts
  | binary op left right type span => binary op left right type span :: (left.parts ++ right.parts)
  | assign target value type span => assign target value type span :: value.parts
  | call callee args type span => call callee args type span :: argsParts args

def argsParts : List Expr → List Expr
  | [] => []
  | e :: es => e.parts ++ argsParts es

end

theorem argsParts_eq_flatMap (es : List Expr) : argsParts es = es.flatMap parts := by
  induction es with
  | nil => rfl
  | cons e es ih => rw [argsParts, ih, List.flatMap_cons]

/-- the expressions right inside of an expression -/
def children : Expr → List Expr
  | number _ _ _ | var _ _ _ => []
  | neg operand _ _ => [operand]
  | binary _ left right _ _ => [left, right]
  | assign _ value _ _ => [value]
  | call _ args _ _ => args

mutual

theorem induction_children {P : Expr → Prop} (h : ∀ e, (∀ a ∈ e.children, P a) → P e) :
    (e : Expr) → P e
  | number value type span => h (number value type span) nofun
  | var name type span => h (var name type span) nofun
  | neg operand type span =>
    h (neg operand type span) (List.forall_mem_singleton.2 (induction_children h operand))
  | binary op left right type span =>
    h (binary op left right type span) (List.forall_mem_cons.2
      ⟨induction_children h left, List.forall_mem_singleton.2 (induction_children h right)⟩)
  | assign target value type span =>
    h (assign target value type span) (List.forall_mem_singleton.2 (induction_children h value))
  | call callee args type span => h (call callee args type span) (induction_args h args)

theorem induction_args {P : Expr → Prop} (h : ∀ e, (∀ a ∈ e.children, P a) → P e) :
    (es : List Expr) → ∀ e ∈ es, P e
  | [] => nofun
  | e :: es => List.forall_mem_cons.2 ⟨induction_children h e, induction_args h es⟩

end

theorem parts_eq_children (e : Expr) : e.parts = e :: e.children.flatMap parts := by
  cases e with
  | call => rw [parts, argsParts_eq_flatMap, children]
  | _ => simp [parts, children]

/-- the type of a number -/
def literalType? : Expr → Option DataType
  | number _ type _ => some type
  | _ => none

/-- the name that a call calls -/
def callee? : Expr → Option String
  | call callee _ _ _ => some callee.name
  | _ => none

end Expr

/-! ### statements -/

namespace Stmt

/-- the expression that stands in a statement, outside of its branches -/
def expr : Stmt → Expr
  | declaration _ _ _ e _ _ | ret e _ | conditional e _ _ _ | expression e _ => e

def isRet : Stmt → Bool
  | ret _ _ => true
  | _ => false

mutual

def nested : Stmt → List Stmt
  | declaration kind name type e isConst span => [declaration kind name type e isConst span]
  | ret e span => [ret e span]
  | conditional e consequent alternate span =>
    conditional e consequent alternate span ::
      (branchNested consequent ++ alternateNested alternate)
  | expression e span => [expression e span]

def branchNested : List Stmt → List Stmt
  | [] => []
  | s :: ss => s.nested ++ branchNested ss

def alternateNested : Option (List Stmt) → List Stmt
  | none => []
  | some ss => branchNested ss

end

theorem self_mem_nested (s : Stmt) : s ∈ s.nested := by
  cases s <;> simp [nested]

theorem branchNested_eq_flatMap (ss : List Stmt) : branchNested ss = ss.flatMap nested := by
  induction ss with
  | nil => rfl
  | cons s ss ih => rw [branchNested, ih, List.flatMap_cons]

theorem alternateNested_eq_flatMap (alternate : Option (List Stmt)) :
    alternateNested alternate = (alternate.getD []).flatMap nested := by
  cases alternate with
  | none => rfl
  | some ss => exact branchNested_eq_flatMap ss

/-- the statements in the branches of a statement -/
def branches : Stmt → List Stmt
  | conditional _ consequent alternate _ => consequent ++ alternate.getD []
  | _ => []

theorem nested_eq_branches (s : Stmt) : s.nested = s :: s.branches.flatMap nested := by
  cases s <;> simp [nested, branches, branchNested_eq_flatMap, alternateNested_eq_flatMap]

end Stmt

/-! ### functions -/

/-- all statements of a function -/
def FunctionDecl.nested (f : FunctionDecl) : List Stmt := f.body.flatMap Stmt.nested

/-- all expressions of a function -/
def FunctionDecl.parts (f : FunctionDecl) : List Expr := f.nested.flatMap fun s => s.expr.parts

/-- the types of the numbers in a program, in the order of the text -/
def Program.literalTypes (p : Program) : List DataType :=
  p.functions.flatMap fun f => f.parts.filterMap Expr.literalType?

end Wattle
