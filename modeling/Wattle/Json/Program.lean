import Wattle.Ast
import Wattle.Json.Basic
import Wattle.Number.Layout

/-!
# Programs as JSON

The document of a program: an object for every node, with the members in the order of the alphabet.
-/

namespace Wattle

/-- numbers are written out from `0.00001` up to below `10 ^ 16`, a tie between two shortest
fractions goes to the even one, and every exponent has a sign -/
def Json.numberLayout : Layout := ⟨-5, 15, true, .even⟩

/-- a number, or `null` for what JSON has no number for -/
def Json.double (x : Double) : Json :=
  if x.isFinite then .number (numberLayout.text x) else .null

def Span.toJson (s : Span) : Json :=
  .record [
    ("column", .nat s.first.column),
    ("end_column", .nat s.last.column),
    ("end_line", .nat s.last.line),
    ("line", .nat s.first.line)]

def Ident.toJson (i : Ident) : Json :=
  .record [("name", .text i.name), ("span", i.span.toJson)]

def Binding.toJson (b : Binding) : Json :=
  .record [("dataType", .text b.type.text), ("name", b.name.toJson)]

/-! ### expressions -/

namespace Expr

mutual

def toJson : Expr → Json
  | number value type span =>
    .record [
      ("dataType", .text type.text),
      ("span", span.toJson),
      ("type", .text "NumericLiteral"),
      ("value", .double value)]
  | var name type span =>
    .record [
      ("dataType", .text type.text),
      ("name", .text name),
      ("span", span.toJson),
      ("type", .text "Identifier")]
  | neg operand type span =>
    .record [
      ("dataType", .text type.text),
      ("operand", operand.toJson),
      ("operator", .text "-"),
      ("span", span.toJson),
      ("type", .text "UnaryExpression")]
  | binary op left right type span =>
    .record [
      ("dataType", .text type.text),
      ("left", left.toJson),
      ("operator", .text op.text),
      ("right", right.toJson),
      ("span", span.toJson),
      ("type", .text "BinaryExpression")]
  | assign target value type span =>
    .record [
      ("dataType", .text type.text),
      ("left", target.toJson),
      ("right", value.toJson),
      ("span", span.toJson),
      ("type", .text "AssignmentExpression")]
  | call callee args type span =>
    .record [
      ("args", .array (argsJson args)),
      ("callee", callee.toJson),
      ("dataType", .text type.text),
      ("span", span.toJson),
      ("type", .text "CallExpression")]

def argsJson : List Expr → List Json
  | [] => []
  | e :: es => e.toJson :: argsJson es

end

end Expr

/-! ### statements -/

namespace Stmt

mutual

def toJson : Stmt → Json
  | declaration kind name type initializer isConst span =>
    .record [
      ("dataType", .text type.text),
      ("initializer", initializer.toJson),
      ("isConst", .bool isConst),
      ("kind", .text kind.text),
      ("name", name.toJson),
      ("span", span.toJson),
      ("type", .text "VariableDeclaration")]
  | ret argument span =>
    .record [
      ("argument", argument.toJson),
      ("span", span.toJson),
      ("type", .text "ReturnStatement")]
  | conditional condition consequent alternate span =>
    .record [
      ("alternate", alternateJson alternate),
      ("condition", condition.toJson),
      ("consequent", .array (branchJson consequent)),
      ("span", span.toJson),
      ("type", .text "IfStatement")]
  | expression e span =>
    .record [
      ("expression", e.toJson),
      ("span", span.toJson),
      ("type", .text "ExpressionStatement")]

def branchJson : List Stmt → List Json
  | [] => []
  | s :: ss => s.toJson :: branchJson ss

def alternateJson : Option (List Stmt) → Json
  | none => .null
  | some ss => .array (branchJson ss)

end

end Stmt

/-! ### programs -/

def FunctionDecl.toJson (f : FunctionDecl) : Json :=
  .record [
    ("body", .array (Stmt.branchJson f.body)),
    ("locals", .array (f.locals.map Binding.toJson)),
    ("name", f.name.toJson),
    ("params", .array (f.params.map Binding.toJson)),
    ("returnType", .text f.returnType.text),
    ("span", f.span.toJson),
    ("type", .text "FunctionDeclaration")]

def Program.toJson (p : Program) : Json :=
  .record [
    ("body", .array (p.functions.map FunctionDecl.toJson)),
    ("span", p.span.toJson),
    ("type", .text "Program")]

end Wattle
