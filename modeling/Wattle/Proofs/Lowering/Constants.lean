import Wattle.Module
import Wattle.Proofs.Literals

/-!
# Constants in the code

Each number of a program is a constant in its code, and these constants stand there in the order of
the text (`Program.literals_lower`).  Between them stand the zeros that negated numbers are
subtracted from.
-/

namespace Wattle

/-! ### constants -/

namespace Instr

/-- the constant for a number of a program -/
def ofLiteral (literal : Double × DataType) : Instr := const literal.1 literal.2

mutual

/-- the constants in an instruction, at any depth -/
def constants : Instr → List Instr
  | intConst value => [intConst value]
  | doubleConst value => [doubleConst value]
  | conditional consequent alternate =>
    codeConstants consequent ++ alternateConstants alternate
  | _ => []

def codeConstants : List Instr → List Instr
  | [] => []
  | i :: is => i.constants ++ codeConstants is

def alternateConstants : Option (List Instr) → List Instr
  | none => []
  | some is => codeConstants is

end

section
variable (options : EmitOptions)

@[simp] theorem codeConstants_nil : codeConstants [] = [] := rfl

@[simp] theorem codeConstants_cons (i : Instr) (is : List Instr) :
    codeConstants (i :: is) = i.constants ++ codeConstants is := rfl

@[simp] theorem codeConstants_append (is is' : List Instr) :
    codeConstants (is ++ is') = codeConstants is ++ codeConstants is' := by
  induction is with
  | nil => rfl
  | cons i is ih => rw [List.cons_append, codeConstants, codeConstants, ih, List.append_assoc]

@[simp] theorem constants_const (value : Double) (type : DataType) :
    (const value type).constants = [const value type] := by cases type <;> rfl

@[simp] theorem codeConstants_conversion (wanted found : DataType) :
    codeConstants (options.conversion wanted found) = [] := by
  unfold EmitOptions.conversion
  split <;> rfl

@[simp] theorem codeConstants_disposal (keep : Bool) (e : Expr) :
    codeConstants (options.disposal keep e) = [] := by
  unfold EmitOptions.disposal
  split <;> rfl

end

end Instr

def Module.constants (m : Module) : List Instr := m.funcs.flatMap (Instr.codeConstants ·.body)

/-! ### numbers in the code -/

section
variable (options : EmitOptions)

open Instr

namespace Expr

mutual

theorem literals_code : (e : Expr) →
    (e.literals.map ofLiteral).Sublist (codeConstants (e.code options))
  | number value type _ => by simp [code, ofLiteral]
  | var _ _ _ => List.nil_sublist _
  | neg operand type _ => by
    rw [literals_neg, code, codeConstants_cons, codeConstants_append]
    exact ((literals_code operand).trans (List.sublist_append_left ..)).trans
      (List.sublist_append_right ..)
  | binary op left right type _ => by
    simp only [literals_binary, List.map_append, code, codeConstants_append,
      codeConstants_conversion, List.append_nil]
    exact (literals_code left).append
      ((literals_code right).trans (List.sublist_append_left ..))
  | assign target value type _ => by
    rw [literals_assign, code, codeConstants_append]
    exact (literals_code value).trans (List.sublist_append_left ..)
  | call callee args type _ => by
    rw [literals_call, code, codeConstants_append]
    exact (literals_argsCode args).trans (List.sublist_append_left ..)

theorem literals_argsCode : (es : List Expr) →
    ((es.flatMap literals).map ofLiteral).Sublist (codeConstants (argsCode options es))
  | [] => List.nil_sublist _
  | e :: es => by
    rw [List.flatMap_cons, List.map_append, argsCode, codeConstants_append]
    exact (literals_code e).append (literals_argsCode es)

end

end Expr

namespace Stmt

mutual

theorem literals_code (keep : Bool) : (s : Stmt) →
    (s.literals.map ofLiteral).Sublist (codeConstants (s.code options keep))
  | declaration _ name type e _ _ => by
    rw [literals_declaration, code, codeConstants_append]
    exact (e.literals_code options).trans (List.sublist_append_left ..)
  | ret e _ => by
    rw [literals_ret]
    exact e.literals_code options
  | conditional e consequent alternate _ => by
    rw [literals_conditional, code, codeConstants_append, List.map_append, List.map_append]
    refine (e.literals_code options).append ?_
    rw [codeConstants_cons, codeConstants_nil, List.append_nil]
    exact (literals_branchCode consequent).append (literals_alternateCode alternate)
  | expression e _ => by
    rw [literals_expression, code, codeConstants_append, codeConstants_disposal, List.append_nil]
    exact e.literals_code options

theorem literals_branchCode : (ss : List Stmt) →
    ((ss.flatMap literals).map ofLiteral).Sublist (codeConstants (branchCode options ss))
  | [] => List.nil_sublist _
  | s :: ss => by
    rw [List.flatMap_cons, List.map_append, branchCode, codeConstants_append]
    exact (literals_code false s).append (literals_branchCode ss)

theorem literals_alternateCode : (alternate : Option (List Stmt)) →
    (((alternate.getD []).flatMap literals).map ofLiteral).Sublist
      (alternateConstants (alternateCode options alternate))
  | none => List.nil_sublist _
  | some ss => literals_branchCode ss

end

end Stmt

end

end Wattle
