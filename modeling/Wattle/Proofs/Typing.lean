import Wattle.Proofs.Grammar
import Wattle.Scope

/-!
# The type rules

When a program is well typed, without regard to how it is read.  An `Env` gives the variables that
are bound, `Signatures` the functions that a call is checked against.

* `Expr.Typed` has one rule for each kind of node;
* `StmtsTyped Γ ss Γ'` threads the variables through a row of statements.  A declaration adds its
  variable behind itself, and what the branches of a conditional declare stays behind it;
* `FunctionDecl.Typed` starts with the parameters, and `Program.Typed` checks each function
  against those in front of it.
-/

namespace Wattle

/-! ### variables and functions -/

/-- the types of the variables that are bound -/
abbrev Env : Type := String → Option DataType

/-- the signatures of the functions that are known -/
abbrev Signatures : Type := String → Option Signature

namespace Env

def empty : Env := fun _ => none

def bind (Γ : Env) (name : String) (type : DataType) : Env :=
  fun x => if x = name then some type else Γ x

def ofParams (params : List Binding) : Env :=
  fun x => (params.find? fun b => b.name.name == x).map (·.type)

end Env

namespace Signatures

def empty : Signatures := fun _ => none

def bind (Δ : Signatures) (f : FunctionDecl) : Signatures :=
  fun x => if x = f.name.name then some f.signature else Δ x

/-- of two functions of a name the later one counts -/
def ofFunctions (fs : List FunctionDecl) : Signatures :=
  fun x => (fs.reverse.find? fun f => f.name.name == x).map FunctionDecl.signature

theorem ofFunctions_snoc (fs : List FunctionDecl) (f : FunctionDecl) :
    ofFunctions (fs ++ [f]) = (ofFunctions fs).bind f := by
  funext x
  by_cases h : x = f.name.name
  · simp [ofFunctions, bind, h]
  · have h' : (f.name.name == x) = false := by simpa using Ne.symm h
    simp [ofFunctions, bind, h, h']

end Signatures

/-! ### rules -/

inductive Expr.Typed (Δ : Signatures) (Γ : Env) : Expr → Prop
  /-- an `Int` is written with a whole number of 32 bits, and a `Double` is a number -/
  | number {value type span} (hi : type = .int → ∃ n < 2 ^ 32, value = .ofNat n)
      (hd : type = .double → value.isNaN = false) : Typed Δ Γ (.number value type span)
  | var {name type span} (h : Γ name = some type) : Typed Δ Γ (.var name type span)
  | neg {operand span} (h : Typed Δ Γ operand) : Typed Δ Γ (.neg operand operand.type span)
  | arithmetic {op left right span} (hop : op.isComparison = false) (hl : Typed Δ Γ left)
      (hr : Typed Δ Γ right) :
      Typed Δ Γ (.binary op left right
        (if left.type = .double ∨ right.type = .double then .double else .int) span)
  | comparison {op left right span} (hop : op.isComparison = true) (hl : Typed Δ Γ left)
      (hr : Typed Δ Γ right) (ht : left.type = right.type) :
      Typed Δ Γ (.binary op left right .int span)
  | assign {target value type span} (ht : Γ target.name = some type) (hv : Typed Δ Γ value)
      (h : value.type = type) : Typed Δ Γ (.assign target value type span)
  /-- a call of a known function is checked, and any other one is a `Double` -/
  | call {callee args type span} (hargs : ∀ a ∈ args, Typed Δ Γ a)
      (hknown : ∀ signature, Δ callee.name = some signature →
        args.map Expr.type = signature.params ∧ type = signature.returnType)
      (hunknown : Δ callee.name = none → type = .double) :
      Typed Δ Γ (.call callee args type span)

inductive StmtsTyped (Δ : Signatures) : Env → List Stmt → Env → Prop
  | nil {Γ} : StmtsTyped Δ Γ [] Γ
  | declaration {Γ Γ' kind name type init isConst span ss} (hnew : Γ name.name = none)
      (hi : init.Typed Δ Γ) (ht : init.type = type)
      (hs : StmtsTyped Δ (Γ.bind name.name type) ss Γ') :
      StmtsTyped Δ Γ (.declaration kind name type init isConst span :: ss) Γ'
  | ret {Γ Γ' argument span ss} (h : argument.Typed Δ Γ) (hs : StmtsTyped Δ Γ ss Γ') :
      StmtsTyped Δ Γ (.ret argument span :: ss) Γ'
  | expression {Γ Γ' e span ss} (h : e.Typed Δ Γ) (hs : StmtsTyped Δ Γ ss Γ') :
      StmtsTyped Δ Γ (.expression e span :: ss) Γ'
  | conditional {Γ Γ₁ Γ₂ Γ' condition consequent alternate span ss}
      (hc : condition.Typed Δ Γ) (ht : condition.type = .int)
      (h₁ : StmtsTyped Δ Γ consequent Γ₁) (h₂ : StmtsTyped Δ Γ₁ (alternate.getD []) Γ₂)
      (hs : StmtsTyped Δ Γ₂ ss Γ') :
      StmtsTyped Δ Γ (.conditional condition consequent alternate span :: ss) Γ'

/-- the body is checked with the parameters, whose names differ -/
def FunctionDecl.Typed (Δ : Signatures) (f : FunctionDecl) : Prop :=
  (f.params.map (·.name.name)).Nodup ∧ ∃ Γ, StmtsTyped Δ (.ofParams f.params) f.body Γ

/-- a function is checked against those in front of it, without itself -/
def Program.Typed (p : Program) : Prop :=
  ∀ earlier f later, p.functions = earlier ++ f :: later → f.Typed (.ofFunctions earlier)

/-! ### small facts -/

theorem Expr.Typed.withSpan {Δ : Signatures} {Γ : Env} {e : Expr} (h : e.Typed Δ Γ)
    (span : Span) : (e.withSpan span).Typed Δ Γ := by
  cases h with
  | number hi hd => exact .number hi hd
  | var h => exact .var h
  | neg h => exact .neg h
  | arithmetic hop hl hr => exact .arithmetic hop hl hr
  | comparison hop hl hr ht => exact .comparison hop hl hr ht
  | assign ht hv h => exact .assign ht hv h
  | call hargs hknown hunknown => exact .call hargs hknown hunknown

theorem StmtsTyped.append {Δ : Signatures} {Γ Γ₁ Γ' : Env} {ss ss' : List Stmt}
    (h : StmtsTyped Δ Γ ss Γ₁) (h' : StmtsTyped Δ Γ₁ ss' Γ') : StmtsTyped Δ Γ (ss ++ ss') Γ' := by
  induction h with
  | nil => exact h'
  | declaration hnew hi ht _ ih => exact .declaration hnew hi ht (ih h')
  | ret h _ ih => exact .ret h (ih h')
  | expression h _ ih => exact .expression h (ih h')
  | conditional hc ht h₁ h₂ _ _ _ ih => exact .conditional hc ht h₁ h₂ (ih h')

end Wattle
