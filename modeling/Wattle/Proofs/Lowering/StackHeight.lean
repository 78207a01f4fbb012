import Wattle.Lowering
import Wattle.Proofs.Fragment

/-!
# The height of the stack

What the code of an expression does to the height of the stack.  `codeHeight? h code` runs the code
on `h` values and is `none` where an instruction finds too few of them.  On an empty stack the code
of an expression ends with its value, or with none for an assignment, if no assignment stands inside
(`Expr.balanced_iff`).  An assignment inside takes its value away from the expression around it,
which then runs out of values.
-/

namespace Wattle

namespace Instr

/-- the number of values that an instruction takes off the stack -/
def pops : Instr → Nat
  | intConst _ | doubleConst _ | doubleZero | localGet _ => 0
  | localSet _ | convert | drop | conditional _ _ => 1
  | binary _ _ => 2
  | call _ arity => arity

/-- the number of values that it leaves there -/
def pushes : Instr → Nat
  | localSet _ | drop | conditional _ _ => 0
  | intConst _ | doubleConst _ | doubleZero | localGet _ | convert | binary _ _ | call _ _ => 1

/-- the height of the stack behind an instruction; `none` if it finds too few values -/
def height? (h : Nat) (i : Instr) : Option Nat :=
  if i.pops ≤ h then some (h - i.pops + i.pushes) else none

section
variable (x : String) (op : BinaryOp) (type : DataType) (arity : Nat)

@[simp] theorem pops_localGet : (localGet x).pops = 0 := rfl
@[simp] theorem pushes_localGet : (localGet x).pushes = 1 := rfl
@[simp] theorem pops_localSet : (localSet x).pops = 1 := rfl
@[simp] theorem pushes_localSet : (localSet x).pushes = 0 := rfl
@[simp] theorem pops_binary : (binary op type).pops = 2 := rfl
@[simp] theorem pushes_binary : (binary op type).pushes = 1 := rfl
@[simp] theorem pops_convert : convert.pops = 1 := rfl
@[simp] theorem pushes_convert : convert.pushes = 1 := rfl
@[simp] theorem pops_call : (call x arity).pops = arity := rfl
@[simp] theorem pushes_call : (call x arity).pushes = 1 := rfl
@[simp] theorem pops_zero : (zero type).pops = 0 := by cases type <;> rfl
@[simp] theorem pushes_zero : (zero type).pushes = 1 := by cases type <;> rfl

end

@[simp] theorem pops_const (value : Double) (type : DataType) : (const value type).pops = 0 := by
  cases type <;> rfl

@[simp] theorem pushes_const (value : Double) (type : DataType) :
    (const value type).pushes = 1 := by
  cases type <;> rfl

end Instr

/-! ### rows of instructions -/

/-- the height of the stack behind a row of instructions -/
def codeHeight? (h : Nat) (code : List Instr) : Option Nat := code.foldlM Instr.height? h

def codePops : List Instr → Nat
  | [] => 0
  | i :: code => i.pops + codePops code

def codePushes : List Instr → Nat
  | [] => 0
  | i :: code => i.pushes + codePushes code

section
variable {h h' : Nat} {code code' : List Instr} {i : Instr}

@[simp] theorem codeHeight?_nil : codeHeight? h [] = some h := rfl

theorem codeHeight?_append :
    codeHeight? h (code ++ code') = (codeHeight? h code).bind (codeHeight? · code') :=
  List.foldlM_append

theorem codeHeight?_singleton : codeHeight? h [i] = i.height? h := by
  simp [codeHeight?]

/-- one more instruction that finds its values -/
theorem codeHeight?_cons (hi : i.pops ≤ h) :
    codeHeight? h (i :: code) = codeHeight? (h - i.pops + i.pushes) code := by
  simp [codeHeight?, Instr.height?, hi]

@[simp] theorem codePops_nil : codePops [] = 0 := rfl
@[simp] theorem codePushes_nil : codePushes [] = 0 := rfl
@[simp] theorem codePops_cons : codePops (i :: code) = i.pops + codePops code := rfl
@[simp] theorem codePushes_cons : codePushes (i :: code) = i.pushes + codePushes code := rfl

@[simp] theorem codePops_append : codePops (code ++ code') = codePops code + codePops code' := by
  induction code with
  | nil => simp
  | cons i code ih => simp [ih, Nat.add_assoc]

@[simp] theorem codePushes_append :
    codePushes (code ++ code') = codePushes code + codePushes code' := by
  induction code with
  | nil => simp
  | cons i code ih => simp [ih, Nat.add_assoc]

/-- what has been put on the stack has been taken off, or is still there -/
theorem codeHeight?_add_pops (hc : codeHeight? h code = some h') :
    h' + codePops code = h + codePushes code := by
  induction code generalizing h with
  | nil => simp_all
  | cons i code ih =>
    by_cases hi : i.pops ≤ h
    · rw [codeHeight?_cons hi] at hc
      have hrest := ih hc
      rw [codePops_cons, codePushes_cons]
      omega
    · simp [codeHeight?, Instr.height?, hi] at hc

end

/-! ### expressions -/

/-- the code runs on an empty stack, and ends with one value, or with none for an assignment -/
def Expr.Balanced (options : EmitOptions) (e : Expr) : Prop :=
  codeHeight? 0 (e.code options) = some (if e.isAssign then 0 else 1)

/-- the expressions inside of another one, at any depth -/
def Expr.inner (e : Expr) : List Expr := e.parts.tail

theorem Expr.parts_eq (e : Expr) : e.parts = e :: e.inner := by
  cases e <;> rfl

theorem Expr.pure_iff {e : Expr} :
    e.Pure ↔ e.isAssign = false ∧ ∀ a ∈ e.inner, a.isAssign = false := by
  rw [Pure, parts_eq, List.forall_mem_cons]

theorem EmitOptions.codeHeight?_conversion (options : EmitOptions) (wanted found : DataType)
    (h : Nat) : codeHeight? (h + 1) (options.conversion wanted found) = some (h + 1) := by
  unfold conversion
  split
  · rw [codeHeight?_singleton]
    simp [Instr.height?]
  · rfl

/-- a conversion takes one value and leaves one -/
theorem EmitOptions.codePushes_conversion (options : EmitOptions) (wanted found : DataType) :
    codePushes (options.conversion wanted found) = codePops (options.conversion wanted found) := by
  unfold conversion
  split <;> rfl

namespace Expr

/-! ### without an assignment inside -/

/-- what an operator needs of its operands -/
theorem codeHeight?_binary {options : EmitOptions} {left right : Expr} (op : BinaryOp)
    (type : DataType) (span : Span)
    (hl : ∀ h, codeHeight? h (left.code options) = some (h + 1))
    (hr : ∀ h, codeHeight? h (right.code options) = some (h + 1)) (h : Nat) :
    codeHeight? h ((binary op left right type span).code options) = some (h + 1) := by
  have hop (wanted : DataType) : codeHeight? (h + 1 + 1) [.binary op wanted] = some (h + 1) := by
    rw [codeHeight?_singleton]
    simp [Instr.height?]
  simp only [code, codeHeight?_append, hl, hr, Option.bind_some,
    EmitOptions.codeHeight?_conversion, hop]

mutual

/-- an expression without assignments leaves its value on any stack -/
theorem codeHeight?_of_pure (options : EmitOptions) (h : Nat) :
    (e : Expr) → e.Pure → codeHeight? h (e.code options) = some (h + 1)
  | number value type _, _ => by
    rw [code, codeHeight?_singleton]
    simp [Instr.height?]
  | var _ _ _, _ => by
    rw [code, codeHeight?_singleton]
    simp [Instr.height?]
  | neg operand type _, he => by
    have hoperand := codeHeight?_of_pure options (h + 1) operand fun a ha =>
      he a (List.mem_cons_of_mem _ ha)
    rw [code, codeHeight?_cons (by simp), codeHeight?_append]
    simp [hoperand, codeHeight?_singleton, Instr.height?]
  | binary op left right type span, he => by
    rw [Pure, parts, List.forall_mem_cons, List.forall_mem_append] at he
    exact codeHeight?_binary op type span (fun h => codeHeight?_of_pure options h left he.2.1)
      (fun h => codeHeight?_of_pure options h right he.2.2) h
  | assign _ _ _ _, he => by
    exact absurd (he _ (List.mem_cons_self)) (by simp [isAssign])
  | call _ args _ _, he => by
    have hargs := codeHeight?_argsCode options h args fun a ha =>
      he a (List.mem_cons_of_mem _ ha)
    rw [code, codeHeight?_append, hargs, Option.bind_some, codeHeight?_singleton]
    simp [Instr.height?]

theorem codeHeight?_argsCode (options : EmitOptions) (h : Nat) :
    (es : List Expr) → (∀ a ∈ argsParts es, a.isAssign = false) →
      codeHeight? h (argsCode options es) = some (h + es.length)
  | [], _ => rfl
  | e :: es, he => by
    rw [argsParts, List.forall_mem_append] at he
    have hfirst := codeHeight?_of_pure options h e he.1
    have hrest := codeHeight?_argsCode options (h + 1) es he.2
    rw [argsCode, codeHeight?_append, hfirst, Option.bind_some, hrest, List.length_cons,
      Nat.add_assoc, Nat.add_comm 1]

end

/-- the whole expression may be an assignment -/
theorem balanced_of_inner (options : EmitOptions) {e : Expr}
    (h : ∀ a ∈ e.inner, a.isAssign = false) : e.Balanced options := by
  cases e with
  | assign target value type span =>
    have hvalue := codeHeight?_of_pure options 0 value h
    rw [Balanced, code, codeHeight?_append, hvalue, Option.bind_some, codeHeight?_singleton]
    rfl
  | _ => exact codeHeight?_of_pure options 0 _ (pure_iff.2 ⟨rfl, h⟩)

/-! ### with an assignment inside -/

/-- the number of assignments in an expression -/
def assigns (e : Expr) : Nat := e.parts.countP isAssign

section
variable (type : DataType) (span : Span)

@[simp] theorem assigns_neg (operand : Expr) :
    (neg operand type span).assigns = operand.assigns := by
  simp [assigns, parts, isAssign]

@[simp] theorem assigns_binary (op : BinaryOp) (left right : Expr) :
    (binary op left right type span).assigns = left.assigns + right.assigns := by
  simp [assigns, parts, isAssign]

@[simp] theorem assigns_assign (target : Ident) (value : Expr) :
    (assign target value type span).assigns = value.assigns + 1 := by
  simp [assigns, parts, isAssign, List.countP_cons]

@[simp] theorem assigns_call (callee : Ident) (args : List Expr) :
    (call callee args type span).assigns = (argsParts args).countP isAssign := by
  simp [assigns, parts, isAssign]

end

mutual

/-- every assignment in an expression takes a value that nothing gives back -/
theorem codePushes_add_assigns (options : EmitOptions) : (e : Expr) →
    codePushes (e.code options) + e.assigns = codePops (e.code options) + 1
  | number value type _ => by simp [code, assigns, parts, isAssign]
  | var _ _ _ => rfl
  | neg operand type _ => by
    have hoperand := codePushes_add_assigns options operand
    simp only [code, codePushes_cons, codePops_cons, codePushes_append, codePops_append,
      Instr.pushes_zero, Instr.pops_zero, Instr.pushes_binary, Instr.pops_binary, codePushes_nil,
      codePops_nil, assigns_neg]
    omega
  | binary op left right type _ => by
    have hleft := codePushes_add_assigns options left
    have hright := codePushes_add_assigns options right
    simp only [code, codePushes_append, codePops_append, EmitOptions.codePushes_conversion,
      codePushes_cons, codePops_cons, Instr.pushes_binary, Instr.pops_binary, codePushes_nil,
      codePops_nil, assigns_binary]
    omega
  | assign _ value _ _ => by
    have hvalue := codePushes_add_assigns options value
    simp only [code, codePushes_append, codePops_append, codePushes_cons, codePops_cons,
      Instr.pushes_localSet, Instr.pops_localSet, codePushes_nil, codePops_nil, assigns_assign]
    omega
  | call _ args _ _ => by
    have hargs := codePushes_argsCode options args
    simp only [code, codePushes_append, codePops_append, codePushes_cons, codePops_cons,
      Instr.pushes_call, Instr.pops_call, codePushes_nil, codePops_nil, assigns_call]
    omega

theorem codePushes_argsCode (options : EmitOptions) : (es : List Expr) →
    codePushes (argsCode options es) + (argsParts es).countP isAssign =
      codePops (argsCode options es) + es.length
  | [] => rfl
  | e :: es => by
    have hfirst := codePushes_add_assigns options e
    have hrest := codePushes_argsCode options es
    simp only [argsCode, codePushes_append, codePops_append, argsParts, List.countP_append,
      List.length_cons]
    rw [assigns] at hfirst
    omega

end

/-- all but assignments end with an instruction that leaves a value -/
theorem code_eq_snoc (options : EmitOptions) {e : Expr} (h : e.isAssign = false) :
    ∃ code i, e.code options = code ++ [i] ∧ i.pushes = 1 := by
  cases e with
  | number value type _ => exact ⟨[], _, rfl, Instr.pushes_const value type⟩
  | var => exact ⟨[], _, rfl, rfl⟩
  | neg operand type _ => exact ⟨.zero type :: operand.code options, _, rfl, rfl⟩
  | binary op left right type _ =>
    rw [code, ← List.append_assoc, ← List.append_assoc]
    exact ⟨_, _, rfl, rfl⟩
  | assign => cases h
  | call callee args _ _ => exact ⟨argsCode options args, _, rfl, rfl⟩

/-- with an assignment inside, some instruction finds too few values on the empty stack -/
theorem codeHeight?_of_inner (options : EmitOptions) {e : Expr}
    (h : ∃ a ∈ e.inner, a.isAssign = true) : codeHeight? 0 (e.code options) = none := by
  have hinner : 0 < e.inner.countP isAssign := by simpa [List.countP_pos_iff] using h
  have hassigns : e.assigns = (if e.isAssign then 1 else 0) + e.inner.countP isAssign := by
    rw [assigns, parts_eq, List.countP_cons, Nat.add_comm]
  have hcode := codePushes_add_assigns options e
  -- a height behind the code would be too small: the values that were left and taken are counted
  cases hheight : codeHeight? 0 (e.code options) with
  | none => rfl
  | some h' =>
    have hcount := codeHeight?_add_pops hheight
    cases ha : e.isAssign with
    | true =>
      rw [ha, if_pos rfl] at hassigns
      omega
    | false =>
      obtain ⟨code, i, hsnoc, hi⟩ := code_eq_snoc options ha
      rw [hsnoc, codeHeight?_append] at hheight
      obtain ⟨h₁, -, hlast⟩ := Option.bind_eq_some_iff.1 hheight
      rw [codeHeight?_singleton, Instr.height?, hi] at hlast
      split at hlast
      · have := Option.some.inj hlast
        omega
      · cases hlast

/-- **When the code of an expression is balanced.**  On an empty stack it ends with the one value of
the expression, or with none for an assignment, just if no assignment stands inside; otherwise it
runs out of values. -/
theorem balanced_iff (options : EmitOptions) (e : Expr) :
    (e.Balanced options ↔ ∀ a ∈ e.inner, a.isAssign = false) ∧
      (¬e.Balanced options → codeHeight? 0 (e.code options) = none) := by
  have hinner (h : ¬∀ a ∈ e.inner, a.isAssign = false) :
      codeHeight? 0 (e.code options) = none :=
    codeHeight?_of_inner options (by simpa using h)
  refine ⟨⟨fun h => ?_, balanced_of_inner options⟩, fun h => ?_⟩
  · refine Classical.byContradiction fun hassign => ?_
    rw [Balanced, hinner hassign] at h
    cases h
  · exact hinner fun hflat => h (balanced_of_inner options hflat)

end Expr

/-! ### a chain of assignments -/

/-- the parser accepts an assignment as an assigned value -/
def SourceFile.chainFile : SourceFile where
  name := "chain"
  text := "function f(a: Int, b: Int): Int \x7b a = b = 3; return a; \x7d"

/-- the code of `a = b = 3` sets `b`, and then has no value left for `a` -/
theorem SourceFile.chain_unbalanced : ∃ p, chainFile.parse = .ok p ∧
    ∃ f ∈ p.functions, ∃ e ∈ f.parts, ∀ options, ¬e.Balanced options := by
  have hcheck : (match chainFile.parse with
      | .error _ => false
      | .ok p => p.functions.any fun f => f.parts.any fun e => e.inner.any Expr.isAssign) =
      true := by decide +kernel
  split at hcheck
  · simp at hcheck
  · next p hp =>
    simp only [List.any_eq_true] at hcheck
    obtain ⟨f, hf, e, he, hassign⟩ := hcheck
    refine ⟨p, hp, f, hf, e, he, fun options h => ?_⟩
    rw [Expr.Balanced, Expr.codeHeight?_of_inner options hassign] at h
    cases h

end Wattle
