import Wattle.Module
import Wattle.Proofs.Parts

/-!
# What the switches insert

The code of a function body does not depend on the options but for two kinds of instructions that
are inserted into it: behind the expression of a statement its value may be dropped, and behind an
operand the value may be converted.  A `Trace` is the code with these places marked, and options
only decide what stands there (`Trace.emit`).  `Stmt.bodyTrace` goes through a body statement by
statement and marks a place for each expression statement and for each operand.
`FunctionDecl.lower_inserts` says that it is the code of the function, and what follows from it for
the code under different options.
-/

namespace Wattle

/-! ### deleting instructions -/

namespace Instr

def isDrop : Instr → Bool
  | drop => true
  | _ => false

def isConvert : Instr → Bool
  | convert => true
  | _ => false

/-- neither inserted nor made of other instructions -/
def isPlain : Instr → Bool
  | drop | convert | conditional _ _ => false
  | _ => true

mutual

/-- an instruction without those that `p` deletes, at any depth -/
def without (p : Instr → Bool) : Instr → List Instr
  | conditional consequent alternate =>
    [conditional (codeWithout p consequent) (alternateWithout p alternate)]
  | i => if p i then [] else [i]

def codeWithout (p : Instr → Bool) : List Instr → List Instr
  | [] => []
  | i :: is => i.without p ++ codeWithout p is

def alternateWithout (p : Instr → Bool) : Option (List Instr) → Option (List Instr)
  | none => none
  | some is => some (codeWithout p is)

end

theorem codeWithout_append (p : Instr → Bool) (is is' : List Instr) :
    codeWithout p (is ++ is') = codeWithout p is ++ codeWithout p is' := by
  induction is with
  | nil => rfl
  | cons i is ih => rw [List.cons_append, codeWithout, codeWithout, ih, List.append_assoc]

theorem codeWithout_of_isPlain {p : Instr → Bool} {i : Instr} (hi : i.isPlain = true)
    (hp : p i = false) : codeWithout p [i] = [i] := by
  cases i <;> simp_all [codeWithout, without, isPlain]

theorem isDrop_of_isPlain {i : Instr} (hi : i.isPlain = true) : i.isDrop = false := by
  cases i <;> simp_all [isPlain, isDrop]

theorem isConvert_of_isPlain {i : Instr} (hi : i.isPlain = true) : i.isConvert = false := by
  cases i <;> simp_all [isPlain, isConvert]

end Instr

/-! ### traces -/

/-- the code of a part of a function, with the places where instructions are inserted -/
inductive Trace where
  | empty
  | append (front back : Trace)
  | instr (i : Instr)
  | branch (consequent : Trace)
  | branches (consequent alternate : Trace)
  /-- the code of the expression of a statement; `final` if the statement ends a function body -/
  | statement (e : Expr) (final : Bool) (code : Trace)
  /-- the code of an operand of a binary node, and the type of the node's operands -/
  | operand (e : Expr) (wanted : DataType) (code : Trace)

namespace Trace

/-- the code under the given options -/
def emit (options : EmitOptions) : Trace → List Instr
  | empty => []
  | append front back => front.emit options ++ back.emit options
  | instr i => [i]
  | branch consequent => [.conditional (consequent.emit options) none]
  | branches consequent alternate =>
    [.conditional (consequent.emit options) (some (alternate.emit options))]
  | statement e final code =>
    code.emit options ++
      if options.dropExpressionValues ∧ final = false ∧ e.isAssign = false then [.drop] else []
  | operand e wanted code =>
    code.emit options ++
      if options.convertMixedOperands ∧ wanted = .double ∧ e.type = .int then [.convert] else []

/-- a place stands behind the code of its expression, and what is inserted stands nowhere else -/
def Faithful : Trace → Prop
  | empty => True
  | append front back => front.Faithful ∧ back.Faithful
  | instr i => i.isPlain = true
  | branch consequent => consequent.Faithful
  | branches consequent alternate => consequent.Faithful ∧ alternate.Faithful
  | statement e _ code | operand e _ code =>
    (∀ options, code.emit options = e.code options) ∧ code.Faithful

/-- the expressions of statements, in the order of the code -/
def statements : Trace → List (Expr × Bool)
  | empty | instr _ => []
  | append front back | branches front back => front.statements ++ back.statements
  | branch code | operand _ _ code => code.statements
  | statement e final code => (e, final) :: code.statements

/-- the operands, in the order of the code -/
def operands : Trace → List (Expr × DataType)
  | empty | instr _ => []
  | append front back | branches front back => front.operands ++ back.operands
  | branch code | statement _ _ code => code.operands
  | operand e wanted code => (e, wanted) :: code.operands

theorem emit_hoist (t : Trace) (options : EmitOptions) (hoist : Bool) :
    t.emit { options with hoistNestedLocals := hoist } = t.emit options := by
  induction t <;> simp_all [emit]

/-- deleting what is inserted amounts to other options -/
theorem Faithful.codeWithout {t : Trace} (h : t.Faithful) {p : Instr → Bool}
    (hp : ∀ i, i.isPlain = true → p i = false) {options options' : EmitOptions}
    (hdrop : options'.dropExpressionValues = (options.dropExpressionValues && !p .drop))
    (hconvert : options'.convertMixedOperands = (options.convertMixedOperands && !p .convert)) :
    Instr.codeWithout p (t.emit options) = t.emit options' := by
  induction t with
  | empty => rfl
  | append front back ihf ihb => rw [emit, Instr.codeWithout_append, ihf h.1, ihb h.2, emit]
  | instr i => exact Instr.codeWithout_of_isPlain h (hp i h)
  | branch consequent ih =>
    simp [emit, Instr.codeWithout, Instr.without, Instr.alternateWithout, ih h]
  | branches consequent alternate ihc iha =>
    simp [emit, Instr.codeWithout, Instr.without, Instr.alternateWithout, ihc h.1, iha h.2]
  | statement e final code ih =>
    rw [emit, Instr.codeWithout_append, ih h.2, emit, hdrop]
    congr 1
    cases hd : p .drop <;> split <;> simp_all [Instr.codeWithout, Instr.without]
  | operand e wanted code ih =>
    rw [emit, Instr.codeWithout_append, ih h.2, emit, hconvert]
    congr 1
    cases hd : p .convert <;> split <;> simp_all [Instr.codeWithout, Instr.without]

end Trace

/-! ### expressions -/

namespace Expr

/-- the operands of a binary node, with the type that they should have: what is compared has the
type of the left one, and what is computed the type of the result -/
def operands : Expr → List (Expr × DataType)
  | binary op left right type _ =>
    let wanted := if op.isComparison then left.type else type
    [(left, wanted), (right, wanted)]
  | _ => []

mutual

def trace : Expr → Trace
  | number value type _ => .instr (.const value type)
  | var name _ _ => .instr (.localGet name)
  | neg operand type _ =>
    .append (.instr (.zero type)) (.append operand.trace (.instr (.binary .sub type)))
  | binary op left right type _ =>
    let wanted := if op.isComparison then left.type else type
    .append (.operand left wanted left.trace)
      (.append (.operand right wanted right.trace) (.instr (.binary op wanted)))
  | assign target value _ _ => .append value.trace (.instr (.localSet target.name))
  | call callee args _ _ => .append (argsTrace args) (.instr (.call callee.name args.length))

def argsTrace : List Expr → Trace
  | [] => .empty
  | e :: es => .append e.trace (argsTrace es)

end

mutual

theorem emit_trace (options : EmitOptions) : (e : Expr) → e.trace.emit options = e.code options
  | number _ _ _ | var _ _ _ => rfl
  | neg operand _ _ => by
    simp only [trace, code, Trace.emit, emit_trace options operand, List.singleton_append]
  | binary op left right _ _ => by
    simp only [trace, code, Trace.emit, emit_trace options left, emit_trace options right,
      BinaryOp.operandType, EmitOptions.conversion, Bool.and_eq_true, beq_iff_eq, and_assoc,
      List.append_assoc]
  | assign _ value _ _ => by simp only [trace, code, Trace.emit, emit_trace options value]
  | call _ args _ _ => by simp only [trace, code, Trace.emit, emit_argsTrace options args]

theorem emit_argsTrace (options : EmitOptions) :
    (es : List Expr) → (argsTrace es).emit options = argsCode options es
  | [] => rfl
  | e :: es => by
    simp only [argsTrace, argsCode, Trace.emit, emit_trace options e, emit_argsTrace options es]

end

mutual

theorem faithful_trace : (e : Expr) → e.trace.Faithful
  | number _ type _ => by cases type <;> rfl
  | var _ _ _ => rfl
  | neg operand type _ => ⟨by cases type <;> rfl, faithful_trace operand, rfl⟩
  | binary _ left right _ _ =>
    ⟨⟨fun options => emit_trace options left, faithful_trace left⟩,
      ⟨fun options => emit_trace options right, faithful_trace right⟩, rfl⟩
  | assign _ value _ _ => ⟨faithful_trace value, rfl⟩
  | call _ args _ _ => ⟨faithful_argsTrace args, rfl⟩

theorem faithful_argsTrace : (es : List Expr) → (argsTrace es).Faithful
  | [] => trivial
  | e :: es => ⟨faithful_trace e, faithful_argsTrace es⟩

end

mutual

/-- an expression holds no statements -/
theorem statements_trace : (e : Expr) → e.trace.statements = []
  | number _ _ _ | var _ _ _ => rfl
  | neg operand _ _ => by simp [trace, Trace.statements, statements_trace operand]
  | binary _ left right _ _ => by
    simp [trace, Trace.statements, statements_trace left, statements_trace right]
  | assign _ value _ _ => by simp [trace, Trace.statements, statements_trace value]
  | call _ args _ _ => by simp [trace, Trace.statements, statements_argsTrace args]

theorem statements_argsTrace : (es : List Expr) → (argsTrace es).statements = []
  | [] => rfl
  | e :: es => by simp [argsTrace, Trace.statements, statements_trace e, statements_argsTrace es]

end

mutual

/-- each operand of each binary node has a place -/
theorem operands_trace : (e : Expr) → e.trace.operands.Perm (e.parts.flatMap operands)
  | number _ _ _ | var _ _ _ => .nil
  | neg operand _ _ => by
    simpa [trace, Trace.operands, parts, operands] using operands_trace operand
  | binary op left right type _ => by
    let wanted := if op.isComparison then left.type else type
    have hright := (operands_trace right).cons (right, wanted)
    have hrow := ((operands_trace left).append hright).trans List.perm_middle
    simpa [trace, Trace.operands, parts, operands] using hrow.cons (left, wanted)
  | assign _ value _ _ => by
    simpa [trace, Trace.operands, parts, operands] using operands_trace value
  | call _ args _ _ => by
    simpa [trace, Trace.operands, parts, operands] using operands_argsTrace args

theorem operands_argsTrace :
    (es : List Expr) → (argsTrace es).operands.Perm ((argsParts es).flatMap operands)
  | [] => .nil
  | e :: es => by
    simpa [argsTrace, Trace.operands, argsParts] using
      (operands_trace e).append (operands_argsTrace es)

end

end Expr

/-! ### statements -/

namespace Stmt

/-- the expression of an expression statement -/
def value? : Stmt → Option Expr
  | expression e _ => some e
  | _ => none

mutual

def trace (keep : Bool) : Stmt → Trace
  | declaration _ name _ initializer _ _ => .append initializer.trace (.instr (.localSet name.name))
  | ret argument _ => argument.trace
  | conditional condition consequent alternate _ =>
    .append condition.trace (alternateTrace (branchTrace consequent) alternate)
  | expression e _ => .statement e keep e.trace

def branchTrace : List Stmt → Trace
  | [] => .empty
  | s :: ss => .append (s.trace false) (branchTrace ss)

/-- a conditional, behind its condition -/
def alternateTrace (consequent : Trace) : Option (List Stmt) → Trace
  | none => .branch consequent
  | some ss => .branches consequent (branchTrace ss)

end

def bodyTrace : List Stmt → Trace
  | [] => .empty
  | [s] => s.trace true
  | s :: ss => .append (s.trace false) (bodyTrace ss)

mutual

theorem emit_trace (options : EmitOptions) (keep : Bool) :
    (s : Stmt) → (s.trace keep).emit options = s.code options keep
  | declaration _ _ _ e _ _ => by simp only [trace, code, Trace.emit, e.emit_trace]
  | ret e _ => by simp only [trace, code, e.emit_trace]
  | conditional e consequent alternate _ => by
    simp only [trace, code, Trace.emit, e.emit_trace,
      emit_alternateTrace options (emit_branchTrace options consequent) alternate]
  | expression e _ => by
    simp only [trace, code, Trace.emit, e.emit_trace, EmitOptions.disposal, Bool.and_eq_true,
      Bool.not_eq_true', and_assoc]

theorem emit_branchTrace (options : EmitOptions) :
    (ss : List Stmt) → (branchTrace ss).emit options = branchCode options ss
  | [] => rfl
  | s :: ss => by
    simp only [branchTrace, branchCode, Trace.emit, emit_trace options false s,
      emit_branchTrace options ss]

theorem emit_alternateTrace (options : EmitOptions) {t : Trace} {is : List Instr}
    (ht : t.emit options = is) : (alternate : Option (List Stmt)) →
      (alternateTrace t alternate).emit options =
        [.conditional is (alternateCode options alternate)]
  | none => by simp only [alternateTrace, alternateCode, Trace.emit, ht]
  | some ss => by
    simp only [alternateTrace, alternateCode, Trace.emit, ht, emit_branchTrace options ss]

end

theorem emit_bodyTrace (options : EmitOptions) (ss : List Stmt) :
    (bodyTrace ss).emit options = bodyCode options ss := by
  induction ss with
  | nil => rfl
  | cons s ss ih =>
    cases ss with
    | nil => exact s.emit_trace options true
    | cons s' ss =>
      simp only [bodyTrace, bodyCode, Trace.emit, emit_trace] at ih ⊢
      rw [ih]

mutual

theorem faithful_trace (keep : Bool) : (s : Stmt) → (s.trace keep).Faithful
  | declaration _ _ _ e _ _ => ⟨e.faithful_trace, rfl⟩
  | ret e _ => e.faithful_trace
  | conditional e consequent alternate _ =>
    ⟨e.faithful_trace, faithful_alternateTrace (faithful_branchTrace consequent) alternate⟩
  | expression e _ => ⟨fun options => e.emit_trace options, e.faithful_trace⟩

theorem faithful_branchTrace : (ss : List Stmt) → (branchTrace ss).Faithful
  | [] => trivial
  | s :: ss => ⟨faithful_trace false s, faithful_branchTrace ss⟩

theorem faithful_alternateTrace {t : Trace} (ht : t.Faithful) :
    (alternate : Option (List Stmt)) → (alternateTrace t alternate).Faithful
  | none => ht
  | some ss => ⟨ht, faithful_branchTrace ss⟩

end

theorem faithful_bodyTrace (ss : List Stmt) : (bodyTrace ss).Faithful := by
  induction ss with
  | nil => trivial
  | cons s ss ih =>
    cases ss with
    | nil => exact s.faithful_trace true
    | cons s' ss => exact ⟨s.faithful_trace false, ih⟩

/-! ### the places in a body -/

theorem nested_values (s : Stmt) :
    s.nested.filterMap value? = s.value?.toList ++ s.nested.tail.filterMap value? := by
  cases s <;> simp [nested, value?, List.filterMap_cons]

mutual

theorem statements_trace (keep : Bool) : (s : Stmt) → (s.trace keep).statements =
      s.value?.toList.map (·, keep) ++ (s.nested.tail.filterMap value?).map (·, false)
  | declaration _ _ _ e _ _ => by
    simp [trace, Trace.statements, e.statements_trace, nested, value?]
  | ret e _ => by simp [trace, e.statements_trace, nested, value?]
  | conditional e consequent alternate _ => by
    simp [trace, Trace.statements, e.statements_trace, nested, value?,
      statements_alternateTrace (branchTrace consequent) alternate,
      statements_branchTrace consequent]
  | expression e _ => by simp [trace, Trace.statements, e.statements_trace, nested, value?]

theorem statements_branchTrace : (ss : List Stmt) →
    (branchTrace ss).statements = ((branchNested ss).filterMap value?).map (·, false)
  | [] => rfl
  | s :: ss => by
    rw [branchTrace, Trace.statements, statements_trace false s, statements_branchTrace ss,
      branchNested, List.filterMap_append, nested_values, List.map_append, List.map_append]

theorem statements_alternateTrace (t : Trace) : (alternate : Option (List Stmt)) →
    (alternateTrace t alternate).statements =
      t.statements ++ ((alternateNested alternate).filterMap value?).map (·, false)
  | none => by simp [alternateTrace, Trace.statements, alternateNested]
  | some ss => by
    simp [alternateTrace, Trace.statements, alternateNested, statements_branchTrace ss]

end

mutual

theorem operands_trace (keep : Bool) : (s : Stmt) →
    (s.trace keep).operands.Perm (s.nested.flatMap fun s => s.expr.parts.flatMap Expr.operands)
  | declaration _ _ _ e _ _ | ret e _ | expression e _ => by
    simpa [trace, Trace.operands, nested, expr] using e.operands_trace
  | conditional e consequent alternate _ => by
    simpa [trace, Trace.operands, nested, expr] using e.operands_trace.append
      (operands_alternateTrace (operands_branchTrace consequent) alternate)

theorem operands_branchTrace : (ss : List Stmt) → (branchTrace ss).operands.Perm
    ((branchNested ss).flatMap fun s => s.expr.parts.flatMap Expr.operands)
  | [] => .nil
  | s :: ss => by
    simpa [branchTrace, Trace.operands, branchNested] using
      (operands_trace false s).append (operands_branchTrace ss)

theorem operands_alternateTrace {t : Trace} {os : List (Expr × DataType)}
    (ht : t.operands.Perm os) : (alternate : Option (List Stmt)) →
      (alternateTrace t alternate).operands.Perm
        (os ++ (alternateNested alternate).flatMap fun s => s.expr.parts.flatMap Expr.operands)
  | none => by simpa [alternateTrace, Trace.operands, alternateNested] using ht
  | some ss => by
    simpa [alternateTrace, Trace.operands, alternateNested] using
      ht.append (operands_branchTrace ss)

end

end Stmt

/-! ### functions -/

namespace FunctionDecl

/-- the expressions of the expression statements of a function, and whether they are the last
statement of its body -/
def values (f : FunctionDecl) : List (Expr × Bool) :=
  ((f.body.dropLast.flatMap Stmt.nested).filterMap Stmt.value?).map (·, false) ++
    f.body.getLast?.toList.flatMap fun s =>
      s.value?.toList.map (·, true) ++ (s.nested.tail.filterMap Stmt.value?).map (·, false)

/-- the operands of all binary nodes of a function -/
def operands (f : FunctionDecl) : List (Expr × DataType) := f.parts.flatMap Expr.operands

theorem statements_bodyTrace (f : FunctionDecl) :
    (Stmt.bodyTrace f.body).statements = f.values := by
  unfold values
  induction f.body with
  | nil => rfl
  | cons s ss ih =>
    cases ss with
    | nil =>
      rw [Stmt.bodyTrace]
      simpa using s.statements_trace true
    | cons s' ss =>
      rw [Stmt.bodyTrace, Trace.statements, ih, s.statements_trace]
      · simp [Stmt.nested_values]
      · simp

theorem operands_bodyTrace (f : FunctionDecl) :
    (Stmt.bodyTrace f.body).operands.Perm f.operands := by
  unfold operands parts nested
  induction f.body with
  | nil => exact .nil
  | cons s ss ih =>
    cases ss with
    | nil =>
      rw [Stmt.bodyTrace]
      simpa [List.flatMap_assoc] using s.operands_trace true
    | cons s' ss =>
      rw [Stmt.bodyTrace, Trace.operands]
      · simpa [List.flatMap_assoc] using (s.operands_trace false).append ih
      · simp

/-- **The switches insert instructions and do nothing else.**  The body of a function is its trace,
which no option changes, with a place behind the expression of each expression statement and behind
each operand of a binary node.  Without what is inserted there the code is the plain one, each
switch can be undone by itself, and no switch changes anything but the body or the variables. -/
theorem lower_inserts (f : FunctionDecl) :
    ((Stmt.bodyTrace f.body).Faithful ∧ (Stmt.bodyTrace f.body).statements = f.values ∧
      (Stmt.bodyTrace f.body).operands.Perm f.operands ∧
      ∀ options, (f.lower options).body = (Stmt.bodyTrace f.body).emit options) ∧
    ∀ options,
      Instr.codeWithout (fun i => i.isDrop || i.isConvert) (f.lower options).body =
        (f.lower .plain).body ∧
      Instr.codeWithout Instr.isDrop (f.lower options).body =
        (f.lower { options with dropExpressionValues := false }).body ∧
      Instr.codeWithout Instr.isConvert (f.lower options).body =
        (f.lower { options with convertMixedOperands := false }).body ∧
      (∀ hoist, f.lower { options with hoistNestedLocals := hoist } =
        { f.lower options with
          locals := (f.lower { options with hoistNestedLocals := hoist }).locals }) ∧
      ∀ drop convert,
        f.lower { options with dropExpressionValues := drop, convertMixedOperands := convert } =
          { f.lower options with
            body := (f.lower { options with
              dropExpressionValues := drop, convertMixedOperands := convert }).body } := by
  have hbody (options : EmitOptions) :
      (f.lower options).body = (Stmt.bodyTrace f.body).emit options :=
    (Stmt.emit_bodyTrace options f.body).symm
  have hfaithful := Stmt.faithful_bodyTrace f.body
  refine ⟨⟨hfaithful, f.statements_bodyTrace, f.operands_bodyTrace, hbody⟩,
    fun options => ⟨?_, ?_, ?_, fun hoist => ?_, fun drop convert => rfl⟩⟩
  · rw [hbody, hbody]
    refine hfaithful.codeWithout (fun i hi => ?_) (Bool.and_false _).symm (Bool.and_false _).symm
    rw [Instr.isDrop_of_isPlain hi, Instr.isConvert_of_isPlain hi, Bool.or_false]
  · rw [hbody, hbody]
    exact hfaithful.codeWithout (fun _ => Instr.isDrop_of_isPlain) (Bool.and_false _).symm
      (Bool.and_true _).symm
  · rw [hbody, hbody]
    exact hfaithful.codeWithout (fun _ => Instr.isConvert_of_isPlain) (Bool.and_true _).symm
      (Bool.and_false _).symm
  · have hsame : (f.lower { options with hoistNestedLocals := hoist }).body =
        (f.lower options).body := by
      rw [hbody, hbody, Trace.emit_hoist]
    exact congrArg (fun body => { f.lower { options with hoistNestedLocals := hoist } with body })
      hsame

end FunctionDecl

end Wattle
