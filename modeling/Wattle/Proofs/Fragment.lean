import Wattle.Parser.Program
import Wattle.Proofs.Parts
import Wattle.Proofs.Typing

/-!
# Plain programs

The programs whose strict code leaves the stack in order.  In a plain program

* an assignment is the whole expression of an expression statement (`Stmt.Plain`);
* the functions have different names, and a call names a function in front of its own;
* a body ends with its result, a returned value or the value of an expression statement, and
  nothing else is returned (`Stmt.EndsIn`).

All of it is decidable, so that it can be checked on a given program.  `Expr.Plain` and
`StmtsPlain` say the same of the parts of a function, where the known functions are given by their
signatures.
-/

namespace Wattle

/-! ### assignments -/

/-- no assignment at any depth -/
def Expr.Pure (e : Expr) : Prop := ∀ a ∈ e.parts, a.isAssign = false

instance : DecidablePred Expr.Pure := fun e => inferInstanceAs (Decidable (∀ a ∈ e.parts, _))

/-- the expression whose value a statement takes: of an assignment it is the assigned one -/
def Stmt.source : Stmt → Expr
  | .expression (.assign _ value _ _) _ => value
  | s => s.expr

/-- no assignment, other than the one that the statement is -/
def Stmt.Plain (s : Stmt) : Prop := s.source.Pure

instance : DecidablePred Stmt.Plain := fun s => inferInstanceAs (Decidable s.source.Pure)

/-! ### results -/

namespace Stmt

/-- the statement gives a value of a type -/
def Yields (type : DataType) : Stmt → Prop
  | ret e _ => e.type = type
  | expression e _ => e.type = type ∧ e.isAssign = false
  | _ => False

instance (type : DataType) : DecidablePred (Yields type)
  | ret e _ => inferInstanceAs (Decidable (e.type = type))
  | expression e _ => inferInstanceAs (Decidable (e.type = type ∧ e.isAssign = false))
  | declaration _ _ _ _ _ _ | conditional _ _ _ _ => .isFalse id

/-- the last statement of a body is its result, and the only one that may return -/
def EndsIn (type : DataType) : List Stmt → Prop
  | [] => False
  | [s] => s.Yields type
  | s :: ss => (∀ r ∈ s.nested, r.isRet = false) ∧ EndsIn type ss

def decideEndsIn (type : DataType) : (ss : List Stmt) → Decidable (EndsIn type ss)
  | [] => .isFalse id
  | [s] => inferInstanceAs (Decidable (s.Yields type))
  | s :: s' :: ss =>
    have := decideEndsIn type (s' :: ss)
    inferInstanceAs (Decidable ((∀ r ∈ s.nested, r.isRet = false) ∧ EndsIn type (s' :: ss)))

instance (type : DataType) : DecidablePred (EndsIn type) := decideEndsIn type

end Stmt

/-! ### programs -/

/-- the names that the calls in a function name -/
def FunctionDecl.callees (f : FunctionDecl) : List String := f.parts.filterMap Expr.callee?

/-- a plain function, behind some others -/
structure FunctionDecl.Plain (earlier : List FunctionDecl) (f : FunctionDecl) : Prop where
  assignments : ∀ s ∈ f.nested, s.Plain
  calls : ∀ name ∈ f.callees, name ∈ earlier.map (·.name.name)
  result : Stmt.EndsIn f.returnType f.body

instance (earlier : List FunctionDecl) (f : FunctionDecl) : Decidable (f.Plain earlier) :=
  decidable_of_iff ((∀ s ∈ f.nested, s.Plain) ∧
      (∀ name ∈ f.callees, name ∈ earlier.map (·.name.name)) ∧ Stmt.EndsIn f.returnType f.body)
    ⟨fun ⟨ha, hc, hr⟩ => ⟨ha, hc, hr⟩, fun h => ⟨h.assignments, h.calls, h.result⟩⟩

structure Program.Plain (p : Program) : Prop where
  names : (p.functions.map (·.name.name)).Nodup
  functions : ∀ earlier f later, p.functions = earlier ++ f :: later → f.Plain earlier

theorem Program.plain_iff (p : Program) :
    p.Plain ↔ (p.functions.map (·.name.name)).Nodup ∧
      ∀ i, (h : i < p.functions.length) → p.functions[i].Plain (p.functions.take i) := by
  refine ⟨fun ⟨hn, hf⟩ => ⟨hn, fun i h => ?_⟩, fun ⟨hn, hf⟩ => ⟨hn, fun earlier f later e => ?_⟩⟩
  · refine hf _ _ (p.functions.drop (i + 1)) ?_
    rw [List.getElem_cons_drop, List.take_append_drop]
  · simpa [e] using hf earlier.length (by simp [e])

instance (p : Program) : Decidable p.Plain := decidable_of_iff _ p.plain_iff.symm

/-- two functions, with a branch on either side, a call, operands of both types and a value that is
not used -/
def SourceFile.exampleFile : SourceFile where
  name := "example"
  text := "function half(x: Double): Double \x7b return x / 2; \x7d " ++
    "function f(a: Int): Double \x7b if (a < 1) \x7b const b = 0.5; \x7d " ++
    "else \x7b a = -a; \x7d a / 3; return a * half(b); \x7d"

theorem SourceFile.exampleFile_plain : ∃ p, exampleFile.parse = .ok p ∧ p.Plain ∧
    p.functions.map FunctionDecl.signature = [⟨[.double], .double⟩, ⟨[.int], .double⟩] := by
  have hcheck : (match exampleFile.parse with
      | .error _ => false
      | .ok p => decide (p.Plain ∧ p.functions.map FunctionDecl.signature =
          [⟨[.double], .double⟩, ⟨[.int], .double⟩])) = true := by decide +kernel
  split at hcheck
  · simp at hcheck
  · next p h => exact ⟨p, h, of_decide_eq_true hcheck⟩

/-! ### the parts of plain functions -/

/-- no assignment inside, and calls of known functions only -/
def Expr.Plain (Δ : Signatures) (e : Expr) : Prop :=
  ∀ a ∈ e.parts, a.isAssign = false ∧ ∀ name, a.callee? = some name → ∃ signature,
    Δ name = some signature

namespace Expr.Plain

variable {Δ : Signatures} {type : DataType} {span : Span}

@[simp] theorem neg_iff {operand : Expr} : (neg operand type span).Plain Δ ↔ operand.Plain Δ := by
  simp [Plain, parts, isAssign, callee?]

@[simp] theorem binary_iff {op : BinaryOp} {left right : Expr} :
    (binary op left right type span).Plain Δ ↔ left.Plain Δ ∧ right.Plain Δ := by
  simp [Plain, parts, isAssign, callee?, or_imp, forall_and, and_assoc, and_left_comm]

@[simp] theorem not_assign {target : Ident} {value : Expr} :
    ¬(assign target value type span).Plain Δ := by
  simp [Plain, parts, isAssign]

@[simp] theorem call_iff {callee : Ident} {args : List Expr} :
    (call callee args type span).Plain Δ ↔
      (∃ signature, Δ callee.name = some signature) ∧ ∀ e ∈ args, e.Plain Δ := by
  simp only [Plain, parts, argsParts_eq_flatMap, List.forall_mem_cons, isAssign, callee?, true_and,
    Option.some.injEq, forall_eq', List.mem_flatMap]
  refine and_congr_right fun _ => ⟨fun h e he a ha => h a ⟨e, he, ha⟩, fun h a hpart => ?_⟩
  obtain ⟨e, he, ha⟩ := hpart
  exact h e he a ha

end Expr.Plain

/-- an expression statement assigns, or it has an expression that it takes the value of -/
theorem Stmt.source_expression (e : Expr) (span : Span) :
    (∃ target value type span', e = .assign target value type span' ∧
        (expression e span).source = value) ∨
      e.isAssign = false ∧ (expression e span).source = e := by
  cases e with
  | assign target value type span' => exact .inl ⟨target, value, type, span', rfl, rfl⟩
  | _ => exact .inr ⟨rfl, rfl⟩

/-- statements in front of the result of a plain function -/
def StmtsPlain (Δ : Signatures) (ss : List Stmt) : Prop :=
  ∀ s ∈ ss.flatMap Stmt.nested, s.source.Plain Δ ∧ s.isRet = false

namespace StmtsPlain

variable {Δ : Signatures} {e : Expr} {ss : List Stmt} {span : Span}

theorem cons_iff {s : Stmt} : StmtsPlain Δ (s :: ss) ↔
    (∀ r ∈ s.nested, r.source.Plain Δ ∧ r.isRet = false) ∧ StmtsPlain Δ ss := by
  rw [StmtsPlain, List.flatMap_cons, List.forall_mem_append]
  rfl

@[simp] theorem declaration_iff {kind : VarKind} {name : Ident} {type : DataType} :
    StmtsPlain Δ (.declaration kind name type e isConst span :: ss) ↔
      e.Plain Δ ∧ StmtsPlain Δ ss := by
  simp [cons_iff, Stmt.nested, Stmt.source, Stmt.expr, Stmt.isRet]

@[simp] theorem not_ret : ¬StmtsPlain Δ (.ret e span :: ss) := by
  simp [cons_iff, Stmt.nested, Stmt.isRet]

@[simp] theorem expression_iff :
    StmtsPlain Δ (.expression e span :: ss) ↔
      (Stmt.expression e span).source.Plain Δ ∧ StmtsPlain Δ ss := by
  simp [cons_iff, Stmt.nested, Stmt.isRet]

@[simp] theorem conditional_iff {consequent : List Stmt} {alternate : Option (List Stmt)} :
    StmtsPlain Δ (.conditional e consequent alternate span :: ss) ↔
      e.Plain Δ ∧ StmtsPlain Δ consequent ∧ StmtsPlain Δ (alternate.getD []) ∧
        StmtsPlain Δ ss := by
  simp only [cons_iff, Stmt.nested, Stmt.branchNested_eq_flatMap, Stmt.alternateNested_eq_flatMap,
    List.forall_mem_cons, List.forall_mem_append, Stmt.source, Stmt.expr, Stmt.isRet, and_true,
    and_assoc]
  rfl

end StmtsPlain

theorem StmtsPlain.singleton {Δ : Signatures} {s : Stmt}
    (h : ∀ r ∈ s.nested, r.source.Plain Δ) (hret : ∀ r ∈ s.nested, r.isRet = false) :
    StmtsPlain Δ [s] :=
  cons_iff.2 ⟨fun r hr => ⟨h r hr, hret r hr⟩, by simp [StmtsPlain]⟩

/-- the signatures of the functions in front of a plain function are those that it needs -/
theorem FunctionDecl.Plain.source_plain {earlier : List FunctionDecl} {f : FunctionDecl}
    (h : f.Plain earlier) {s : Stmt} (hs : s ∈ f.nested) :
    s.source.Plain (.ofFunctions earlier) := by
  have hsub : ∀ a ∈ s.source.parts, a ∈ s.expr.parts := by
    intro a ha
    cases s with
    | expression e span =>
      obtain ⟨target, value, type, span', rfl, hsource⟩ | ⟨-, hsource⟩ :=
        Stmt.source_expression e span <;> rw [hsource] at ha
      · exact List.mem_cons_of_mem _ ha
      · exact ha
    | _ => exact ha
  refine fun a ha => ⟨h.assignments s hs a ha, fun name hname => ?_⟩
  have hparts : a ∈ f.parts := List.mem_flatMap.2 ⟨s, hs, hsub a ha⟩
  obtain ⟨g, hg, e⟩ := List.mem_map.1 (h.calls name (List.mem_filterMap.2 ⟨a, hparts, hname⟩))
  have hfound : (earlier.reverse.find? fun f => f.name.name == name).isSome := by
    rw [List.find?_isSome]
    exact ⟨g, List.mem_reverse.2 hg, by simpa using e⟩
  obtain ⟨g', hg'⟩ := Option.isSome_iff_exists.1 hfound
  exact ⟨g'.signature, by simp [Signatures.ofFunctions, hg']⟩

end Wattle
