import Wattle.Proofs.Json.Diagnostic
import Wattle.Proofs.Json.Double
import Wattle.Proofs.Literals
import Wattle.Report

/-!
# The document of a program determines it

No two programs share a document, as long as their numbers are finite (`Program.toJson_inj`): the
`type` of a node tells which node it is, and no other member stands for two of its parts.  Documents
are read back from their texts, so that programs with one text are one program, and so are those
with one `ast` in the texts of their reports (`Program.eq_of_text`).
-/

namespace Wattle

/-! ### the leaves of a tree -/

@[simp] theorem DataType.text_inj {t t' : DataType} : t.text = t'.text ↔ t = t' := by
  cases t <;> cases t' <;> decide

@[simp] theorem BinaryOp.text_inj {op op' : BinaryOp} : op.text = op'.text ↔ op = op' := by
  cases op <;> cases op' <;> decide

@[simp] theorem VarKind.text_inj {kind kind' : VarKind} :
    kind.text = kind'.text ↔ kind = kind' := by
  cases kind <;> cases kind' <;> decide

@[simp] theorem Span.wellFormed_toJson (s : Span) : s.toJson.WellFormed := by
  simp [toJson]

@[simp] theorem Span.toJson_inj {s t : Span} : s.toJson = t.toJson ↔ s = t := by
  refine ⟨fun h => ?_, congrArg toJson⟩
  obtain ⟨⟨line, column⟩, endLine, endColumn⟩ := s
  simp_all [toJson]

@[simp] theorem Ident.wellFormed_toJson (i : Ident) : i.toJson.WellFormed := by
  simp [toJson]

@[simp] theorem Ident.toJson_inj {i j : Ident} : i.toJson = j.toJson ↔ i = j := by
  refine ⟨fun h => ?_, congrArg toJson⟩
  obtain ⟨name, span⟩ := i
  simp_all [toJson]

@[simp] theorem Binding.wellFormed_toJson (b : Binding) : b.toJson.WellFormed := by
  simp [toJson]

@[simp] theorem Binding.toJson_inj {b c : Binding} : b.toJson = c.toJson ↔ b = c := by
  refine ⟨fun h => ?_, congrArg toJson⟩
  obtain ⟨name, type⟩ := b
  simp_all [toJson]

/-! ### expressions -/

namespace Expr

/-- every number in an expression is finite -/
def Finite (e : Expr) : Prop := ∀ l ∈ e.literals, l.1.isFinite = true

mutual

@[simp] theorem wellFormed_toJson : (e : Expr) → e.toJson.WellFormed
  | number .. | var .. => by simp [toJson]
  | neg operand .. => by simp [toJson, wellFormed_toJson operand]
  | binary _ left right .. => by simp [toJson, wellFormed_toJson left, wellFormed_toJson right]
  | assign _ value .. => by simp [toJson, wellFormed_toJson value]
  | call _ args .. => by simpa [toJson] using wellFormed_argsJson args

theorem wellFormed_argsJson : (es : List Expr) → ∀ j ∈ argsJson es, j.WellFormed
  | [] => List.forall_mem_nil _
  | e :: es => List.forall_mem_cons.2 ⟨wellFormed_toJson e, wellFormed_argsJson es⟩

end

section
variable {type : DataType} {span : Span}

@[simp] theorem finite_number {value : Double} :
    (number value type span).Finite ↔ value.isFinite = true := by
  simp [Finite]

@[simp] theorem finite_neg {operand : Expr} :
    (neg operand type span).Finite ↔ operand.Finite := Iff.rfl

@[simp] theorem finite_binary {op : BinaryOp} {left right : Expr} :
    (binary op left right type span).Finite ↔ left.Finite ∧ right.Finite := by
  simp only [Finite, literals_binary, List.forall_mem_append]

@[simp] theorem finite_assign {target : Ident} {value : Expr} :
    (assign target value type span).Finite ↔ value.Finite := Iff.rfl

@[simp] theorem finite_call {callee : Ident} {args : List Expr} :
    (call callee args type span).Finite ↔ ∀ e ∈ args, e.Finite := by
  simp only [Finite, literals_call, List.forall_mem_flatMap]

end

mutual

/-- **The document of an expression determines it.** -/
theorem toJson_inj : (e : Expr) → e.Finite → ∀ e', e.toJson = e'.toJson → e = e'
  | number value type span, hfinite, e', h => by
    -- an expression of another kind has other keys, or the same ones with another `type`
    cases e' with
    | number value' type' span' =>
      obtain ⟨htype, hspan, hvalue⟩ : type = type' ∧ span = span' ∧
          Json.double value = Json.double value' := by simpa [toJson] using h
      rw [htype, hspan, Json.double_inj (finite_number.1 hfinite) hvalue]
    | _ => simp [toJson] at h
  | var name type span, _, e', h => by
    cases e' with
    | var name' type' span' =>
      obtain ⟨htype, hname, hspan⟩ : type = type' ∧ name = name' ∧ span = span' := by
        simpa [toJson] using h
      rw [htype, hname, hspan]
    | _ => simp [toJson] at h
  | neg operand type span, hfinite, e', h => by
    cases e' with
    | neg operand' type' span' =>
      obtain ⟨htype, hoperand, hspan⟩ : type = type' ∧ operand.toJson = operand'.toJson ∧
          span = span' := by simpa [toJson] using h
      rw [htype, hspan, toJson_inj operand (finite_neg.1 hfinite) operand' hoperand]
    | _ => simp [toJson] at h
  | binary op left right type span, hfinite, e', h => by
    cases e' with
    | binary op' left' right' type' span' =>
      obtain ⟨hfinite, hfinite'⟩ := finite_binary.1 hfinite
      obtain ⟨htype, hleft, hop, hright, hspan⟩ : type = type' ∧ left.toJson = left'.toJson ∧
          op = op' ∧ right.toJson = right'.toJson ∧ span = span' := by simpa [toJson] using h
      rw [htype, hop, hspan, toJson_inj left hfinite left' hleft,
        toJson_inj right hfinite' right' hright]
    | _ => simp [toJson] at h
  | assign target value type span, hfinite, e', h => by
    cases e' with
    | assign target' value' type' span' =>
      obtain ⟨htype, htarget, hvalue, hspan⟩ : type = type' ∧ target = target' ∧
          value.toJson = value'.toJson ∧ span = span' := by simpa [toJson] using h
      rw [htype, htarget, hspan, toJson_inj value (finite_assign.1 hfinite) value' hvalue]
    | _ => simp [toJson] at h
  | call callee args type span, hfinite, e', h => by
    cases e' with
    | call callee' args' type' span' =>
      obtain ⟨hargs, hcallee, htype, hspan⟩ : argsJson args = argsJson args' ∧
          callee = callee' ∧ type = type' ∧ span = span' := by simpa [toJson] using h
      rw [hcallee, htype, hspan, argsJson_inj args (finite_call.1 hfinite) args' hargs]
    | _ => simp [toJson] at h

theorem argsJson_inj : (es : List Expr) → (∀ e ∈ es, e.Finite) → ∀ es',
    argsJson es = argsJson es' → es = es'
  | [], _, [], _ => rfl
  | e :: es, hfinite, e' :: es', h => by
    obtain ⟨hfinite, hfinite'⟩ := List.forall_mem_cons.1 hfinite
    obtain ⟨he, hes⟩ := List.cons.inj h
    rw [toJson_inj e hfinite e' he, argsJson_inj es hfinite' es' hes]
  | [], _, _ :: _, h | _ :: _, _, [], h => by cases h

end

end Expr

/-! ### statements -/

namespace Stmt

/-- every number in a statement is finite -/
def Finite (s : Stmt) : Prop := ∀ l ∈ s.literals, l.1.isFinite = true

mutual

@[simp] theorem wellFormed_toJson : (s : Stmt) → s.toJson.WellFormed
  | declaration .. | ret .. | expression .. => by simp [toJson]
  | conditional _ consequent alternate _ => by
    simpa [toJson] using
      ⟨wellFormed_alternateJson alternate, wellFormed_branchJson consequent⟩

theorem wellFormed_branchJson : (ss : List Stmt) → ∀ j ∈ branchJson ss, j.WellFormed
  | [] => List.forall_mem_nil _
  | s :: ss => List.forall_mem_cons.2 ⟨wellFormed_toJson s, wellFormed_branchJson ss⟩

theorem wellFormed_alternateJson : (alternate : Option (List Stmt)) →
    (alternateJson alternate).WellFormed
  | none => trivial
  | some ss => (Json.wellFormed_array _).2 (wellFormed_branchJson ss)

end

section
variable {span : Span}

@[simp] theorem finite_declaration {kind : VarKind} {name : Ident} {type : DataType} {e : Expr}
    {isConst : Bool} : (declaration kind name type e isConst span).Finite ↔ e.Finite := by
  simp only [Finite, literals_declaration, Expr.Finite]

@[simp] theorem finite_ret {e : Expr} : (ret e span).Finite ↔ e.Finite := by
  simp only [Finite, literals_ret, Expr.Finite]

@[simp] theorem finite_conditional {e : Expr} {ss : List Stmt} {alternate : Option (List Stmt)} :
    (conditional e ss alternate span).Finite ↔
      e.Finite ∧ (∀ s ∈ ss, s.Finite) ∧ ∀ s ∈ alternate.getD [], s.Finite := by
  simp only [Finite, literals_conditional, Expr.Finite, List.forall_mem_append,
    List.forall_mem_flatMap]

@[simp] theorem finite_expression {e : Expr} : (expression e span).Finite ↔ e.Finite := by
  simp only [Finite, literals_expression, Expr.Finite]

end

mutual

/-- **The document of a statement determines it.** -/
theorem toJson_inj : (s : Stmt) → s.Finite → ∀ s', s.toJson = s'.toJson → s = s'
  | declaration kind name type e isConst span, hfinite, s', h => by
    cases s' with
    | declaration kind' name' type' e' isConst' span' =>
      obtain ⟨htype, he, hconst, hkind, hname, hspan⟩ : type = type' ∧ e.toJson = e'.toJson ∧
          isConst = isConst' ∧ kind = kind' ∧ name = name' ∧ span = span' := by
        simpa [toJson] using h
      rw [htype, hconst, hkind, hname, hspan, e.toJson_inj (finite_declaration.1 hfinite) e' he]
    | _ => simp [toJson] at h
  | ret e span, hfinite, s', h => by
    cases s' with
    | ret e' span' =>
      obtain ⟨he, hspan⟩ : e.toJson = e'.toJson ∧ span = span' := by simpa [toJson] using h
      rw [hspan, e.toJson_inj (finite_ret.1 hfinite) e' he]
    | _ => simp [toJson] at h
  | conditional e ss alternate span, hfinite, s', h => by
    cases s' with
    | conditional e' ss' alternate' span' =>
      obtain ⟨hfinite, hfiniteThen, hfiniteElse⟩ := finite_conditional.1 hfinite
      obtain ⟨halternate, he, hss, hspan⟩ : alternateJson alternate = alternateJson alternate' ∧
          e.toJson = e'.toJson ∧ branchJson ss = branchJson ss' ∧ span = span' := by
        simpa [toJson] using h
      rw [hspan, e.toJson_inj hfinite e' he, branchJson_inj ss hfiniteThen ss' hss,
        alternateJson_inj alternate hfiniteElse alternate' halternate]
    | _ => simp [toJson] at h
  | expression e span, hfinite, s', h => by
    cases s' with
    | expression e' span' =>
      obtain ⟨he, hspan⟩ : e.toJson = e'.toJson ∧ span = span' := by simpa [toJson] using h
      rw [hspan, e.toJson_inj (finite_expression.1 hfinite) e' he]
    | _ => simp [toJson] at h

theorem branchJson_inj : (ss : List Stmt) → (∀ s ∈ ss, s.Finite) → ∀ ss',
    branchJson ss = branchJson ss' → ss = ss'
  | [], _, [], _ => rfl
  | s :: ss, hfinite, s' :: ss', h => by
    obtain ⟨hfinite, hfinite'⟩ := List.forall_mem_cons.1 hfinite
    obtain ⟨hs, hss⟩ := List.cons.inj h
    rw [toJson_inj s hfinite s' hs, branchJson_inj ss hfinite' ss' hss]
  | [], _, _ :: _, h | _ :: _, _, [], h => by cases h

/-- an alternate that is not there is not an empty one -/
theorem alternateJson_inj : (alternate : Option (List Stmt)) →
    (∀ s ∈ alternate.getD [], s.Finite) → ∀ alternate',
    alternateJson alternate = alternateJson alternate' → alternate = alternate'
  | none, _, none, _ => rfl
  | some ss, hfinite, some ss', h =>
    congrArg some (branchJson_inj ss hfinite ss' (Json.array.inj h))
  | none, _, some _, h | some _, _, none, h => by cases h

end

end Stmt

/-! ### programs -/

namespace FunctionDecl

/-- every number in a function is finite -/
def Finite (f : FunctionDecl) : Prop := ∀ l ∈ f.literals, l.1.isFinite = true

theorem finite_iff {f : FunctionDecl} : f.Finite ↔ ∀ s ∈ f.body, s.Finite := by
  simp only [Finite, literals, Stmt.Finite, List.forall_mem_flatMap]

@[simp] theorem wellFormed_toJson (f : FunctionDecl) : f.toJson.WellFormed := by
  simpa [toJson] using Stmt.wellFormed_branchJson f.body

theorem toJson_inj {f g : FunctionDecl} (hfinite : f.Finite) (h : f.toJson = g.toJson) :
    f = g := by
  have hbindings {bs cs : List Binding} :
      bs.map Binding.toJson = cs.map Binding.toJson ↔ bs = cs :=
    List.map_inj_right fun _ _ => Binding.toJson_inj.1
  obtain ⟨name, params, locals, returnType, body, span⟩ := f
  obtain ⟨name', params', locals', returnType', body', span'⟩ := g
  obtain ⟨hbody, hlocals, hname, hparams, htype, hspan⟩ :
      Stmt.branchJson body = Stmt.branchJson body' ∧ locals = locals' ∧ name = name' ∧
        params = params' ∧ returnType = returnType' ∧ span = span' := by
    simpa [toJson, hbindings] using h
  rw [hname, hparams, hlocals, htype, hspan,
    Stmt.branchJson_inj body (finite_iff.1 hfinite) body' hbody]

theorem map_toJson_inj {fs gs : List FunctionDecl} (hfinite : ∀ f ∈ fs, f.Finite)
    (h : fs.map toJson = gs.map toJson) : fs = gs := by
  induction fs generalizing gs with
  | nil => exact (List.map_eq_nil_iff.1 h.symm).symm
  | cons f fs ih =>
    obtain ⟨hf, hfs⟩ := List.forall_mem_cons.1 hfinite
    obtain ⟨g, gs', rfl, hg, hgs⟩ := List.map_eq_cons_iff.1 h.symm
    rw [toJson_inj hf hg.symm, ih hfs hgs.symm]

end FunctionDecl

namespace Program

/-- every number in a program is finite -/
def Finite (p : Program) : Prop := ∀ l ∈ p.literals, l.1.isFinite = true

theorem finite_iff {p : Program} : p.Finite ↔ ∀ f ∈ p.functions, f.Finite := by
  simp only [Finite, literals, FunctionDecl.Finite, List.forall_mem_flatMap]

instance (p : Program) : Decidable p.Finite :=
  inferInstanceAs (Decidable (∀ l ∈ p.literals, l.1.isFinite = true))

@[simp] theorem wellFormed_toJson (p : Program) : p.toJson.WellFormed := by
  simp [toJson]

theorem toJson_inj {p q : Program} (hfinite : p.Finite) (h : p.toJson = q.toJson) : p = q := by
  obtain ⟨functions, span⟩ := p
  obtain ⟨functions', span'⟩ := q
  obtain ⟨hfunctions, hspan⟩ :
      functions.map FunctionDecl.toJson = functions'.map FunctionDecl.toJson ∧ span = span' := by
    simpa [toJson] using h
  have heq : functions = functions' :=
    FunctionDecl.map_toJson_inj (finite_iff.1 hfinite) hfunctions
  rw [heq, hspan]

end Program

/-! ### reports -/

namespace Report

variable (r : Report)

theorem wellFormed_toJson : r.toJson.WellFormed := by
  have hoption {α : Type} {encode : α → Json} (h : ∀ a, (encode a).WellFormed) (a? : Option α) :
      (Json.option encode a?).WellFormed := by
    cases a? with
    | none => trivial
    | some a => exact h a
  simp [toJson, hoption]

/-- the text of a report holds the document of its program -/
theorem member?_ast :
    Json.member? "ast" r.toJson.write = some (.option Program.toJson r.program?) := by
  rw [Json.member?_write r.wellFormed_toJson rfl]
  rfl

end Report

namespace Program

/-- **No two programs share a document.**  Programs with one document, with one text of it or with
one `ast` in the texts of their reports are the same program, if the numbers of one of them are
finite. -/
theorem eq_of_text {p q : Program} (hfinite : p.Finite) :
    (p.toJson = q.toJson ↔ p = q) ∧ (p.toJson.write = q.toJson.write ↔ p = q) ∧
      ∀ r r' : Report, r.program? = some p → r'.program? = some q →
        (Json.member? "ast" r.toJson.write = Json.member? "ast" r'.toJson.write ↔ p = q) := by
  have hdocument : p.toJson = q.toJson ↔ p = q := ⟨toJson_inj hfinite, congrArg toJson⟩
  refine ⟨hdocument, ?_, fun r r' hp hq => ?_⟩
  · refine ⟨fun h => ?_, fun h => by rw [h]⟩
    exact hdocument.1 (Json.write_inj p.wellFormed_toJson q.wellFormed_toJson h)
  · rw [r.member?_ast, r'.member?_ast, hp, hq, Option.some_inj]
    exact hdocument

/-- a function with a conditional that does nothing -/
def branching (alternate : Option (List Stmt)) : Program :=
  let span : Span := .point .origin
  ⟨[⟨⟨"f", span⟩, [], [], .int,
    [.conditional (.number (.ofNat 1) .int span) [] alternate span], span⟩], span⟩

/-- an alternate that is empty can be told from one that is not there -/
theorem write_branching_ne : (branching none).Finite ∧
    (branching none).toJson.write ≠ (branching (some [])).toJson.write := by
  have hfinite : (branching none).Finite := by decide +kernel
  refine ⟨hfinite, fun h => ?_⟩
  have heq := (eq_of_text hfinite).2.1.1 h
  simp [branching] at heq

end Program

end Wattle
