import Wattle.Proofs.Lowering.Basic
import Wattle.Proofs.Machine.Validation
import Wattle.Proofs.Number.Exact
import Wattle.Proofs.Parser.Typing

/-!
# Strict code is valid

The code that plain programs are lowered to under the strict options follows the stack rules.  The
code of an expression leaves one value of its type (`Expr.Typed.takes`), statements leave the stack
as it is (`StmtsTyped.takes`) and a body leaves its result (`StmtsTyped.takes_body`), each over any
stack.  `SourceFile.valid_of_parse` draws the conclusion for every text that is accepted.
-/

namespace Wattle

/-! ### frames -/

namespace Frame

variable {F : Frame}

/-- every variable that is bound has a slot -/
def Covers (F : Frame) (Γ : Env) : Prop := ∀ ⦃x type⦄, Γ x = some type → F.HasSlot x type

/-- every function that is known is defined with its signature -/
def Defines (F : Frame) (Δ : Signatures) : Prop :=
  ∀ ⦃name signature⦄, Δ name = some signature → ∃ g, F.HasFunc name g ∧
    g.params.map (·.type) = signature.params ∧ g.result = signature.returnType

theorem Covers.mono {Γ Γ' : Env} (h : F.Covers Γ') (hle : Γ.Le Γ') : F.Covers Γ :=
  fun _ _ hx => h (hle hx)

theorem covers_of_declares {Γ : Env} (h : Declares F.slots Γ) : F.Covers Γ := by
  intro x type hx
  rw [HasSlot, h x, hx]
  rfl

end Frame

/-! ### expressions -/

section
variable {F : Frame} {Δ : Signatures} {Γ : Env}

theorem Takes.const {value : Double} {type : DataType} {span : Span}
    (h : (Expr.number value type span).Typed Δ Γ) : Takes F [.const value type] [] [type] := by
  intro st
  cases h with
  | number hi hd =>
    cases type with
    | int =>
      obtain ⟨n, hn, rfl⟩ := hi rfl
      have hword : (Double.ofNat n).toWord = n := Double.toWord_ofNat (by omega)
      exact .intConst (by omega) (by omega) .nil
    | double => exact .doubleConst (hd rfl) .nil

theorem Takes.zero (type : DataType) : Takes F [.zero type] [] [type] := by
  intro st
  cases type with
  | int => exact .intConst (n := 0) (by omega) (by omega) .nil
  | double => exact .doubleZero .nil

theorem Takes.conversion {wanted found : DataType} (h : wanted = .double ∨ found = wanted) :
    Takes F (EmitOptions.strict.conversion wanted found) [found] [wanted] := by
  intro st
  cases wanted <;> cases found
  · exact .nil
  · simp at h
  · exact .convert .nil
  · exact .nil

/-- an operator between two operands, each with its conversion -/
theorem Takes.operator (op : BinaryOp) {wanted left right : DataType} {code code' : List Instr}
    (hl : Takes F code [] [left]) (hr : Takes F code' [] [right])
    (hleft : wanted = .double ∨ left = wanted) (hright : wanted = .double ∨ right = wanted) :
    Takes F (code ++ EmitOptions.strict.conversion wanted left ++
      (code' ++ EmitOptions.strict.conversion wanted right ++ [.binary op wanted])) []
      [(op.numeric wanted).result] := by
  have hfirst := hl.append (Takes.conversion hleft)
  have hsecond := (hr.append (Takes.conversion hright)).under [wanted]
  exact hfirst.append (hsecond.append (Takes.binary op wanted))

/-- arguments are left in order, the last one on the top -/
theorem Takes.args {es : List Expr} (h : ∀ e ∈ es, Takes F (e.code .strict) [] [e.type]) :
    Takes F (Expr.argsCode .strict es) [] (es.map Expr.type).reverse := by
  induction es with
  | nil => exact .nil
  | cons e es ih =>
    rw [List.forall_mem_cons] at h
    obtain ⟨he, hes⟩ := h
    have hrest := (ih hes).under [e.type]
    rw [List.map_cons, List.reverse_cons]
    exact he.append hrest

theorem Takes.call {name : String} {g : Func} (arity : Nat) (hg : F.HasFunc name g) :
    Takes F [.call name arity] (g.params.map (·.type)).reverse [g.result] :=
  fun _ => .call hg .nil

theorem Expr.Typed.takes {e : Expr} (h : e.Typed Δ Γ) (hplain : e.Plain Δ) (hΓ : F.Covers Γ)
    (hΔ : F.Defines Δ) : Takes F (e.code .strict) [] [e.type] := by
  induction h with
  | @number value type span hi hd =>
    have hnumber : (Expr.number value type span).Typed Δ Γ := .number hi hd
    exact Takes.const hnumber
  | var hx => exact fun st => .localGet (hΓ hx) .nil
  | @neg operand span h ih =>
    have hoperand := (ih (Expr.Plain.neg_iff.1 hplain)).under [operand.type]
    have hsub := Takes.binary (F := F) .sub operand.type
    rw [BinaryOp.result_numeric] at hsub
    exact (Takes.zero operand.type).append (hoperand.append hsub)
  | @arithmetic op left right span hop hl hr ihl ihr =>
    obtain ⟨hpl, hpr⟩ := Expr.Plain.binary_iff.1 hplain
    generalize hw : (if left.type = .double ∨ right.type = .double then DataType.double
      else .int) = wanted
    obtain ⟨hleft, hright⟩ := arithmetic_cases hw.symm
    have hcode := Takes.operator op (ihl hpl) (ihr hpr) hleft hright
    simpa [code, BinaryOp.operandType, hop, type] using hcode
  | @comparison op left right span hop hl hr ht ihl ihr =>
    obtain ⟨hpl, hpr⟩ := Expr.Plain.binary_iff.1 hplain
    have hcode := Takes.operator op (ihl hpl) (ihr hpr) (.inr rfl) (.inr ht.symm)
    simpa [code, BinaryOp.operandType, hop, type] using hcode
  | assign => exact absurd hplain Expr.Plain.not_assign
  | @call callee args type span hargs hknown hunknown ih =>
    obtain ⟨⟨signature, hsignature⟩, hplains⟩ := Expr.Plain.call_iff.1 hplain
    obtain ⟨hparams, rfl⟩ := hknown signature hsignature
    obtain ⟨g, hg, hgparams, hgresult⟩ := hΔ hsignature
    have hrow := Takes.args fun e he => ih e he (hplains e he)
    rw [hparams, ← hgparams] at hrow
    have hcall := hrow.append (Takes.call args.length hg)
    rw [hgresult] at hcall
    exact hcall

/-! ### statements -/

theorem Takes.localSet {x : String} {type : DataType} (hx : F.HasSlot x type) :
    Takes F [.localSet x] [type] [] :=
  fun _ => .localSet hx .nil

theorem Takes.drop (type : DataType) : Takes F [.drop] [type] [] := fun _ => .drop .nil

theorem Takes.conditional {consequent : List Instr} {alternate : Option (List Instr)}
    (ht : Takes F consequent [] []) (hf : Takes F (alternate.getD []) [] []) :
    Takes F [.conditional consequent alternate] [.int] [] := by
  intro st
  have helse : Valid F ((alternate.map Instr.texts).getD []) [] [] := by
    cases alternate with
    | none => exact .nil
    | some code => exact hf []
  have hnil : Valid F [] st st := .nil
  have hcode := Valid.conditional (ht []) helse hnil
  cases alternate <;> exact hcode

/-- an expression statement whose value is not kept -/
theorem Takes.expression {e : Expr} {span : Span} (h : e.Typed Δ Γ)
    (hplain : (Stmt.expression e span).source.Plain Δ) (hΓ : F.Covers Γ) (hΔ : F.Defines Δ) :
    Takes F ((Stmt.expression e span).code .strict false) [] [] := by
  obtain ⟨target, value, type, span', rfl, hsource⟩ | ⟨ha, hsource⟩ :=
    Stmt.source_expression e span <;> rw [hsource] at hplain
  · cases h with
    | assign ht hv htype =>
      have hset := (hv.takes hplain hΓ hΔ).append (Takes.localSet (htype ▸ hΓ ht))
      simpa [Stmt.code, Expr.code, EmitOptions.disposal, Expr.isAssign] using hset
  · have hdrop := (h.takes hplain hΓ hΔ).append (Takes.drop e.type)
    simpa [Stmt.code, EmitOptions.disposal, ha, EmitOptions.strict] using hdrop

/-- statements that keep no value leave the stack as it is -/
theorem StmtsTyped.takes {Γ' : Env} {ss : List Stmt} (h : StmtsTyped Δ Γ ss Γ')
    (hplain : StmtsPlain Δ ss) (hΓ : F.Covers Γ') (hΔ : F.Defines Δ) :
    Takes F (Stmt.branchCode .strict ss) [] [] := by
  induction h with
  | nil => exact .nil
  | @declaration Γ Γ' kind name type init isConst span ss hnew hi ht hs ih =>
    obtain ⟨hinit, hrest⟩ := StmtsPlain.declaration_iff.1 hplain
    have hbound : Γ' name.name = some type := hs.le (by simp [Env.bind])
    have hcode := hi.takes hinit (hΓ.mono ((Env.le_bind type hnew).trans hs.le)) hΔ
    rw [ht] at hcode
    exact (hcode.append (Takes.localSet (hΓ hbound))).append (ih hrest hΓ)
  | ret => exact absurd hplain StmtsPlain.not_ret
  | expression he hs ih =>
    obtain ⟨hsource, hrest⟩ := StmtsPlain.expression_iff.1 hplain
    exact (Takes.expression he hsource (hΓ.mono hs.le) hΔ).append (ih hrest hΓ)
  | conditional hc ht h₁ h₂ hs ih₁ ih₂ ih =>
    obtain ⟨hcondition, hconsequent, halternate, hrest⟩ := StmtsPlain.conditional_iff.1 hplain
    have hΓ₂ := hΓ.mono hs.le
    have hΓ₁ := hΓ₂.mono h₂.le
    have hcode := hc.takes hcondition (hΓ₁.mono h₁.le) hΔ
    rw [ht] at hcode
    have hbranches := Takes.conditional (ih₁ hconsequent hΓ₁)
      (Stmt.alternateCode_getD .strict _ ▸ ih₂ halternate hΓ₂)
    exact (hcode.append hbranches).append (ih hrest hΓ)

/-- the last statement of a body leaves the result -/
theorem Takes.result {Γ' : Env} {s : Stmt} {type : DataType} (h : StmtsTyped Δ Γ [s] Γ')
    (hs : s.Yields type) (hplain : s.source.Plain Δ) (hΓ : F.Covers Γ') (hΔ : F.Defines Δ) :
    Takes F (s.code .strict true) [] [type] := by
  obtain ⟨he, hexpr, rfl⟩ := h.of_result hs hplain
  rw [Stmt.code_of_yields .strict hs]
  exact he.takes hexpr hΓ hΔ

theorem StmtsTyped.takes_body {Γ' : Env} {ss : List Stmt} {type : DataType}
    (h : StmtsTyped Δ Γ ss Γ') (hend : Stmt.EndsIn type ss)
    (hplain : ∀ s ∈ ss.flatMap Stmt.nested, s.source.Plain Δ) (hΓ : F.Covers Γ')
    (hΔ : F.Defines Δ) : Takes F (Stmt.bodyCode .strict ss) [] [type] := by
  induction ss generalizing Γ with
  | nil => exact absurd hend id
  | cons s ss ih =>
    rw [List.flatMap_cons, List.forall_mem_append] at hplain
    cases ss with
    | nil => exact Takes.result h hend (hplain.1 s (Stmt.self_mem_nested s)) hΓ hΔ
    | cons s' ss =>
      obtain ⟨hret, hend⟩ := hend
      obtain ⟨Γ₁, hs, hss⟩ := h.of_cons
      have hcode := hs.takes (StmtsPlain.singleton hplain.1 hret) (hΓ.mono hss.le) hΔ
      rw [Stmt.branchCode_cons, Stmt.branchCode, List.append_nil] at hcode
      exact hcode.append (ih hss hend hplain.2)

end

/-! ### programs -/

theorem Frame.defines_lower {p : Program} {earlier later : List FunctionDecl} {f : FunctionDecl}
    (hplain : p.Plain) (hf : p.functions = earlier ++ f :: later) (g : Func) :
    (g.frame (p.lower .strict)).Defines (.ofFunctions earlier) := by
  intro name signature h
  obtain ⟨g, hg, rfl, rfl⟩ := Signatures.of_ofFunctions h
  have hmem : g ∈ p.functions := hf ▸ List.mem_append_left _ hg
  refine ⟨g.lower .strict, filter_map_lower .strict hplain.names hmem, ?_, rfl⟩
  simp [FunctionDecl.lower, FunctionDecl.signature, Binding.slot]

/-- **Strict code is valid.**  In the module of an accepted plain program the body of every
function takes the empty stack to just its result. -/
theorem SourceFile.valid_of_parse {file : SourceFile} {p : Program} (h : file.parse = .ok p)
    (hplain : p.Plain) {f : FunctionDecl} (hf : f ∈ p.functions) :
    Valid ((f.lower .strict).frame (p.lower .strict)) (Instr.texts (f.lower .strict).body) []
      [f.returnType] := by
  obtain ⟨earlier, later, hsplit⟩ := List.append_of_mem hf
  obtain ⟨hparams, Γ, hbody⟩ := SourceFile.typed_of_parse h earlier f later hsplit
  have hfunction := hplain.functions earlier f later hsplit
  have hslots := Frame.covers_of_declares (F := (f.lower .strict).frame (p.lower .strict))
    (f.declares hparams hbody)
  exact hbody.takes_body hfunction.result (fun s hs => hfunction.source_plain hs) hslots
    (Frame.defines_lower hplain hsplit _) []

theorem SourceFile.valid_example : ∃ p, exampleFile.parse = .ok p ∧ p.Plain ∧
    p.functions.map FunctionDecl.signature = [⟨[.double], .double⟩, ⟨[.int], .double⟩] ∧
    ∀ f ∈ p.functions, Valid ((f.lower .strict).frame (p.lower .strict))
      (Instr.texts (f.lower .strict).body) [] [f.returnType] := by
  obtain ⟨p, h, hplain, hsignatures⟩ := exampleFile_plain
  exact ⟨p, h, hplain, hsignatures, fun f hf => SourceFile.valid_of_parse h hplain hf⟩

end Wattle
