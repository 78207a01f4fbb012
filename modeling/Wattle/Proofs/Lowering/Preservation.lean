import Wattle.Proofs.Lowering.Basic
import Wattle.Proofs.Lowering.Operators
import Wattle.Proofs.Machine.Simulation
import Wattle.Proofs.Number.Exact
import Wattle.Proofs.Parser.Typing

/-!
# Strict code keeps the meaning

The code that a plain program is lowered to under the strict options computes what the program
means.  The store of the machine is the store of the evaluation, at every point.  The code of an
expression leaves its value (`Expr.Typed.computes`), that of statements goes to the store behind
them (`StmtsTyped.runs`), and a body leaves its result (`StmtsTyped.runs_body`).  Calls agree
because a function only calls those in front of it (`Agree.append`).
-/

namespace Wattle

/-! ### stores -/

/-- every variable that is bound has a value of its type -/
def Store.Holds (store : Store) (Γ : Env) : Prop :=
  ∀ ⦃x type⦄, Γ x = some type → ∃ v, store x = some v ∧ v.type = type

namespace Store.Holds

variable {store : Store} {Γ Γ' : Env}

theorem mono (h : store.Holds Γ') (hle : Γ.Le Γ') : store.Holds Γ := fun _ _ hx => h (hle hx)

theorem set {x : String} {v : Value} (h : store.Holds Γ) (hx : Γ x = some v.type) :
    (store.set x v).Holds Γ := by
  intro y type hy
  by_cases hyx : y = x
  · subst hyx
    obtain rfl := Option.some.inj (hx.symm.trans hy)
    exact ⟨v, by simp [Store.set], rfl⟩
  · simpa [Store.set, hyx] using h hy

end Store.Holds

/-! ### expressions -/

/-- the code leaves the value of an evaluation, of a given type, and the store as it is -/
def Computes (m : Module) (code : List Instr) (store : Store) (r : Except Halt Value)
    (type : DataType) : Prop :=
  Runs m code [] store r fun v st locals => v.type = type ∧ st = [v] ∧ store = locals

section
variable {m : Module} {store : Store}

theorem Computes.const {Δ : Signatures} {Γ : Env} {x : Double} {type : DataType} {span : Span}
    (h : (Expr.number x type span).Typed Δ Γ) :
    Computes m [.const x type] store (.ok (.ofLiteral x type)) type := by
  refine .instr ⟨Value.type_ofLiteral x type, rfl, rfl⟩ fun under rest o ho => ?_
  cases h with
  | number hi _ =>
    cases type with
    | int =>
      obtain ⟨n, hn, rfl⟩ := hi rfl
      have hword : (Double.ofNat n).toWord = n := Double.toWord_ofNat (by omega)
      have hwhole : (Double.ofNat n).units / 2 ^ 1074 = n := Double.whole_ofNat (by omega)
      rw [Value.ofLiteral, hwhole] at ho
      rw [Instr.const, hword]
      exact .intConst ho
    | double => exact .doubleConst ho

theorem Runs.zero (type : DataType) :
    Runs m [.zero type] [] store (.ok (.zero type)) fun v st locals =>
      v = .zero type ∧ st = [v] ∧ store = locals := by
  refine .instr ⟨rfl, rfl, rfl⟩ fun under rest o ho => ?_
  cases type with
  | int => exact .intConst ho
  | double => exact .doubleZero ho

theorem Value.convert_type (v : Value) : v.convert v.type = v := by
  cases v <;> rfl

/-- the conversion of an operand -/
theorem Runs.conversion {v : Value} {wanted : DataType} {low : List Value}
    (h : wanted = .double ∨ v.type = wanted) :
    Runs m (EmitOptions.strict.conversion wanted v.type) (v :: low) store (.ok v)
      fun u st locals => u = v ∧ st = v.convert wanted :: low ∧ store = locals := by
  cases wanted with
  | int =>
    cases v with
    | int n => exact .nil ⟨rfl, rfl, rfl⟩
    | double x => simp [Value.type] at h
  | double =>
    cases v with
    | int n => exact .instr ⟨rfl, rfl, rfl⟩ fun under rest o ho => .convert ho
    | double x => exact .nil ⟨rfl, rfl, rfl⟩

/-- an operand with its conversion, over other values -/
theorem Computes.operand {code : List Instr} {r : Except Halt Value} {type wanted : DataType}
    (hcode : Computes m code store r type) (h : wanted = .double ∨ type = wanted)
    (low : List Value) :
    Runs m (code ++ EmitOptions.strict.conversion wanted type) low store r fun v st locals =>
      v.type = type ∧ st = v.convert wanted :: low ∧ store = locals := by
  refine (hcode.above low).andThen fun v st locals hQ => ?_
  obtain ⟨_, rfl, rfl, rfl, rfl⟩ := hQ
  refine (Runs.conversion h).mono fun u st locals hQ => ?_
  obtain ⟨rfl, rfl, rfl⟩ := hQ
  exact ⟨rfl, rfl, rfl⟩

/-- an operator on the two values on the top -/
theorem Runs.binary (op : BinaryOp) {u v : Value} {wanted : DataType}
    (h : wanted = if u.type = .double ∨ v.type = .double then .double else .int) :
    Runs m [.binary op wanted] [v.convert wanted, u.convert wanted] store (op.apply u v)
      fun w st locals => w.type = (if op.isComparison then .int else wanted) ∧ st = [w] ∧
        store = locals := by
  have hop := op.ofText?_opcode wanted
  have hrun := op.run_numeric h
  obtain htrap | ⟨w, hw, htype⟩ := op.apply_cases u v
  · exact .inl ⟨htrap, fun under rest => .binaryTrap hop (hrun.trans htrap)⟩
  · rw [← h] at htype
    rw [hw]
    exact .instr ⟨htype, rfl, rfl⟩ fun under rest o ho => .binary hop (hrun.trans hw) ho

/-- an operator between two operands, each with its conversion -/
theorem Computes.operator (op : BinaryOp) {code code' : List Instr} {r r' : Except Halt Value}
    {left right wanted : DataType} (hl : Computes m code store r left)
    (hr : Computes m code' store r' right)
    (h : wanted = if left = .double ∨ right = .double then .double else .int)
    (hleft : wanted = .double ∨ left = wanted) (hright : wanted = .double ∨ right = wanted) :
    Computes m (code ++ EmitOptions.strict.conversion wanted left ++
        (code' ++ EmitOptions.strict.conversion wanted right ++ [.binary op wanted])) store
      (r >>= fun u => r' >>= fun v => op.apply u v)
      (if op.isComparison then .int else wanted) := by
  refine (hl.operand hleft []).bind fun u st locals hQ => ?_
  obtain ⟨rfl, rfl, rfl⟩ := hQ
  refine (hr.operand hright _).bind fun v st locals hQ => ?_
  obtain ⟨rfl, rfl, rfl⟩ := hQ
  exact Runs.binary op h

theorem Computes.neg {code : List Instr} {r : Except Halt Value} {type : DataType}
    (h : Computes m code store r type) :
    Computes m (.zero type :: (code ++ [.binary .sub type])) store
      (r >>= fun v => BinaryOp.sub.apply (.zero v.type) v) type := by
  refine (Runs.zero type).bind (k := fun _ => r >>= fun v => BinaryOp.sub.apply (.zero v.type) v)
    fun _ st locals hQ => ?_
  obtain ⟨rfl, rfl, rfl⟩ := hQ
  refine (h.above [.zero type]).bind fun v st locals hQ => ?_
  obtain ⟨_, rfl, rfl, rfl, rfl⟩ := hQ
  have hwanted : v.type = if (Value.zero v.type).type = .double ∨ v.type = .double then .double
      else .int := by
    rw [Value.type_zero]
    cases v <;> rfl
  have hsub := @Runs.binary m store .sub _ _ _ hwanted
  have hzero : (Value.zero v.type).convert v.type = .zero v.type := by
    cases v <;> rfl
  rwa [Value.convert_type, hzero] at hsub

/-- arguments are left in order, the last one on the top -/
theorem Runs.args {calls : Calls} {es : List Expr}
    (h : ∀ e ∈ es, Computes m (e.code .strict) store (e.eval calls store) e.type)
    (low : List Value) :
    Runs m (Expr.argsCode .strict es) low store (Expr.argsEval calls store es) fun vs st locals =>
      vs.map Value.type = es.map Expr.type ∧ st = vs.reverse ++ low ∧ store = locals := by
  induction es generalizing low with
  | nil => exact .nil ⟨rfl, rfl, rfl⟩
  | cons e es ih =>
    rw [List.forall_mem_cons] at h
    obtain ⟨he, hes⟩ := h
    refine (he.above low).bind fun v st locals hQ => ?_
    obtain ⟨_, rfl, htype, rfl, rfl⟩ := hQ
    refine (ih hes (v :: low)).map fun vs st locals hQ => ?_
    obtain ⟨htypes, rfl, rfl⟩ := hQ
    refine ⟨?_, ?_, rfl⟩
    · rw [List.map_cons, List.map_cons, htype, htypes]
    · rw [List.reverse_cons, List.append_assoc]
      rfl

/-- a function of the machine has the outcome of an evaluation -/
def Func.Agrees (m : Module) (g : Func) (args : List Value) (r : Except Halt Value)
    (type : DataType) : Prop :=
  (r = .error .trap ∧ Exec m g.body [] (g.store args) .trap) ∨
    ∃ v locals, r = .ok v ∧ v.type = type ∧ Exec m g.body [] (g.store args) (.done [v] locals)

/-- the module defines every known function with its signature, and as it is evaluated -/
def Agree (m : Module) (Δ : Signatures) (calls : Calls) : Prop :=
  ∀ ⦃name signature⦄, Δ name = some signature → ∃ g, m.func? name = some g ∧
    g.params.map (·.type) = signature.params ∧ ∀ args, args.map Value.type = signature.params →
      g.Agrees m args (calls name args) signature.returnType

theorem Runs.call {name : String} {arity : Nat} {g : Func} {args : List Value}
    {r : Except Halt Value} {type : DataType} (hg : m.func? name = some g)
    (hargs : g.Accepts args) (h : g.Agrees m args r type) :
    Runs m [.call name arity] args.reverse store r fun v st locals =>
      v.type = type ∧ st = [v] ∧ store = locals := by
  obtain ⟨rfl, hbody⟩ | ⟨v, locals, rfl, htype, hbody⟩ := h
  · exact .inl ⟨rfl, fun under rest => .callTrap hg hargs rfl hbody⟩
  · exact .instr ⟨htype, rfl, rfl⟩ fun under rest o ho => .call hg hargs rfl hbody ho

theorem Expr.Typed.computes {Δ : Signatures} {Γ : Env} {calls : Calls} {e : Expr}
    (h : e.Typed Δ Γ) (hplain : e.Plain Δ) (hstore : store.Holds Γ) (hcalls : Agree m Δ calls) :
    Computes m (e.code .strict) store (e.eval calls store) e.type := by
  induction h with
  | @number x type span hi hd =>
    have hnumber : (Expr.number x type span).Typed Δ Γ := .number hi hd
    exact Computes.const hnumber
  | @var x type span hx =>
    obtain ⟨v, hv, htype⟩ := hstore hx
    rw [eval, hv]
    exact .instr ⟨htype, rfl, rfl⟩ fun under rest o ho => .localGet hv ho
  | neg _ ih => exact Computes.neg (ih (Expr.Plain.neg_iff.1 hplain))
  | @arithmetic op left right span hop hl hr ihl ihr =>
    obtain ⟨hpl, hpr⟩ := Expr.Plain.binary_iff.1 hplain
    generalize hw : (if left.type = .double ∨ right.type = .double then DataType.double
      else .int) = wanted
    obtain ⟨hleft, hright⟩ := arithmetic_cases hw.symm
    have hcode := Computes.operator op (ihl hpl) (ihr hpr) hw.symm hleft hright
    simpa [code, eval, BinaryOp.operandType, hop, type] using hcode
  | @comparison op left right span hop hl hr ht ihl ihr =>
    obtain ⟨hpl, hpr⟩ := Expr.Plain.binary_iff.1 hplain
    have hw : left.type = if left.type = .double ∨ right.type = .double then .double else .int := by
      rw [← ht]
      cases left.type <;> rfl
    have hcode := Computes.operator op (ihl hpl) (ihr hpr) hw (.inr rfl) (.inr ht.symm)
    simpa [code, eval, BinaryOp.operandType, hop, type] using hcode
  | assign => exact absurd hplain Expr.Plain.not_assign
  | @call callee args type span hargs hknown hunknown ih =>
    obtain ⟨⟨signature, hsignature⟩, hplains⟩ := Expr.Plain.call_iff.1 hplain
    obtain ⟨hparams, rfl⟩ := hknown signature hsignature
    obtain ⟨g, hg, hgparams, hbody⟩ := hcalls hsignature
    refine (Runs.args (fun e he => ih e he (hplains e he)) []).bind fun vs st locals hQ => ?_
    obtain ⟨htypes, rfl, rfl⟩ := hQ
    have htypes' : vs.map Value.type = signature.params := htypes.trans hparams
    rw [List.append_nil]
    exact Runs.call hg (htypes'.trans hgparams.symm) (hbody vs htypes')

/-! ### statements -/

/-- the code goes to the store of an evaluation, in which the variables are still bound -/
def Changes (m : Module) (code : List Instr) (store : Store) (r : Except Halt Store) (Γ : Env) :
    Prop :=
  Runs m code [] store r fun store' st locals => store'.Holds Γ ∧ st = [] ∧ store' = locals

/-- a value goes to a variable of its type -/
theorem Computes.set {code : List Instr} {r : Except Halt Value} {Γ : Env} {x : String}
    {type : DataType} (h : Computes m code store r type) (hstore : store.Holds Γ)
    (hx : Γ x = some type) :
    Changes m (code ++ [.localSet x]) store (r >>= fun v => .ok (store.set x v)) Γ := by
  refine h.bind fun v st locals hQ => ?_
  obtain ⟨rfl, rfl, rfl⟩ := hQ
  obtain ⟨u, hu, htype⟩ := hstore hx
  exact .instr ⟨hstore.set hx, rfl, rfl⟩ fun under rest o ho => .localSet hu htype ho

theorem Computes.drop {code : List Instr} {r : Except Halt Value} {Γ : Env} {type : DataType}
    (h : Computes m code store r type) (hstore : store.Holds Γ) :
    Changes m (code ++ [.drop]) store (r >>= fun _ => .ok store) Γ := by
  refine h.bind fun v st locals hQ => ?_
  obtain ⟨-, rfl, rfl⟩ := hQ
  exact .instr ⟨hstore, rfl, rfl⟩ fun under rest o ho => .drop ho

/-- a branch runs on an empty stack of its own -/
theorem Changes.conditional {n : BitVec 32} {consequent : List Instr}
    {alternate : Option (List Instr)} {r : Except Halt Store} {Γ : Env}
    (h : Changes m (if n = 0 then alternate.getD [] else consequent) store r Γ) :
    Runs m [.conditional consequent alternate] [.int n] store r fun store' st locals =>
      store'.Holds Γ ∧ st = [] ∧ store' = locals := by
  obtain ⟨rfl, hbranch⟩ | ⟨store', st, locals, rfl, ⟨hstore, rfl, rfl⟩, hbranch⟩ := h.alone
  · exact .inl ⟨rfl, fun under rest => .conditionalTrap hbranch⟩
  · exact .instr ⟨hstore, rfl, rfl⟩ fun under rest o ho => .conditional hbranch ho

theorem Stmt.alternateExec_eq (calls : Calls) (alternate : Option (List Stmt)) (store : Store) :
    alternateExec calls alternate store = branchExec calls (alternate.getD []) store := by
  cases alternate <;> rfl

theorem Stmt.exec_expression (calls : Calls) {e : Expr} (h : e.isAssign = false) (span : Span)
    (store : Store) : (expression e span).exec calls store =
      e.eval calls store >>= fun _ => .ok store := by
  cases e with
  | assign => cases h
  | _ => rfl

theorem Stmt.resultEval_of_yields (calls : Calls) (store : Store) {s : Stmt} {type : DataType}
    (h : s.Yields type) : s.resultEval calls store = s.expr.eval calls store := by
  cases s with
  | declaration | conditional => exact absurd h id
  | ret | expression => rfl

theorem Stmt.branchExec_singleton (calls : Calls) (s : Stmt) (store : Store) :
    branchExec calls [s] store = s.exec calls store := by
  rw [branchExec]
  cases s.exec calls store <;> rfl

section
variable {Δ : Signatures} {Γ Γ' Γ₀ : Env} {calls : Calls}

theorem Changes.expression {e : Expr} {span : Span} (h : e.Typed Δ Γ)
    (hplain : (Stmt.expression e span).source.Plain Δ) (hle : Γ.Le Γ₀) (hstore : store.Holds Γ₀)
    (hcalls : Agree m Δ calls) :
    Changes m ((Stmt.expression e span).code .strict false) store
      ((Stmt.expression e span).exec calls store) Γ₀ := by
  obtain ⟨target, value, type, span', rfl, hsource⟩ | ⟨ha, hsource⟩ :=
    Stmt.source_expression e span <;> rw [hsource] at hplain
  · cases h with
    | assign ht hv htype =>
      have hset := (hv.computes hplain (hstore.mono hle) hcalls).set hstore (htype ▸ hle ht)
      simpa [Stmt.code, Stmt.exec, Expr.code, EmitOptions.disposal, Expr.isAssign] using hset
  · have hdrop := (h.computes hplain (hstore.mono hle) hcalls).drop hstore
    rw [Stmt.exec_expression calls ha]
    simpa [Stmt.code, EmitOptions.disposal, ha, EmitOptions.strict] using hdrop

/-- statements that give no value go from store to store; `Γ₀` has the variables of the whole
function, so that it does not matter which branches are taken -/
theorem StmtsTyped.runs {ss : List Stmt} (h : StmtsTyped Δ Γ ss Γ') (hplain : StmtsPlain Δ ss)
    (hle : Γ'.Le Γ₀) (hstore : store.Holds Γ₀) (hcalls : Agree m Δ calls) :
    Changes m (Stmt.branchCode .strict ss) store (Stmt.branchExec calls ss store) Γ₀ := by
  induction h generalizing store with
  | nil => exact .nil ⟨hstore, rfl, rfl⟩
  | @declaration Γ Γ' kind name type init isConst span ss hnew hi ht hs ih =>
    obtain ⟨hinit, hrest⟩ := StmtsPlain.declaration_iff.1 hplain
    have hbound : Γ' name.name = some init.type := hs.le (by simp [Env.bind, ht])
    have hsmall : Γ.Le Γ₀ := ((Env.le_bind type hnew).trans hs.le).trans hle
    have hcode := hi.computes hinit (hstore.mono hsmall) hcalls
    refine (hcode.set hstore (hle hbound)).bind fun store' st locals hQ => ?_
    obtain ⟨hstore', rfl, rfl⟩ := hQ
    exact ih hrest hle hstore'
  | ret => exact absurd hplain StmtsPlain.not_ret
  | expression he hs ih =>
    obtain ⟨hsource, hrest⟩ := StmtsPlain.expression_iff.1 hplain
    refine (Changes.expression he hsource (hs.le.trans hle) hstore hcalls).bind
      fun store' st locals hQ => ?_
    obtain ⟨hstore', rfl, rfl⟩ := hQ
    exact ih hrest hle hstore'
  | @conditional Γ Γ₁ Γ₂ Γ' condition consequent alternate span ss hc ht h₁ h₂ hs ih₁ ih₂ ih =>
    obtain ⟨hcondition, hconsequent, halternate, hrest⟩ := StmtsPlain.conditional_iff.1 hplain
    have hle₂ := hs.le.trans hle
    have hle₁ := h₂.le.trans hle₂
    have hcode := hc.computes hcondition (hstore.mono (h₁.le.trans hle₁)) hcalls
    have hbranch (n : BitVec 32) : Changes m
        (if n = 0 then (Stmt.alternateCode .strict alternate).getD []
          else Stmt.branchCode .strict consequent) store
        (if n = 0 then Stmt.alternateExec calls alternate store
          else Stmt.branchExec calls consequent store) Γ₀ := by
      by_cases hn : n = 0
      · rw [if_pos hn, if_pos hn, Stmt.alternateCode_getD, Stmt.alternateExec_eq]
        exact ih₂ halternate hle₂ hstore
      · rw [if_neg hn, if_neg hn]
        exact ih₁ hconsequent hle₁ hstore
    have hstmt : Changes m ((Stmt.conditional condition consequent alternate span).code .strict
        false) store ((Stmt.conditional condition consequent alternate span).exec calls store)
        Γ₀ := by
      refine hcode.bind fun v st locals hQ => ?_
      obtain ⟨htype, rfl, rfl⟩ := hQ
      cases v with
      | int n => exact (hbranch n).conditional
      | double x => cases htype.trans ht
    refine hstmt.bind fun store' st locals hQ => ?_
    obtain ⟨hstore', rfl, rfl⟩ := hQ
    exact ih hrest hle hstore'

/-- the last statement of a body leaves the result -/
theorem Runs.result {s : Stmt} {type : DataType} (h : StmtsTyped Δ Γ [s] Γ')
    (hs : s.Yields type) (hplain : s.source.Plain Δ) (hstore : store.Holds Γ')
    (hcalls : Agree m Δ calls) :
    Runs m (s.code .strict true) [] store (s.resultEval calls store) fun v st _ =>
      v.type = type ∧ st = [v] := by
  obtain ⟨he, hexpr, rfl⟩ := h.of_result hs hplain
  rw [Stmt.code_of_yields .strict hs, Stmt.resultEval_of_yields calls store hs]
  refine (he.computes hexpr hstore hcalls).mono fun v st locals hQ => ?_
  obtain ⟨htype, hst, -⟩ := hQ
  exact ⟨htype, hst⟩

theorem StmtsTyped.runs_body {ss : List Stmt} {type : DataType} (h : StmtsTyped Δ Γ ss Γ')
    (hend : Stmt.EndsIn type ss) (hplain : ∀ s ∈ ss.flatMap Stmt.nested, s.source.Plain Δ)
    (hstore : store.Holds Γ') (hcalls : Agree m Δ calls) :
    Runs m (Stmt.bodyCode .strict ss) [] store (Stmt.bodyEval calls ss store) fun v st _ =>
      v.type = type ∧ st = [v] := by
  induction ss generalizing Γ store with
  | nil => exact absurd hend id
  | cons s ss ih =>
    rw [List.flatMap_cons, List.forall_mem_append] at hplain
    cases ss with
    | nil => exact Runs.result h hend (hplain.1 s (Stmt.self_mem_nested s)) hstore hcalls
    | cons s' ss =>
      obtain ⟨hret, hend⟩ := hend
      obtain ⟨Γ₁, hs, hss⟩ := h.of_cons
      have hcode := hs.runs (StmtsPlain.singleton hplain.1 hret) hss.le hstore hcalls
      rw [Stmt.branchCode_cons, Stmt.branchCode, List.append_nil, Stmt.branchExec_singleton]
        at hcode
      refine hcode.bind fun store' st locals hQ => ?_
      obtain ⟨hstore', rfl, rfl⟩ := hQ
      exact ih hss hend hplain.2 hstore'

end

end

/-! ### functions -/

/-- arguments of the right types give each parameter its value -/
theorem lookup_params {params : List Binding} {args : List Value}
    (h : args.map Value.type = params.map (·.type)) (x : String) :
    (∃ v, ∃ b ∈ params, ((params.map (·.name.name)).zip args).lookup x = some v ∧
        b.name.name = x ∧ v.type = b.type) ∨
      ((params.map (·.name.name)).zip args).lookup x = none ∧
        ∀ b ∈ params, b.name.name ≠ x := by
  induction params generalizing args with
  | nil => exact .inr ⟨rfl, by simp⟩
  | cons b bs ih =>
    cases args with
    | nil => simp at h
    | cons v vs =>
      rw [List.map_cons, List.map_cons, List.cons.injEq] at h
      obtain ⟨htype, htypes⟩ := h
      by_cases hx : x = b.name.name
      · exact .inl ⟨v, b, List.mem_cons_self .., by simp [hx], hx.symm, htype⟩
      · have hx' : (x == b.name.name) = false := by simpa using hx
        rw [List.map_cons, List.zip_cons_cons, List.lookup_cons, hx']
        obtain ⟨u, c, hc, hu⟩ | ⟨hnone, hne⟩ := ih htypes
        · exact .inl ⟨u, c, List.mem_cons_of_mem _ hc, hu⟩
        · exact .inr ⟨hnone, by simpa using ⟨Ne.symm hx, hne⟩⟩

/-- every variable of a function has a value of its type at the start -/
theorem FunctionDecl.holds_store {f : FunctionDecl} {Γ : Env} {args : List Value}
    (h : Declares ((f.lower .strict).params ++ (f.lower .strict).locals) Γ)
    (hargs : args.map Value.type = f.params.map (·.type)) : (f.store args).Holds Γ := by
  intro x type hx
  have hslots : ((f.params ++ Stmt.branchDeclarations f.body).map Binding.slot).filter
      (·.name == x) = [⟨x, type⟩] := by
    rw [List.map_append]
    exact (h x).trans (by rw [hx]; rfl)
  have htype : ∀ b ∈ f.params ++ Stmt.branchDeclarations f.body, b.name.name = x →
      b.type = type := by
    intro b hb hname
    have hmem : b.slot ∈ ((f.params ++ Stmt.branchDeclarations f.body).map Binding.slot).filter
        (·.name == x) :=
      List.mem_filter.2 ⟨List.mem_map_of_mem hb, by simpa [Binding.slot] using hname⟩
    rw [hslots, List.mem_singleton] at hmem
    exact congrArg Slot.type hmem
  obtain ⟨v, b, hb, hlookup, hname, hv⟩ | ⟨hlookup, hne⟩ := lookup_params hargs x
  · refine ⟨v, by simp [store, hlookup], ?_⟩
    rw [hv, htype b (List.mem_append_left _ hb) hname]
  · have hmem : ⟨x, type⟩ ∈ (f.params ++ Stmt.branchDeclarations f.body).map Binding.slot :=
      (List.mem_filter.1 (hslots ▸ List.mem_singleton_self _)).1
    obtain ⟨b, hb, hslot⟩ := List.mem_map.1 hmem
    have hname : b.name.name = x := congrArg Slot.name hslot
    have hdeclared : b ∈ Stmt.branchDeclarations f.body := by
      rcases List.mem_append.1 hb with hb | hb
      · exact absurd hname (hne b hb)
      · exact hb
    have hfound : ((Stmt.branchDeclarations f.body).find? (·.name.name == x)).isSome := by
      rw [List.find?_isSome]
      exact ⟨b, hdeclared, by simpa using hname⟩
    obtain ⟨c, hc⟩ := Option.isSome_iff_exists.1 hfound
    refine ⟨.zero c.type, by simp [store, hlookup, hc], ?_⟩
    rw [Value.type_zero]
    exact htype c (List.mem_append_right _ (List.mem_of_find?_eq_some hc))
      (by simpa using List.find?_some hc)

/-- the machine starts a function as the evaluation does -/
theorem FunctionDecl.store_lower (f : FunctionDecl) (args : List Value) :
    (f.lower .strict).store args = f.store args := by
  funext x
  have hnames : (f.params.map Binding.slot).map (·.name) = f.params.map (·.name.name) := by
    rw [List.map_map]
    rfl
  have hlocals : (f.lower .strict).locals = (Stmt.branchDeclarations f.body).map Binding.slot := rfl
  simp only [Func.store, FunctionDecl.store, FunctionDecl.lower, hnames] at hlocals ⊢
  rw [hlocals, List.find?_map, Option.map_map]
  rfl

section
variable {p : Program} {earlier later : List FunctionDecl} {f : FunctionDecl}

theorem FunctionDecl.agrees (htyped : p.Typed) (hplain : p.Plain)
    (hf : p.functions = earlier ++ f :: later)
    (hcalls : Agree (p.lower .strict) (.ofFunctions earlier) (.ofFunctions earlier))
    {args : List Value} (hargs : args.map Value.type = f.params.map (·.type)) :
    (f.lower .strict).Agrees (p.lower .strict) args (f.eval (.ofFunctions earlier) args)
      f.returnType := by
  obtain ⟨hparams, Γ, hbody⟩ := htyped earlier f later hf
  have hfunction := hplain.functions earlier f later hf
  have hruns := hbody.runs_body hfunction.result (fun s hs => hfunction.source_plain hs)
    (f.holds_store (f.declares hparams hbody) hargs) hcalls
  rw [FunctionDecl.eval, if_pos hargs, Func.Agrees, FunctionDecl.store_lower]
  obtain htrap | ⟨v, st, locals, hv, ⟨htype, rfl⟩, hdone⟩ := hruns.alone
  · exact .inl htrap
  · exact .inr ⟨v, locals, hv, htype, hdone⟩

/-- one more function -/
theorem Agree.snoc (htyped : p.Typed) (hplain : p.Plain)
    (hf : p.functions = earlier ++ f :: later)
    (hcalls : Agree (p.lower .strict) (.ofFunctions earlier) (.ofFunctions earlier)) :
    Agree (p.lower .strict) (.ofFunctions (earlier ++ [f])) (.ofFunctions (earlier ++ [f])) := by
  intro name signature h
  rw [Signatures.ofFunctions_snoc] at h
  rw [Calls.ofFunctions_snoc]
  unfold Signatures.bind at h
  unfold Calls.bind
  by_cases hname : name = f.name.name
  · rw [if_pos hname] at h
    simp only [if_pos hname]
    obtain rfl := Option.some.inj h
    have hmem : f ∈ p.functions := hf ▸ List.mem_append_right _ (List.mem_cons_self ..)
    have hfilter := filter_map_lower .strict hplain.names hmem
    refine ⟨f.lower .strict, ?_, ?_, fun args hargs => f.agrees htyped hplain hf hcalls hargs⟩
    · rw [Module.func?, ← List.head?_filter, hname]
      exact congrArg List.head? hfilter
    · simp [FunctionDecl.lower, FunctionDecl.signature, Binding.slot]
  · rw [if_neg hname] at h
    simp only [if_neg hname]
    exact hcalls h

theorem Agree.append (htyped : p.Typed) (hplain : p.Plain) (before fs : List FunctionDecl)
    (hf : p.functions = before ++ (fs ++ later))
    (hcalls : Agree (p.lower .strict) (.ofFunctions before) (.ofFunctions before)) :
    Agree (p.lower .strict) (.ofFunctions (before ++ fs)) (.ofFunctions (before ++ fs)) := by
  induction fs generalizing before with
  | nil => simpa using hcalls
  | cons f fs ih =>
    have hnext := Agree.snoc htyped hplain hf hcalls
    simpa using ih (before ++ [f]) (by simpa using hf) hnext

theorem agree_empty (m : Module) : Agree m .empty .empty := by
  intro name signature h
  cases h

end

/-- the only outcome of a function of the machine -/
theorem Func.Agrees.iff {m : Module} {g : Func} {args : List Value} {r : Except Halt Value}
    {type : DataType} (h : g.Agrees m args r type) :
    (r = .error .trap ∧ ∀ o, Exec m g.body [] (g.store args) o ↔ o = .trap) ∨
      ∃ v locals, r = .ok v ∧ v.type = type ∧
        ∀ o, Exec m g.body [] (g.store args) o ↔ o = .done [v] locals := by
  obtain ⟨hr, htrap⟩ | ⟨v, locals, hr, htype, hdone⟩ := h
  · refine .inl ⟨hr, fun o => ⟨fun ho => ho.deterministic htrap, ?_⟩⟩
    rintro rfl
    exact htrap
  · refine .inr ⟨v, locals, hr, htype, fun o => ⟨fun ho => ho.deterministic hdone, ?_⟩⟩
    rintro rfl
    exact hdone

/-- **Strict code keeps the meaning.**  In an accepted plain program, the code of a function traps
for given arguments if its evaluation does.  Otherwise it ends, with nothing but the value of the
evaluation on the stack. -/
theorem SourceFile.exec_of_parse {file : SourceFile} {p : Program} (h : file.parse = .ok p)
    (hplain : p.Plain) {earlier later : List FunctionDecl} {f : FunctionDecl}
    (hf : p.functions = earlier ++ f :: later) {args : List Value}
    (hargs : args.map Value.type = f.params.map (·.type)) :
    (f.eval (.ofFunctions earlier) args = .error .trap ∧
        ∀ o, Exec (p.lower .strict) (f.lower .strict).body [] ((f.lower .strict).store args) o ↔
          o = .trap) ∨
      ∃ v locals, f.eval (.ofFunctions earlier) args = .ok v ∧ v.type = f.returnType ∧
        ∀ o, Exec (p.lower .strict) (f.lower .strict).body [] ((f.lower .strict).store args) o ↔
          o = .done [v] locals := by
  have htyped := SourceFile.typed_of_parse h
  have hcalls := Agree.append htyped hplain [] earlier hf (agree_empty _)
  exact (f.agrees htyped hplain hf hcalls hargs).iff

theorem SourceFile.exec_example : ∃ p g f, exampleFile.parse = .ok p ∧ p.functions = [g, f] ∧
    f.eval (.ofFunctions [g]) [.int (-7)] = .ok (.double ⟨0xBFFC000000000000⟩) ∧
    ∃ locals, ∀ o, Exec (p.lower .strict) (f.lower .strict).body []
      ((f.lower .strict).store [.int (-7)]) o ↔
        o = .done [.double ⟨0xBFFC000000000000⟩] locals := by
  obtain ⟨p, h, hplain, hsignatures⟩ := exampleFile_plain
  have hcheck : (match exampleFile.parse with
      | .error _ => none
      | .ok p => p.functions[1]?.bind fun f =>
        (f.eval (.ofFunctions (p.functions.take 1)) [.int (-7)]).toOption) =
        some (.double ⟨0xBFFC000000000000⟩) := by decide +kernel
  rw [h] at hcheck
  obtain ⟨g, f, hp⟩ : ∃ g f, p.functions = [g, f] := by
    rcases hp : p.functions with _ | ⟨g, _ | ⟨f, _ | _⟩⟩ <;> simp [hp] at hsignatures
    exact ⟨g, f, rfl⟩
  have hargs : [Value.int (-7)].map Value.type = f.params.map (·.type) := by
    simp only [hp, List.map_cons, List.cons.injEq, FunctionDecl.signature, Signature.mk.injEq]
      at hsignatures
    exact hsignatures.2.1.1.symm
  have heval : f.eval (.ofFunctions [g]) [.int (-7)] = .ok (.double ⟨0xBFFC000000000000⟩) := by
    simp only [hp] at hcheck
    cases hr : f.eval (.ofFunctions [g]) [.int (-7)] <;> simp_all [Except.toOption]
  have hf : p.functions = [g] ++ f :: [] := hp
  obtain ⟨htrap, -⟩ | ⟨v, locals, hv, -, hexec⟩ := SourceFile.exec_of_parse h hplain hf hargs
  · cases heval.symm.trans htrap
  · obtain rfl := Except.ok.inj (heval.symm.trans hv)
    exact ⟨p, g, f, h, hp, heval, locals, hexec⟩

end Wattle
