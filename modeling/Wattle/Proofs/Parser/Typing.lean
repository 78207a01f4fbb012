import Wattle.Proofs.Literals
import Wattle.Proofs.Number.Exact
import Wattle.Proofs.Parser.Yield
import Wattle.Proofs.Typing

/-!
# Accepted programs are well typed

The names that a state knows are a `Context`: the variables in scope and the functions declared so
far.  A reading goes from one context to another and gives a part that is well typed between the
two (`Reads.typed`).  This is the invariant that links the names in a state with the text that has
been read.  `Program.typed_of_ofTokens` draws the conclusion for programs.
-/

namespace Wattle

/-! ### what the parsers check -/

namespace Scope

theorem declare?_eq_some {s s' : Scope} {name : String} {type : DataType} :
    s.declare? name type = some s' ↔
      s.lookup name = none ∧ s' = ⟨(name, type) :: s.bindings⟩ := by
  unfold declare?
  cases s.lookup name <;> simp [eq_comm]

theorem lookup_declare_new {s : Scope} {name : String} (type : DataType)
    (h : s.lookup name = none) : (s.declare name type).lookup = Env.bind s.lookup name type := by
  funext x
  simp [lookup_declare, Env.bind, h]

theorem lookup_cons (s : Scope) (name x : String) (type : DataType) :
    lookup ⟨(name, type) :: s.bindings⟩ x = if x = name then some type else s.lookup x := by
  by_cases h : x = name
  · simp [lookup, h]
  · have h' : (x == name) = false := by simpa using h
    simp [lookup, List.lookup_cons, h, h']

/-- a row of parameters that is accepted: the names are new, and each is bound to its type -/
theorem of_declareAll {s s' : Scope} {bs : List Binding} (h : s.declareAll bs = .ok s') :
    (bs.map (·.name.name)).Nodup ∧ (∀ b ∈ bs, s.lookup b.name.name = none) ∧
      ∀ x, s'.lookup x = (Env.ofParams bs x).or (s.lookup x) := by
  induction bs generalizing s with
  | nil =>
    obtain rfl : s = s' := by simpa [declareAll] using h
    simp [Env.ofParams]
  | cons b bs ih =>
    simp only [declareAll] at h
    cases hb : s.declare? b.name.name b.type with
    | none => simp [hb] at h
    | some t =>
      obtain ⟨hnew, rfl⟩ := declare?_eq_some.1 hb
      obtain ⟨hnodup, hfresh, hlookup⟩ := ih (by simpa [hb] using h)
      have hne : ∀ c ∈ bs, c.name.name ≠ b.name.name ∧ s.lookup c.name.name = none := by
        intro c hc
        have hf := hfresh c hc
        rw [lookup_cons] at hf
        split at hf
        · simp at hf
        · next hx => exact ⟨hx, hf⟩
      refine ⟨?_, ?_, ?_⟩
      · rw [List.map_cons, List.nodup_cons]
        refine ⟨fun hmem => ?_, hnodup⟩
        obtain ⟨c, hc, e⟩ := List.mem_map.1 hmem
        exact (hne c hc).1 e
      · simpa using ⟨hnew, fun c hc => (hne c hc).2⟩
      · intro x
        rw [hlookup x, lookup_cons]
        by_cases hx : x = b.name.name
        · have hnone : Env.ofParams bs x = none := by
            simp only [Env.ofParams, Option.map_eq_none_iff, List.find?_eq_none, beq_iff_eq]
            exact fun c hc e => (hne c hc).1 (e.trans hx)
          rw [hnone]
          simp [Env.ofParams, hx]
        · have hx' : (b.name.name == x) = false := by simpa using Ne.symm hx
          simp [Env.ofParams, hx, hx']

theorem of_paramScope {scope : Scope} {bs : List Binding} (h : Parser.paramScope bs = .ok scope) :
    (bs.map (·.name.name)).Nodup ∧ scope.lookup = Env.ofParams bs := by
  unfold Parser.paramScope at h
  split at h
  · next s hs =>
    obtain rfl := Except.ok.inj h
    obtain ⟨hnodup, -, hlookup⟩ := of_declareAll hs
    exact ⟨hnodup, funext fun x => by simp [hlookup]⟩
  · simp at h

end Scope

namespace Signature

theorem map_type_of_mismatch? {callee : String} {i : Nat} {params : List DataType}
    {args : List Expr} (hl : params.length = args.length)
    (h : mismatch? callee i params args = none) : args.map Expr.type = params := by
  induction params generalizing args i with
  | nil => simp [List.length_eq_zero_iff.1 hl.symm]
  | cons t params ih =>
    cases args with
    | nil => simp at hl
    | cons e args =>
      simp only [mismatch?] at h
      split at h
      · next ht => rw [List.map_cons, ih (by simpa using hl) h, ht]
      · simp at h

/-- a call that is accepted has the arguments and the type of the signature, if there is one -/
theorem of_callType {found : Option Signature} {callee : Ident} {args : List Expr}
    {type : DataType} (h : callType found callee args = .ok type) :
    (∀ signature, found = some signature →
        args.map Expr.type = signature.params ∧ type = signature.returnType) ∧
      (found = none → type = .double) := by
  cases found with
  | none => simpa [callType, eq_comm] using h
  | some signature =>
    simp only [callType] at h
    split at h
    · simp at h
    · next hf =>
      have ht := Except.ok.inj h
      unfold fault? at hf
      split at hf
      · simp at hf
      · next hl => simpa using ⟨map_type_of_mismatch? (by simpa using hl) hf, ht.symm⟩

end Signature

theorem word?_lt {s : String} {n : Nat} (h : word? s = some n) : n < 2 ^ 32 := by
  unfold word? at h
  extract_lets digits at h
  split at h
  · simp at h
  · split at h
    · next hlt => exact Option.some.inj h ▸ hlt
    · simp at h

theorem Literal.typed {Δ : Signatures} {Γ : Env} {lexeme : String} {value : Double}
    {type : DataType} (h : Literal lexeme value type) (span : Span) :
    (Expr.number value type span).Typed Δ Γ := by
  obtain ⟨htype, h⟩ := h
  refine .number (fun ht => ?_) fun ht => ?_ <;> subst ht
  · obtain ⟨n, hn, rfl⟩ := h
    exact ⟨n, word?_lt hn, rfl⟩
  · have hdot : '.' ∈ lexeme.toList := by
      simpa [literalType, eq_comm] using htype
    exact Double.isNaN_of_ofText? h hdot

theorem Chain.typed {Δ : Signatures} {Γ : Env} {l : Chain} {op : BinaryOp} {sign : Span}
    {left right e : Expr} (hop : op.chain = l) (hl : left.Typed Δ Γ) (hr : right.Typed Δ Γ)
    (h : l.build op sign left right = .ok e) : e.Typed Δ Γ := by
  have hsum (hc : op.isComparison = false)
      (he : BinaryOp.compute op sign left right = .ok e) : e.Typed Δ Γ := by
    obtain rfl := Except.ok.inj he
    have hj : left.type.join right.type =
        if left.type = .double ∨ right.type = .double then .double else .int := by
      cases left.type <;> cases right.type <;> rfl
    rw [hj]
    exact .arithmetic hc hl hr
  cases l with
  | comparison =>
    have hc : op.isComparison = true := by
      cases op <;> simp_all [BinaryOp.chain, BinaryOp.isComparison]
    simp only [build, BinaryOp.compare] at h
    split at h
    · next ht =>
      obtain rfl := Except.ok.inj h
      exact .comparison hc hl hr ht
    · simp at h
  | sum | product =>
    exact hsum (by cases op <;> simp_all [BinaryOp.chain, BinaryOp.isComparison]) h

/-! ### contexts -/

/-- the names that a part of a program can use -/
structure Context where
  env : Env
  signatures : Signatures

def Parser.State.context (s : State) : Context := ⟨s.scope.lookup, s.functions.get?⟩

namespace Parser.State

variable (s : State) (nesting : Nesting)

@[simp] theorem advance_context : s.advance.context = s.context := by simp [context]
@[simp] theorem enter_context : (s.enter nesting).context = s.context := by simp [context]
@[simp] theorem leave_context : (s.leave nesting).context = s.context := by simp [context]

end Parser.State

/-- a row of items, each in the context that the one in front of it leaves -/
def Threads {α : Type} (R : Context → α → Context → Prop) : Context → List α → Context → Prop
  | c, [], c' => c = c'
  | c, a :: as, c' => ∃ c₁, R c a c₁ ∧ Threads R c₁ as c'

/-- statements change the variables only -/
def StmtsTypedIn (c : Context) (ss : List Stmt) (c' : Context) : Prop :=
  StmtsTyped c.signatures c.env ss c'.env ∧ c'.signatures = c.signatures

/-- a function leaves its signature behind -/
def FunctionDecl.TypedIn (c : Context) (f : FunctionDecl) (c' : Context) : Prop :=
  f.Typed c.signatures ∧ c' = ⟨c.env, c.signatures.bind f⟩

/-- what holds of a part that is read in one context and leaves another -/
def Nonterminal.Typed : (n : Nonterminal) → Context → n.Value → Context → Prop
  | expr _, c, e, c' => Expr.Typed c.signatures c.env e ∧ c = c'
  | param, c, _, c' => c = c'
  | row n, c, as, c' | items n, c, as, c' => Threads n.Typed c as c'
  | statement, c, a, c' | conditional, c, a, c' => StmtsTypedIn c [a] c'
  | statements, c, ss, c' => StmtsTypedIn c ss c'
  | block, c, b, c' | alternate, c, b, c' => StmtsTypedIn c b.1 c'
  | function, c, f, c' => FunctionDecl.TypedIn c f c'
  | functions, c, fs, c' => Threads FunctionDecl.TypedIn c fs c'

theorem Threads.expr {l : Level} {c c' : Context} {es : List Expr}
    (h : Threads (Nonterminal.expr l).Typed c es c') :
    (∀ e ∈ es, e.Typed c.signatures c.env) ∧ c = c' := by
  induction es generalizing c with
  | nil => exact ⟨by simp, h⟩
  | cons e es ih =>
    obtain ⟨c₁, ⟨he, rfl⟩, hs⟩ := h
    obtain ⟨hes, rfl⟩ := ih hs
    exact ⟨by simpa using ⟨he, hes⟩, rfl⟩

theorem Threads.param {c c' : Context} {bs : List Binding}
    (h : Threads Nonterminal.param.Typed c bs c') : c = c' := by
  induction bs generalizing c with
  | nil => exact h
  | cons b bs ih =>
    obtain ⟨c₁, rfl, hs⟩ := h
    exact ih hs

theorem StmtsTypedIn.append {c c₁ c' : Context} {ss ss' : List Stmt} (h : StmtsTypedIn c ss c₁)
    (h' : StmtsTypedIn c₁ ss' c') : StmtsTypedIn c (ss ++ ss') c' := by
  obtain ⟨h, e⟩ := h
  obtain ⟨h', e'⟩ := h'
  exact ⟨h.append (e ▸ h'), e'.trans e⟩

/-! ### readings -/

namespace Parser

theorem State.context_of_writtenType {s s' : State} {written : Option DataType}
    (h : writtenType s = .done written s') : s'.context = s.context := by
  obtain ⟨-, -, rfl⟩ | ⟨-, _, -, -, rfl⟩ := writtenType_done.1 h <;> simp

theorem type_of_declaredType {name : String} {written : Option DataType} {init : Expr}
    {type : DataType} (h : declaredType name written init = .ok type) : init.type = type := by
  cases written with
  | none => simpa [declaredType] using h
  | some declared =>
    simp only [declaredType] at h
    split at h
    · next e => rw [← e, Except.ok.inj h]
    · simp at h

end Parser

open Wattle.Parser State in
/-- a reading gives a part that is well typed between the contexts of its two states -/
theorem Reads.typed {limits : Limits} {n : Nonterminal} {s s' : Parser.State} {a : n.Value}
    (h : Reads limits n s a s') : n.Typed s.context a s'.context := by
  induction h with
  | number hk he =>
    obtain ⟨value, type, rfl, hl⟩ := Literal.of_ofLexeme he
    exact ⟨hl.typed _, by simp⟩
  | var hk hv => exact ⟨.var hv, by simp⟩
  | @call s s' callee args type hk ho _ hc ht ih =>
    rw [advance_context, advance_context] at ih
    obtain ⟨hargs, hcontext⟩ := Threads.expr ih
    obtain ⟨hknown, hunknown⟩ := Signature.of_callType ht
    have hΔ : s'.advance.functions.get? = s.context.signatures := by
      rw [advance_functions]
      exact congrArg Context.signatures hcontext.symm
    rw [hΔ] at hknown hunknown
    exact ⟨.call hargs hknown hunknown, by simp [hcontext]⟩
  | group hk _ hc ih =>
    rw [advance_context] at ih
    obtain ⟨he, hcontext⟩ := ih
    exact ⟨he.withSpan _, by simp [hcontext]⟩
  | neg hm _ ih =>
    rw [advance_context] at ih
    exact ⟨.neg ih.1, ih.2⟩
  | unsigned _ ih => exact ih
  | operand _ ih => exact ih
  | binary hop _ hk _ hb ihl ihr =>
    rw [advance_context] at ihr
    obtain ⟨hl, hcontext⟩ := ihl
    obtain ⟨hr, hcontext'⟩ := ihr
    rw [← hcontext] at hr
    exact ⟨Chain.typed hop hl hr hb, hcontext.trans hcontext'⟩
  | unassigned _ ih => exact ih
  | assign hg _ ha _ htype iht ihv =>
    rw [advance_context] at ihv
    obtain ⟨ht, hcontext⟩ := iht
    obtain ⟨hv, hcontext'⟩ := ihv
    rw [← hcontext] at hv
    cases ht with
    | var hbound => exact ⟨.assign hbound hv htype, hcontext.trans hcontext'⟩
  | expression hd _ ih =>
    rw [enter_context] at ih
    exact ⟨ih.1, by rw [leave_context]; exact ih.2⟩
  | single _ ih => exact ⟨_, ih, rfl⟩
  | cons _ hc _ ih ihs =>
    rw [advance_context] at ihs
    exact ⟨_, ih, ihs⟩
  | noItems => exact rfl
  | someItems _ ih => exact ih
  | @declaration s kind written init type s₁ s₂ name hk hname hnew hnote ha _ ht hs ih =>
    rw [advance_context, context_of_writtenType hnote, advance_context, advance_context] at ih
    obtain ⟨hi, hcontext⟩ := ih
    have hΓ : s₂.scope.lookup = s.scope.lookup := congrArg Context.env hcontext.symm
    have hΔ : s₂.functions.get? = s.functions.get? := congrArg Context.signatures hcontext.symm
    have hnew' : s₂.scope.lookup name.name = none := by rw [hΓ]; exact hnew
    have hscope : (s₂.scope.declare name.name type).lookup =
        Env.bind s.scope.lookup name.name type := by
      rw [Scope.lookup_declare_new type hnew', hΓ]
    refine ⟨.declaration hnew hi (type_of_declaredType ht) ?_, ?_⟩
    · simp only [context, withScope_scope, hscope]
      exact .nil
    · simpa [context] using hΔ
  | ret hk _ hs ih =>
    rw [advance_context] at ih
    obtain ⟨he, hcontext⟩ := ih
    refine ⟨.ret he ?_, ?_⟩ <;> rw [advance_context, ← hcontext]
    exact .nil
  | branching _ ih => exact ih
  | expressionStmt _ hs ih =>
    obtain ⟨he, hcontext⟩ := ih
    refine ⟨.expression he ?_, ?_⟩ <;> rw [advance_context, ← hcontext]
    exact .nil
  | noStatements => exact ⟨.nil, rfl⟩
  | moreStatements _ _ ih ihs => exact ih.append ihs
  | block ho _ hc ih =>
    rw [advance_context] at ih
    simpa [Nonterminal.Typed] using ih
  | conditional hd hk ho _ hc ht _ ih ihb =>
    simp only [advance_context, enter_context] at ih ihb
    obtain ⟨hcond, hcontext⟩ := ih
    rw [← hcontext] at ihb
    obtain ⟨hb, hΔ⟩ := ihb
    rw [leave_context]
    exact ⟨.conditional hcond ht hb .nil .nil, hΔ⟩
  | conditionalElse hd hk ho _ hc ht _ he _ ih ihb iha =>
    simp only [advance_context, enter_context] at ih ihb iha
    obtain ⟨hcond, hcontext⟩ := ih
    rw [← hcontext] at ihb
    obtain ⟨hb, hΔ⟩ := ihb
    obtain ⟨ha, hΔ'⟩ := iha
    rw [hΔ] at ha
    rw [leave_context]
    exact ⟨.conditional hcond ht hb ha .nil, hΔ'.trans hΔ⟩
  | elseBlock _ ih => exact ih
  | elseIf _ ih => exact ih
  | param => simp [Nonterminal.Typed]
  -- the scope is swapped for the one of the parameters, and the table grows behind the body only
  | @function s s₁ params result scope body stop s' name hk hname ho _ hc hm ht hscope _ f hf ihp
      ihb =>
    simp only [advance_context] at ihp
    have hcontext : s.context = s₁.context := Threads.param ihp
    obtain ⟨hnodup, hΓ⟩ := Scope.of_paramScope hscope
    obtain ⟨hb, hΔ⟩ := ihb
    have hsignatures : (s₁.advance.advance.advance.withScope scope).context.signatures =
        s.functions.get? := by
      simpa [context] using congrArg Context.signatures hcontext.symm
    have henv : (s₁.advance.advance.advance.withScope scope).context.env = Env.ofParams params := by
      simpa [context] using hΓ
    rw [hsignatures] at hb hΔ
    rw [henv] at hb
    have htable : (s'.functions.register f.name.name f.signature).get? =
        Signatures.bind s.functions.get? f := by
      funext x
      rw [FunctionTable.get?_register, ← hΔ]
      rfl
    have hscope' : s₁.scope.lookup = s.scope.lookup := congrArg Context.env hcontext.symm
    refine ⟨by subst hf; exact ⟨hnodup, _, hb⟩, ?_⟩
    simp only [context, withFunctions_scope, withScope_scope, withFunctions_functions, htable,
      hscope']
  | noFunctions => exact rfl
  | moreFunctions _ _ ih ihs => exact ⟨_, ih, ihs⟩

/-! ### programs -/

/-- every function in a row is checked against those in front of it -/
theorem FunctionDecl.typed_of_threads {before fs earlier later : List FunctionDecl}
    {f : FunctionDecl} {Γ : Env} {c : Context}
    (h : Threads FunctionDecl.TypedIn ⟨Γ, .ofFunctions before⟩ fs c)
    (hfs : fs = earlier ++ f :: later) : f.Typed (.ofFunctions (before ++ earlier)) := by
  induction earlier generalizing before fs with
  | nil =>
    subst hfs
    obtain ⟨_, ⟨hf, -⟩, -⟩ := h
    simpa using hf
  | cons g earlier ih =>
    subst hfs
    obtain ⟨_, ⟨-, rfl⟩, hs⟩ := h
    rw [← Signatures.ofFunctions_snoc] at hs
    simpa using ih hs rfl

/-- what is known behind a row of functions -/
theorem FunctionDecl.context_of_threads {before fs : List FunctionDecl} {Γ : Env} {c : Context}
    (h : Threads FunctionDecl.TypedIn ⟨Γ, .ofFunctions before⟩ fs c) :
    c = ⟨Γ, .ofFunctions (before ++ fs)⟩ := by
  induction fs generalizing before with
  | nil => simpa using h.symm
  | cons f fs ih =>
    obtain ⟨_, ⟨-, rfl⟩, hs⟩ := h
    rw [← Signatures.ofFunctions_snoc] at hs
    simpa using ih hs

theorem Reads.typed_program {limits : Limits} {tokens : List Token} {p : Program}
    {s : Parser.State} (h : Reads limits .functions (.initial tokens) p.functions s) :
    p.Typed := by
  intro earlier f later hp
  have hs : Threads FunctionDecl.TypedIn ⟨.empty, .ofFunctions []⟩ p.functions s.context := h.typed
  simpa using FunctionDecl.typed_of_threads hs hp

theorem SourceFile.typed_of_parse {file : SourceFile} {p : Program} (h : file.parse = .ok p) :
    p.Typed := by
  obtain ⟨tokens, -, hp⟩ := SourceFile.ofTokens_of_parse h
  obtain ⟨_, hread, -⟩ := Program.reads_of_ofTokens hp
  exact hread.typed_program

/-- **Accepted programs are well typed.**  The types of the numbers, in the order of the text, are
those that their spellings have. -/
theorem Program.typed_of_ofTokens {tokens : List Token} {p : Program}
    (h : Program.ofTokens .standard tokens = .ok p) :
    p.Typed ∧ p.literalTypes = ((tokens.map Token.kind).takeWhile (· ≠ .endOfFile)).filterMap
      TokenKind.literalType? := by
  obtain ⟨s, hread, hs⟩ := Program.reads_of_ofTokens h
  refine ⟨hread.typed_program, ?_⟩
  rw [Program.literalTypes_eq, (Reads.derived_file rfl rfl hread hs).literalTypes]
  rfl

theorem Program.typed_example : ∃ p, Program.ofTokens .standard exampleTokens = .ok p ∧
    p.Typed ∧ p.literalTypes = [.int, .int, .double] := by
  have hok : (Program.ofTokens .standard exampleTokens).isOk = true := by decide +kernel
  cases h : Program.ofTokens .standard exampleTokens with
  | error fault => simp [h, Except.isOk, Except.toBool] at hok
  | ok p =>
    obtain ⟨htyped, hliterals⟩ := Program.typed_of_ofTokens h
    exact ⟨p, rfl, htyped, hliterals.trans (by decide +kernel)⟩

end Wattle
