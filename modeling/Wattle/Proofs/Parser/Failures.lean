import Wattle.Proofs.Faults
import Wattle.Proofs.Lowering.Basic
import Wattle.Proofs.Parser.Composition
import Wattle.Proofs.Parser.Locality
import Wattle.Proofs.Parser.Located
import Wattle.Proofs.Parser.Typing
import Wattle.Proofs.Printing

/-!
# What a failed run has found

The counterpart of soundness for runs that fail: if the parser of a part ends with a fault, then the
fault is one of the grammar, at a row of the tokens that are left (`Fault.Syntactic`), or it is a
fault in names or types, which some part has that stands further inside (`Fails`).  For each parser
there is a lemma `_blames`, made of those of its parts.  What a parser relies on is that the tokens
end and that its state knows the declarations in front of it (`State.Knows`).

* `Program.fault_of_ofTokens`    a program that is not accepted has the fault that is given for it.
-/

namespace Wattle

open Wattle.Parser State

/-! ### tokens that are left -/

theorem Leaves.lexed {a b : List Token} (h : Leaves a b) (ha : Lexed a) : Lexed b := by
  obtain ⟨stop, hmem, hstop⟩ := ha.stop
  refine ⟨?_, ?_, stop, h.mem hmem hstop, hstop⟩ <;> obtain ⟨ts, rfl, -⟩ := h
  · exact ha.toAscending.right
  · exact fun t ht => ha.lexemes t (List.mem_append_right _ ht)

/-- the end of the file is not read -/
theorem Reads.leaves {limits : Limits} {n : Nonterminal} {s s' : Parser.State} {a : n.Value}
    (h : Reads limits n s a s') : Leaves s.rest s'.rest := by
  have hkind {t : Parser.State} {k : TokenKind} (hk : t.current.kind = k) (hne : k ≠ .endOfFile) :
      Leaves t.rest t.advance.rest := (goes_advance (hk ▸ hne)).rest
  have hsees {t : Parser.State} {k : TokenKind} (hk : t.sees k = true) (hne : k ≠ .endOfFile) :
      Leaves t.rest t.advance.rest := hkind (kind_of_sees hk hne) hne
  have hident {t : Parser.State} {name : Ident}
      (hk : t.current = ⟨.identifier name.name, name.span⟩) : Leaves t.rest t.advance.rest :=
    hkind (by rw [hk]) (by simp)
  induction h with
  | number hk => exact hkind hk (by simp)
  | var hk => exact hkind hk (by simp)
  | call hk ho _ hc _ ih =>
    exact (hident hk).trans ((hsees ho (by simp)).trans (ih.trans (hsees hc (by simp))))
  | group hk _ hc ih => exact (hkind hk (by simp)).trans (ih.trans (hsees hc (by simp)))
  | neg hm _ ih => exact (hsees hm (by simp)).trans ih
  | unsigned _ ih | operand _ ih | unassigned _ ih | someItems _ ih | branching _ ih
  | elseBlock _ ih | elseIf _ ih | single _ ih => exact ih
  | binary _ _ hk _ _ ih ih' => exact ih.trans ((hkind hk (by simp)).trans ih')
  | assign _ _ ha _ _ ih ih' => exact ih.trans ((hsees ha (by simp)).trans ih')
  | expression _ _ ih => simpa using ih
  | cons _ hc _ ih ihs => exact ih.trans ((hsees hc (by simp)).trans ihs)
  | noItems | noStatements | noFunctions => exact .refl _
  | declaration hk hname _ hnote ha _ _ hs ih =>
    refine (hkind hk (by simp)).trans ((hident hname).trans ?_)
    refine Leaves.trans ?_ ((hsees ha (by simp)).trans (ih.trans (hsees hs (by simp))))
    obtain ⟨-, -, rfl⟩ | ⟨hcolon, _, -, hword, rfl⟩ := writtenType_done.1 hnote
    · exact .refl _
    · exact (hsees hcolon (by simp)).trans (hkind hword (by simp))
  | ret hk _ hs ih => exact (hkind hk (by simp)).trans (ih.trans (hsees hs (by simp)))
  | expressionStmt _ hs ih => exact ih.trans (hsees hs (by simp))
  | moreStatements _ _ ih ihs | moreFunctions _ _ ih ihs => exact ih.trans ihs
  | block ho _ hc ih => exact (hsees ho (by simp)).trans (ih.trans (hsees hc (by simp)))
  | @conditional s _ _ _ _ _ _ hk ho _ hc _ _ ih ihb =>
    have hword : Leaves s.rest (s.enter .conditional).advance.rest := by
      simpa using hkind hk (by simp)
    simpa using hword.trans ((hsees ho (by simp)).trans (ih.trans ((hsees hc (by simp)).trans ihb)))
  | @conditionalElse s _ _ _ _ _ _ _ _ _ hk ho _ hc _ _ he _ ih ihb iha =>
    have hword : Leaves s.rest (s.enter .conditional).advance.rest := by
      simpa using hkind hk (by simp)
    simpa using hword.trans ((hsees ho (by simp)).trans (ih.trans ((hsees hc (by simp)).trans
      (ihb.trans ((hsees he (by simp)).trans iha)))))
  | param hname hc ht =>
    exact (hident hname).trans ((hsees hc (by simp)).trans (hkind ht (by simp)))
  | function hk hname ho _ hc hm ht _ _ _ ih ihb =>
    exact (hsees hk (by simp)).trans ((hident hname).trans ((hsees ho (by simp)).trans (ih.trans
      ((hsees hc (by simp)).trans ((hsees hm (by simp)).trans ((hkind ht (by simp)).trans ihb))))))

/-! ### runs that fail -/

namespace Parser

section
variable {α β : Type} {s s' s'' : State} {fault : Fault}

@[simp] theorem pure_failed {a : α} : ¬ (pure a : Parser α) s = .failed fault s' := by
  simp [pure_apply]

theorem bind_failed {p : Parser α} {f : α → Parser β} :
    (p >>= f) s = .failed fault s'' ↔
      p s = .failed fault s'' ∨ ∃ a s', p s = .done a s' ∧ f a s' = .failed fault s'' := by
  rw [bind_apply]
  cases p s with
  | done a t =>
    constructor
    · exact fun h => .inr ⟨a, t, rfl, h⟩
    · rintro (h | ⟨a', t', h, h'⟩)
      · cases h
      · cases h
        exact h'
  | failed e t => simp
  | outOfSteps => simp

@[simp] theorem ite_failed {c : Prop} [Decidable c] {p q : Parser α} :
    (if c then p else q) s = .failed fault s' ↔
      c ∧ p s = .failed fault s' ∨ ¬ c ∧ q s = .failed fault s' := by
  by_cases h : c <;> simp [h]

@[simp] theorem fail_failed {other : Fault} :
    (fail other : Parser α) s = .failed fault s' ↔ other = fault ∧ s = s' := by
  simp [fail]

@[simp] theorem outOfSteps_failed : ¬ (outOfSteps : Parser α) s = .failed fault s' := by
  simp [outOfSteps]

@[simp] theorem ofExcept_failed {x : Except Fault α} :
    ofExcept x s = .failed fault s' ↔ x = .error fault ∧ s = s' := by
  cases x <;> simp [ofExcept]

@[simp] theorem eat_failed {kind : TokenKind} : ¬ eat kind s = .failed fault s' := by
  simp only [eat, sees_bind, ite_failed, bind_failed, pure_failed]
  simp [advance]

theorem mapState_failed {x : Outcome α} {f : State → State} :
    x.mapState f = .failed fault s' ↔ ∃ t, x = .failed fault t ∧ f t = s' := by
  cases x with
  | done a t => simp [Outcome.mapState]
  | failed e t => simp [Outcome.mapState, and_assoc, exists_and_left]
  | outOfSteps => simp [Outcome.mapState]

end

end Parser

/-! ### faults in the grammar -/

/-- the causes in the grammar and in the nesting; the numbers of a text are never malformed -/
def Cause.isSyntactic : Cause → Bool
  | .expectedFunction _ | .missingReturnType _ _ | .missingParameterType _ _ | .expectedToken _ _
  | .expectedIdentifier _ | .unknownType _ | .expectedType _ | .expectedExpression _
  | .invalidAssignmentTarget | .nestingTooDeep _ _ => true
  | _ => false

/-- a fault in the grammar, or in the nesting, at a row of some tokens -/
structure Fault.Syntactic (fault : Fault) (tokens : List Token) : Prop where
  cause : fault.cause.isSyntactic = true
  placed : fault.Placed tokens

theorem Fault.Syntactic.category {fault : Fault} {tokens : List Token}
    (h : fault.Syntactic tokens) : fault.category = .syntactic := by
  obtain ⟨cause, span⟩ := fault
  have hcause := h.cause
  cases cause <;> first | rfl | cases hcause

theorem Fault.Syntactic.of_suffix {fault : Fault} {ts us : List Token} (h : fault.Syntactic ts)
    (hs : ts <:+ us) : fault.Syntactic us :=
  ⟨h.1, h.2.of_suffix hs⟩

namespace Parser

section
variable {α : Type} {s s' : State} {fault : Fault}

theorem State.current_mem (hs : Lexed s.rest) : s.current ∈ s.rest := by
  obtain ⟨stop, hmem, -⟩ := hs.stop
  obtain ⟨t, rest, h⟩ := List.exists_cons_of_ne_nil (List.ne_nil_of_mem hmem)
  simp [State.current, h]

theorem failHere_failed (hs : Lexed s.rest) {cause : Cause}
    (h : (failHere cause : Parser α) s = .failed fault s')
    (hcause : cause.isSyntactic = true) : fault.Syntactic s.rest := by
  cases h
  exact ⟨hcause, Fault.placed_of_mem rfl (State.current_mem hs)⟩

theorem expect_failed (hs : Lexed s.rest) {kind : TokenKind}
    (h : expect kind s = .failed fault s') : fault.Syntactic s.rest := by
  simp only [expect, sees_bind, ite_failed, current_bind] at h
  obtain ⟨-, h⟩ | ⟨-, h⟩ := h
  · cases h
  · exact failHere_failed hs h rfl

theorem identifier_failed (hs : Lexed s.rest) (h : identifier s = .failed fault s') :
    fault.Syntactic s.rest := by
  simp only [identifier, current_bind] at h
  cases hk : s.current.kind with
  | identifier name => simp [hk] at h
  | _ => exact failHere_failed hs (by simpa [hk] using h) rfl

theorem typeName_failed (hs : Lexed s.rest) (h : typeName s = .failed fault s') :
    fault.Syntactic s.rest := by
  simp only [typeName, current_bind] at h
  cases hk : s.current.kind with
  | keyword word =>
    cases word with
    | intWord | doubleWord => simp [hk] at h
    | _ => exact failHere_failed hs (by simpa [hk] using h) rfl
  | _ => exact failHere_failed hs (by simpa [hk] using h) rfl

end

end Parser

/-! ### faults of checks -/

namespace Env

theorem ofParams_eq_none {bs : List Binding} {name : String} (h : ofParams bs name = none) :
    ∀ b ∈ bs, b.name.name ≠ name := by
  simpa [ofParams] using h

theorem ofParams_eq_some {bs : List Binding} {name : String} {type : DataType}
    (h : ofParams bs name = some type) : ∃ b ∈ bs, b.name.name = name ∧ b.type = type := by
  obtain ⟨b, hb, htype⟩ := Option.map_eq_some_iff.1 h
  exact ⟨b, List.mem_of_find?_eq_some hb, by simpa using List.find?_some hb, htype⟩

theorem ofParams_snoc {bs : List Binding} {name : Ident} {type : DataType}
    (h : ofParams bs name.name = none) :
    (ofParams bs).bind name.name type = ofParams (bs ++ [⟨name, type⟩]) := by
  funext x
  by_cases hx : x = name.name
  · subst hx
    have hnone : bs.find? (fun b => b.name.name == name.name) = none := by simpa [ofParams] using h
    simp [bind, ofParams, List.find?_append, hnone]
  · have hx' : (name.name == x) = false := by simpa using Ne.symm hx
    simp [bind, ofParams, List.find?_append, hx, hx']

end Env

theorem Stmt.branchDeclarations_append (ss ss' : List Stmt) :
    branchDeclarations (ss ++ ss') = branchDeclarations ss ++ branchDeclarations ss' := by
  induction ss with
  | nil => rfl
  | cons s ss ih => simp [ih]

/-- statements declare the variables that stand in them -/
theorem StmtsTyped.env_eq {Δ : Signatures} {bs : List Binding} {ss : List Stmt} {Γ Γ' : Env}
    (h : StmtsTyped Δ Γ ss Γ') (hΓ : Γ = .ofParams bs) :
    Γ' = .ofParams (bs ++ Stmt.branchDeclarations ss) := by
  induction h generalizing bs with
  | nil => simpa using hΓ
  | declaration hnew _ _ _ ih =>
    subst hΓ
    simpa [Stmt.declarations] using ih (Env.ofParams_snoc hnew)
  | ret _ _ ih | expression _ _ ih => simpa [Stmt.declarations] using ih hΓ
  | conditional _ _ _ _ _ ih₁ ih₂ ih =>
    simpa [Stmt.declarations, Stmt.alternateDeclarations_eq] using ih (ih₂ (ih₁ hΓ))

theorem Latest.of_ofFunctions {fs : List FunctionDecl} {name : String} {signature : Signature}
    (h : Signatures.ofFunctions fs name = some signature) :
    ∃ f, Latest fs name f ∧ f.signature = signature := by
  obtain ⟨f, hf, hsignature⟩ := Option.map_eq_some_iff.1 h
  obtain ⟨hname, later, earlier, hfs, hlater⟩ := List.find?_eq_some_iff_append.1 hf
  refine ⟨f, ⟨earlier.reverse, later.reverse, ?_, by simpa using hname, ?_⟩, hsignature⟩
  · simpa using congrArg List.reverse hfs
  · simpa using hlater

theorem IsNumber.isDigits {cs : List Char} (h : IsNumber cs) (hdot : '.' ∉ cs) : IsDigits cs := by
  cases h with
  | whole hw => exact hw
  | decimal => simp at hdot

/-- a number of the lexer is rejected for its size only -/
theorem Expr.ofLexeme_error {lexeme : String} {span : Span} {fault : Fault}
    (hl : IsNumber lexeme.toList) (h : ofLexeme lexeme span = .error fault) :
    fault = ⟨.integerOutOfRange lexeme, span⟩ ∧ IsDigits lexeme.toList ∧
      4294967295 < digitsValue lexeme.toList := by
  unfold ofLexeme at h
  split at h
  · next hdot =>
    obtain ⟨value, hvalue⟩ := exists_decimal hl hdot
    simp [hvalue] at h
  · next hdot =>
    split at h
    · cases h
    · next hword =>
      have hdigits := hl.isDigits hdot
      refine ⟨(Except.error.inj h).symm, hdigits, Nat.lt_of_not_le fun hmax => ?_⟩
      obtain ⟨-, n, hn, -⟩ := literal_whole hdigits rfl hmax
      rw [hword] at hn
      cases hn

namespace Signature

theorem mismatch?_eq_some {callee : String} {i : Nat} {params : List DataType} {args : List Expr}
    {fault : Fault} (h : mismatch? callee i params args = some fault) :
    ∃ before type after earlier e later, params = before ++ type :: after ∧
      args = earlier ++ e :: later ∧ before = earlier.map Expr.type ∧ type ≠ e.type ∧
      fault = ⟨.argumentMismatch (i + earlier.length) callee type e.type, e.span⟩ := by
  induction params generalizing args i with
  | nil => simp [mismatch?] at h
  | cons t params ih =>
    cases args with
    | nil => simp [mismatch?] at h
    | cons a args =>
      simp only [mismatch?] at h
      split at h
      · next ht =>
        obtain ⟨before, type, after, earlier, e, later, rfl, rfl, rfl, hne, rfl⟩ := ih h
        refine ⟨t :: earlier.map Expr.type, type, after, a :: earlier, e, later, rfl, rfl, ?_, hne,
          ?_⟩
        · rw [ht, List.map_cons]
        · rw [List.length_cons, Nat.add_right_comm, Nat.add_assoc]
      · next ht => exact ⟨[], t, params, [], a, args, rfl, rfl, rfl, ht, (Option.some.inj h).symm⟩

/-- a call that is not accepted -/
theorem callType_error {found : Option Signature} {callee : Ident} {args : List Expr}
    {fault : Fault} (h : callType found callee args = .error fault) :
    ∃ signature, found = some signature ∧ signature.fault? callee args = some fault := by
  cases found with
  | none => cases h
  | some signature =>
    simp only [callType] at h
    split at h
    · next hf => exact ⟨signature, rfl, hf.trans (congrArg some (Except.error.inj h))⟩
    · cases h

end Signature

/-! ### what a state knows -/

/-- the end of the file is among the tokens that are left, and the functions `fs` and the variables
`bs` are declared -/
structure Parser.State.Knows (s : Parser.State) (fs : List FunctionDecl) (bs : List Binding) :
    Prop where
  lexed : Lexed s.rest
  context : s.context = ⟨.ofParams bs, .ofFunctions fs⟩

namespace Parser.State.Knows

section
variable {limits : Limits} {n : Nonterminal} {fs : List FunctionDecl} {bs : List Binding}
  {s s' : State} {kind : TokenKind}

theorem lookup (h : s.Knows fs bs) (name : String) : s.scope.lookup name = Env.ofParams bs name :=
  congrFun (congrArg Context.env h.context) name

theorem get? (h : s.Knows fs bs) (name : String) :
    s.functions.get? name = Signatures.ofFunctions fs name :=
  congrFun (congrArg Context.signatures h.context) name

theorem leaves (h : s.Knows fs bs) (hl : Leaves s.rest s'.rest) (hc : s'.context = s.context) :
    s'.Knows fs bs :=
  ⟨hl.lexed h.lexed, hc.trans h.context⟩

theorem advance (h : s.Knows fs bs) (hk : s.current.kind = kind) (hne : kind ≠ .endOfFile) :
    s.advance.Knows fs bs :=
  h.leaves (goes_advance (hk ▸ hne)).rest (advance_context s)

theorem take (h : s.Knows fs bs) (hk : s.sees kind = true) (hne : kind ≠ .endOfFile) :
    s.advance.Knows fs bs :=
  h.advance (kind_of_sees hk hne) hne

theorem enter (h : s.Knows fs bs) (nesting : Nesting) : (s.enter nesting).Knows fs bs :=
  ⟨by simpa using h.lexed, by simpa using h.context⟩

theorem rest_ne_nil (h : s.Knows fs bs) : s.rest ≠ [] := by
  obtain ⟨stop, hmem, -⟩ := h.lexed.stop
  exact List.ne_nil_of_mem hmem

theorem rest_eq (h : s.Knows fs bs) (hk : s.current.kind = kind) :
    s.rest = ⟨kind, s.current.span⟩ :: s.advance.rest :=
  rest_eq_of_kind hk h.rest_ne_nil

/-- what is read is located and well typed -/
theorem reads (h : s.Knows fs bs) {a : n.Value} (hr : Reads limits n s a s') :
    Lexed s'.rest ∧ (∃ ts, s.rest = ts ++ s'.rest ∧ Located n ts a) ∧
      n.Typed ⟨.ofParams bs, .ofFunctions fs⟩ a s'.context := by
  have hl := hr.leaves.lexed h.lexed
  obtain ⟨stop, hmem, -⟩ := hl.stop
  exact ⟨hl, hr.located h.lexed.toAscending (.inr (List.ne_nil_of_mem hmem)), h.context ▸ hr.typed⟩

theorem reads_expr (h : s.Knows fs bs) {l : Level} {e : Expr} (hr : Reads limits (.expr l) s e s') :
    s'.Knows fs bs ∧ ∃ ts, s.rest = ts ++ s'.rest ∧ Stands fs bs l ts e := by
  obtain ⟨hl, ⟨ts, hts, hlocated⟩, htyped, hcontext⟩ := h.reads hr
  exact ⟨⟨hl, hcontext.symm⟩, ts, hts, hlocated, htyped⟩

theorem reads_args (h : s.Knows fs bs) {args : List Expr}
    (hr : Reads limits (.items (.expr .expression)) s args s') :
    s'.Knows fs bs ∧ ∃ ts, s.rest = ts ++ s'.rest ∧ Located (.items (.expr .expression)) ts args ∧
      ∀ a ∈ args, a.Typed (.ofFunctions fs) (.ofParams bs) := by
  obtain ⟨hl, ⟨ts, hts, hlocated⟩, htyped⟩ := h.reads hr
  obtain ⟨hargs, hcontext⟩ := Threads.expr htyped
  exact ⟨⟨hl, hcontext.symm⟩, ts, hts, hlocated, hargs⟩

/-- behind statements their variables are known, too -/
theorem of_typed (hl : Lexed s.rest) {ss : List Stmt}
    (h : StmtsTypedIn ⟨.ofParams bs, .ofFunctions fs⟩ ss s.context) :
    s.Knows fs (bs ++ Stmt.branchDeclarations ss) ∧ Complete fs bs ss := by
  obtain ⟨htyped, hsignatures⟩ := h
  have henv : s.context.env = _ := htyped.env_eq rfl
  rw [henv] at htyped
  exact ⟨⟨hl, congr (congrArg Context.mk henv) hsignatures⟩, htyped⟩

theorem reads_statement (h : s.Knows fs bs) {a : Stmt} (hr : Reads limits .statement s a s') :
    s'.Knows fs (bs ++ Stmt.branchDeclarations [a]) ∧ Complete fs bs [a] ∧
      ∃ ts, s.rest = ts ++ s'.rest ∧ Located .statement ts a := by
  obtain ⟨hl, hlocated, htyped⟩ := h.reads hr
  obtain ⟨hknows, hdone⟩ := of_typed hl htyped
  exact ⟨hknows, hdone, hlocated⟩

theorem reads_block (h : s.Knows fs bs) {b : List Stmt × Span} (hr : Reads limits .block s b s') :
    s'.Knows fs (bs ++ Stmt.branchDeclarations b.1) ∧ Complete fs bs b.1 ∧
      ∃ ts, s.rest = ts ++ s'.rest ∧ Located .block ts b := by
  obtain ⟨hl, hlocated, htyped⟩ := h.reads hr
  obtain ⟨hknows, hdone⟩ := of_typed hl htyped
  exact ⟨hknows, hdone, hlocated⟩

end

end Parser.State.Knows

/-! ### faults of parts -/

section
variable {fs : List FunctionDecl} {bs : List Binding}

theorem Complete.nil : Complete fs bs [] := by
  unfold Complete
  rw [Stmt.branchDeclarations_nil, List.append_nil]
  exact .nil

theorem Complete.append {done done' : List Stmt} (h : Complete fs bs done)
    (h' : Complete fs (bs ++ Stmt.branchDeclarations done) done') :
    Complete fs bs (done ++ done') := by
  unfold Complete at *
  rw [List.append_assoc, ← Stmt.branchDeclarations_append] at h'
  exact StmtsTyped.append h h'

end

/-- a part that starts with some tokens has a fault in the grammar, or a part inside of it has one
in names or types -/
inductive Fails (fs : List FunctionDecl) (n : Nonterminal) (bs : List Binding)
    (tokens : List Token) (fault : Fault) : Prop
  | syntactic (h : fault.Syntactic tokens)
  | inside {done m behind} (h : Enters n tokens done m behind) (hdone : Complete fs bs done)
      (hfault : Faulty fs (bs ++ Stmt.branchDeclarations done) m behind fault)

namespace Fails

variable {fs : List FunctionDecl} {n m : Nonterminal} {bs : List Binding}
  {tokens behind : List Token} {done : List Stmt} {fault : Fault}

theorem here (h : Faulty fs bs n tokens fault) : Fails fs n bs tokens fault :=
  .inside .here Complete.nil (by simpa using h)

/-- what a part fails with, the part around it does -/
theorem within (h : Enters n tokens done m behind) (hdone : Complete fs bs done)
    (hf : Fails fs m (bs ++ Stmt.branchDeclarations done) behind fault) :
    Fails fs n bs tokens fault := by
  cases hf with
  | syntactic hs => exact .syntactic (hs.of_suffix h.suffix)
  | inside h' hdone' hfault =>
    rw [List.append_assoc, ← Stmt.branchDeclarations_append] at hfault
    exact .inside (h.trans h') (hdone.append hdone') hfault

theorem enters (h : Enters n tokens [] m behind) (hf : Fails fs m bs behind fault) :
    Fails fs n bs tokens fault :=
  .within h Complete.nil (by simpa using hf)

end Fails

/-- a failed run of `p` has found a fault of a part of the kind `n` -/
def Blames {α : Type} (n : Nonterminal) (p : Parser α) : Prop :=
  ∀ ⦃fs bs s fault s'⦄, s.Knows fs bs → p s = .failed fault s' → Fails fs n bs s.rest fault

/-- what is known of the runs of the parser of a level -/
structure Level.Reader (limits : Limits) (l : Level) (p : Parser Expr) : Prop where
  sound : Sound p (Reads limits (.expr l))
  /-- what follows does not go on with the expression -/
  ends : ∀ ⦃s e s'⦄, p s = .done e s' → l.Ends s'.rest
  blames : Blames (.expr l) p

namespace Parser

/-! ### rows that fail -/

theorem expr_stays {l : Level} {c c' : Context} {e : Expr} (h : (Nonterminal.expr l).Typed c e c') :
    c' = c :=
  h.2.symm

section
variable {limits : Limits} {n : Nonterminal} {item : Parser n.Value} {fs : List FunctionDecl}
  {bs : List Binding} {fault : Fault}

/-- a row fails where one of its items does -/
theorem separated_failed (hsound : Sound item (Reads limits n))
    (hstay : ∀ {c a c'}, n.Typed c a c' → c' = c) (k : Nat) {s s' : State} (hs : s.Knows fs bs)
    (h : separated item k s = .failed fault s') :
    ∃ t t', t.Knows fs bs ∧ Enters (.row n) s.rest [] n t.rest ∧ item t = .failed fault t' := by
  induction k generalizing s s' with
  | zero => exact absurd h outOfSteps_failed
  | succ k ih =>
    simp only [separated, bind_failed, eat_failed, eat_done, ite_failed, pure_failed, and_false,
      or_false, false_or, exists_false] at h
    obtain h | ⟨a, s₁, ha, comma, s₂, ⟨hc, rfl⟩, rfl, h⟩ := h
    · exact ⟨s, s', hs, .first .here, h⟩
    · have hread := hsound ha
      obtain ⟨hl, ⟨ts, hts, hlocated⟩, htyped⟩ := hs.reads hread
      have hs₁ : s₁.Knows fs bs := ⟨hl, hstay htyped⟩
      obtain ⟨t, t', ht, henters, hitem⟩ := ih (hs₁.take hc (by simp)) h
      refine ⟨t, t', ht, ?_, hitem⟩
      rw [hts, hs₁.rest_eq (kind_of_sees hc (by simp))]
      exact .next hlocated henters

theorem items_failed (hsound : Sound item (Reads limits n))
    (hstay : ∀ {c a c'}, n.Typed c a c' → c' = c) (k : Nat) {s s' : State} (hs : s.Knows fs bs)
    (h : items item k s = .failed fault s') :
    ∃ t t', t.Knows fs bs ∧ Enters (.items n) s.rest [] n t.rest ∧ item t = .failed fault t' := by
  simp only [items, sees_bind, ite_failed, pure_failed, and_false, false_or] at h
  obtain ⟨t, t', ht, henters, hitem⟩ := separated_failed hsound hstay k hs h.2
  exact ⟨t, t', ht, .someItems henters, hitem⟩

end

/-! ### expressions that fail -/

section
variable {limits : Limits} {steps : Nat} {inner : Parser Expr} {fs : List FunctionDecl}
  {bs : List Binding} {s s' : State} {fault : Fault}

theorem number_blames {lexeme : String} (hs : s.Knows fs bs)
    (hk : s.current.kind = .number lexeme) (h : number lexeme s = .failed fault s') :
    Fails fs (.expr .primary) bs s.rest fault := by
  simp only [number, advance_bind, ofExcept_failed] at h
  have hlexeme : IsNumber lexeme.toList := by
    have hmem := hs.lexed.lexemes _ (State.current_mem hs.lexed)
    simpa [hk, TokenKind.IsLexeme] using hmem
  obtain ⟨rfl, hdigits, hvalue⟩ := Expr.ofLexeme_error hlexeme h.1
  rw [hs.rest_eq hk]
  exact .here (.integerOutOfRange hdigits hvalue)

theorem var_blames {name : String} (hs : s.Knows fs bs) (hk : s.current.kind = .identifier name)
    (hnext : s.ahead ≠ .symbol .leftParen) (h : var name s = .failed fault s') :
    Fails fs (.expr .primary) bs s.rest fault := by
  simp only [var, advance_bind, lookup_bind, advance_scope] at h
  cases hv : s.scope.lookup name with
  | some type => simp [hv] at h
  | none =>
    simp only [hv, fail_failed] at h
    obtain ⟨rfl, -⟩ := h
    have hrow := hs.rest_eq hk
    obtain ⟨next, behind, hbehind⟩ :=
      List.exists_cons_of_ne_nil (hs.advance hk (by simp)).rest_ne_nil
    rw [hbehind] at hrow
    simp only [State.ahead, hrow] at hnext
    rw [hrow]
    rw [hs.lookup] at hv
    exact .here (.undefinedVariable (Env.ofParams_eq_none hv) hnext)

/-- the fault of a call with arguments that are well typed -/
theorem faulty_of_fault? {f : FunctionDecl} {callee : Ident} {o c : Span} {args : List Expr}
    {ts behind : List Token} (hf : Latest fs callee.name f)
    (hargs : Located (.items (.expr .expression)) ts args)
    (htyped : ∀ a ∈ args, a.Typed (.ofFunctions fs) (.ofParams bs))
    (h : f.signature.fault? callee args = some fault) :
    Faulty fs bs (.expr .primary) (⟨.identifier callee.name, callee.span⟩ ::
      ⟨.symbol .leftParen, o⟩ :: (ts ++ ⟨.symbol .rightParen, c⟩ :: behind)) fault := by
  unfold Signature.fault? at h
  have hlength : f.signature.params.length = f.params.length := List.length_map _
  rw [hlength] at h
  split at h
  · next hcount =>
    obtain rfl := Option.some.inj h
    exact .wrongArgumentCount hf hargs hcount
  · next hcount =>
    obtain ⟨types, type, after, earlier, e, later, hparams, rfl, hbefore, hne, rfl⟩ :=
      Signature.mismatch?_eq_some h
    obtain ⟨before, rest, hbs, rfl, hrest⟩ := List.map_eq_append_iff.1 hparams
    obtain ⟨b, bs', rfl, rfl, -⟩ := List.map_eq_cons_iff.1 hrest
    rw [Nat.zero_add]
    exact .argumentMismatch hf hbs hargs htyped (by simpa using hcount) hbefore hne

theorem call_blames (hx : Level.expression.Reader limits inner) (hs : s.Knows fs bs)
    (h : call steps inner s = .failed fault s') : Fails fs (.expr .primary) bs s.rest fault := by
  simp only [call, bind_failed, identifier_done, expect_done, signature?_bind, ofExcept_failed,
    pure_failed, and_false, or_false, exists_false] at h
  obtain hf | ⟨callee, _, ⟨hcallee, rfl⟩, h⟩ := h
  · exact .syntactic (identifier_failed hs.lexed hf)
  have hs₁ := hs.advance (by rw [hcallee]) (by simp)
  have hrow := hs.rest_eq rfl
  rw [hcallee] at hrow
  obtain hf | ⟨_, _, ⟨ho, -, rfl⟩, h⟩ := h
  · exact .syntactic ((expect_failed hs₁.lexed hf).of_suffix s.advance_suffix)
  have hs₂ := hs₁.take ho (by simp)
  rw [hs₁.rest_eq (kind_of_sees ho (by simp))] at hrow
  rw [hrow]
  obtain hf | ⟨args, s₃, hargs, h⟩ := h
  · obtain ⟨t, t', ht, henters, hitem⟩ := items_failed hx.sound expr_stays steps hs₂ hf
    exact .enters (.argument henters) (hx.blames ht hitem)
  obtain ⟨hs₃, ts, hts, hlocated, htyped⟩ := hs₂.reads_args (items_sound hx.sound steps hargs)
  rw [hts]
  obtain hf | ⟨_, _, ⟨hc, -, rfl⟩, htype, -⟩ := h
  · exact .syntactic ((expect_failed hs₃.lexed hf).of_suffix
      (suffix_of_append [_, _] (List.suffix_append ts _)))
  obtain ⟨signature, hfound, hfault⟩ := Signature.callType_error htype
  rw [(hs₃.take hc (by simp)).get?] at hfound
  obtain ⟨f, hf, rfl⟩ := Latest.of_ofFunctions hfound
  rw [hs₃.rest_eq (kind_of_sees hc (by simp))]
  exact .here (faulty_of_fault? hf hlocated htyped hfault)

theorem group_blames (hx : Level.expression.Reader limits inner) (hs : s.Knows fs bs)
    (hk : s.current.kind = .symbol .leftParen) (h : group inner s = .failed fault s') :
    Fails fs (.expr .primary) bs s.rest fault := by
  simp only [group, advance_bind, bind_failed, expect_done, pure_failed, and_false, or_false,
    exists_false] at h
  have hs₁ := hs.advance hk (by simp)
  obtain hf | ⟨e, s₁, he, hf⟩ := h
  · rw [hs.rest_eq hk]
    exact .enters (.group .here) (hx.blames hs₁ hf)
  · have hread := hx.sound he
    exact .syntactic ((expect_failed (hs₁.reads_expr hread).1.lexed hf).of_suffix
      (hread.rest_suffix.trans s.advance_suffix))

theorem primary_reader (hx : Level.expression.Reader limits inner) :
    Level.primary.Reader limits (primary steps inner) where
  sound := primary_sound hx.sound
  ends _ _ _ _ _ _ := rfl
  blames := by
    intro fs bs s fault s' hs h
    simp only [primary, current_bind] at h
    cases hk : s.current.kind with
    | number lexeme => exact number_blames hs hk (by simpa [hk] using h)
    | identifier name =>
      simp only [hk, ahead_bind, ite_failed] at h
      obtain ⟨-, h⟩ | ⟨hnext, h⟩ := h
      · exact call_blames hx hs h
      · exact var_blames hs hk hnext h
    | symbol sign =>
      cases sign with
      | leftParen => exact group_blames hx hs hk (by simpa [hk] using h)
      | _ => exact .syntactic (failHere_failed hs.lexed (by simpa [hk] using h) rfl)
    | _ => exact .syntactic (failHere_failed hs.lexed (by simpa [hk] using h) rfl)

theorem unary_reader (hx : Level.expression.Reader limits inner) :
    Level.unary.Reader limits (unary steps inner) where
  sound := unary_sound hx.sound
  ends _ _ _ _ _ _ := rfl
  blames := by
    intro fs bs s fault s' hs h
    simp only [unary, sees_bind, ite_failed, advance_bind, bind_failed, pure_failed, and_false,
      or_false, exists_false] at h
    obtain ⟨hm, h⟩ | ⟨-, h⟩ := h
    · rw [hs.rest_eq (kind_of_sees hm (by simp))]
      exact .enters (.neg .here) ((primary_reader hx).blames (hs.take hm (by simp)) h)
    · exact .enters (.unsigned .here) ((primary_reader hx).blames hs h)

end

/-! ### chains that fail -/

section
variable {limits : Limits} {l : Chain} {operand : Parser Expr}

theorem chain_ends (ho : l.operand.Reader limits operand) (k : Nat) {left e : Expr} {s s' : State}
    (hs : l.operand.Ends s.rest) (h : chain l.op? l.build operand k left s = .done e s') :
    (Level.chain l).Ends s'.rest := by
  induction k generalizing left s with
  | zero => exact absurd h outOfSteps_done
  | succ k ih =>
    simp only [chain, current_bind] at h
    cases hop : l.op? s.current.kind with
    | none =>
      obtain ⟨-, rfl⟩ : left = e ∧ s = s' := by simpa [hop] using h
      intro t ht
      obtain ⟨rest, hrest⟩ := List.head?_eq_some_iff.1 ht
      rw [Level.goesOn_chain, hs t ht]
      simpa [State.current, hrest] using hop
    | some op =>
      simp only [hop, advance_bind, bind_done, ofExcept_done] at h
      obtain ⟨right, s₁, hr, node, _, ⟨-, rfl⟩, h⟩ := h
      exact ih (ho.ends hr) h

/-- operands have to agree in their types for a comparison only -/
theorem Chain.faulty_of_build {fs : List FunctionDecl} {bs : List Binding} {op : BinaryOp}
    {left right : Expr} {ts us behind : List Token} {sign : Span} {fault : Fault}
    (hop : op.chain = l) (hl : Stands fs bs (.chain l) ts left)
    (hr : Stands fs bs l.operand us right) (hend : l.operand.Ends behind)
    (h : l.build op sign left right = .error fault) :
    Faulty fs bs (.expr (.chain l)) (ts ++ ⟨.symbol op.symbol, sign⟩ :: (us ++ behind)) fault := by
  cases l with
  | comparison =>
    simp only [Chain.build, BinaryOp.compare] at h
    split at h
    · cases h
    · next htype =>
      obtain rfl := Except.error.inj h
      exact .comparisonMismatch hop hl hr hend htype
  | sum | product => cases h

/-- the loop of a chain, behind what has been read of it -/
theorem chain_blames (ho : l.operand.Reader limits operand) (k : Nat) {fs : List FunctionDecl}
    {bs : List Binding} {fault : Fault} {left : Expr} {s₀ s s' : State} (hs₀ : s₀.Knows fs bs)
    (hl : Reads limits (.expr (.chain l)) s₀ left s)
    (h : chain l.op? l.build operand k left s = .failed fault s') :
    Fails fs (.expr (.chain l)) bs s₀.rest fault := by
  induction k generalizing left s with
  | zero => exact absurd h outOfSteps_failed
  | succ k ih =>
    simp only [chain, current_bind] at h
    cases hop : l.op? s.current.kind with
    | none => simp [hop] at h
    | some op =>
      simp only [hop, advance_bind, bind_failed, ofExcept_failed, ofExcept_done] at h
      obtain ⟨hchain, hk⟩ := Chain.of_op? hop
      obtain ⟨hs, ts, hts, hleft⟩ := hs₀.reads_expr hl
      have hs₁ := hs.advance hk (by simp)
      obtain hf | ⟨right, s₁, hr, hf | ⟨node, _, ⟨hn, rfl⟩, h⟩⟩ := h
      · rw [hts, hs.rest_eq hk]
        exact .enters (.binary hchain hleft.located .here) (ho.blames hs₁ hf)
      · obtain ⟨-, us, hus, hright⟩ := hs₁.reads_expr (ho.sound hr)
        rw [hts, hs.rest_eq hk, hus]
        exact .here (Chain.faulty_of_build hchain hleft hright (ho.ends hr) hf.1)
      · exact ih (.binary hchain hl hk (ho.sound hr) hn) h

theorem chain_reader (ho : l.operand.Reader limits operand) (k : Nat) :
    (Level.chain l).Reader limits (operand >>= chain l.op? l.build operand k) where
  sound s e s' h := by
    obtain ⟨left, s₁, hl, h⟩ := bind_done.1 h
    exact chain_sound ho.sound k (.operand (ho.sound hl)) h
  ends s e s' h := by
    obtain ⟨left, s₁, hl, h⟩ := bind_done.1 h
    exact chain_ends ho k (ho.ends hl) h
  blames := by
    intro fs bs s fault s' hs h
    obtain h | ⟨left, s₁, hl, h⟩ := bind_failed.1 h
    · exact .enters (.operand .here) (ho.blames hs h)
    · exact chain_blames ho k hs (.operand (ho.sound hl)) h

end

/-! ### assignments that fail -/

section
variable {limits : Limits} {steps : Nat} {inner : Parser Expr}

theorem comparison_reader (hx : Level.expression.Reader limits inner) :
    (Level.chain .comparison).Reader limits (comparison steps inner) :=
  @chain_reader _ .comparison _ (@chain_reader _ .sum _ (@chain_reader _ .product _
    (unary_reader hx) steps) steps) steps

/-- what stands behind the target of an assignment -/
theorem assignTo_blames (hx : Level.expression.Reader limits inner) {fs : List FunctionDecl}
    {bs : List Binding} {fault : Fault} {target : Expr} {s s₁ s' : State} (hs : s.Knows fs bs)
    (ht : Reads limits (.expr (.chain .comparison)) s target s₁)
    (ha : s₁.sees (.symbol .assign) = true)
    (h : assignTo inner (s.sees (.symbol .leftParen)) target s₁ = .failed fault s') :
    Fails fs (.expr .assignment) bs s.rest fault := by
  obtain ⟨hs₁, ts, hts, hstands⟩ := hs.reads_expr ht
  have hinvalid (he : fault = ⟨.invalidAssignmentTarget, target.span⟩) :
      Fails fs (.expr .assignment) bs s.rest fault := by
    subst he
    refine .syntactic ⟨rfl, ?_⟩
    rw [hts]
    exact Fault.placed_of_covers [] hstands.located.covers
  cases target with
  | var name type span =>
    cases hg : s.sees (.symbol .leftParen) with
    | true =>
      rw [hg] at h
      exact hinvalid (fail_failed.1 h).1.symm
    | false =>
      simp only [hg, assignTo, advance_bind, bind_failed, ite_failed, pure_failed, fail_failed,
        and_false, false_or] at h
      obtain rfl | ⟨t, us, rfl, hparen⟩ := hstands.located.bare rfl
      · have hs₂ := hs₁.take ha (by simp)
        rw [hts, hs₁.rest_eq (kind_of_sees ha (by simp))]
        obtain hf | ⟨value, s₂, hv, htype, rfl, -⟩ := h
        · exact .enters (.assign .here) (hx.blames hs₂ hf)
        · obtain ⟨-, us, hus, hvalue⟩ := hs₂.reads_expr (hx.sound hv)
          cases hstands.typed with
          | var hbound =>
            obtain ⟨b, hb, rfl, rfl⟩ := Env.ofParams_eq_some hbound
            rw [hus]
            exact .here (.assignmentMismatch hb hvalue (hx.ends hv) htype)
      · -- the assignment does not start with a parenthesis
        have hsees : s.sees (.symbol .leftParen) = true := by simp [State.sees, hts, hparen]
        exact absurd hsees (by simp [hg])
  | _ => exact hinvalid (fail_failed.1 h).1.symm

theorem assignment_reader (hx : Level.expression.Reader limits inner) :
    Level.assignment.Reader limits (assignment steps inner) where
  sound := assignment_sound hx.sound
  ends s e s' h := by
    simp only [assignment, sees_bind, bind_done, ite_done, pure_done] at h
    obtain ⟨left, s₁, hl, ⟨-, h⟩ | ⟨ha, rfl, rfl⟩⟩ := h
    · cases left with
      | var name type span =>
        cases hg : s.sees (.symbol .leftParen) with
        | true => simp [assignTo, hg] at h
        | false =>
          simp only [hg, assignTo, advance_bind, bind_done, ite_done, pure_done, fail_done,
            and_false, or_false] at h
          obtain ⟨value, s₂, hv, -, -, rfl⟩ := h
          exact hx.ends hv
      | _ => simp [assignTo] at h
    · intro t ht
      obtain ⟨rest, hrest⟩ := List.head?_eq_some_iff.1 ht
      have hassign : (t.kind == .symbol .assign) = false := by
        simpa [State.sees, hrest] using ha
      have hcomparison := (comparison_reader hx).ends hl t ht
      exact Bool.or_eq_false_iff.2 ⟨hcomparison, hassign⟩
  blames := by
    intro fs bs s fault s' hs h
    simp only [assignment, sees_bind, bind_failed, ite_failed, pure_failed, and_false,
      or_false] at h
    obtain h | ⟨left, s₁, hl, ha, h⟩ := h
    · exact .enters (.unassigned .here) ((comparison_reader hx).blames hs h)
    · exact assignTo_blames hx hs (comparison_sound hx.sound hl) ha h

/-- a part that is nested too deeply has a fault, and so does one whose inner part has one -/
theorem nested_failed {α : Type} {nesting : Nesting} {limit : Option Nat} {p : Parser α}
    {s s' : State} {fault : Fault} (hs : Lexed s.rest)
    (h : nested nesting limit p s = .failed fault s') :
    fault.Syntactic s.rest ∨ ∃ t, p (s.enter nesting) = .failed fault t := by
  have hopen (h : (p (s.enter nesting)).mapState (·.leave nesting) = .failed fault s') :
      ∃ t, p (s.enter nesting) = .failed fault t := by
    obtain ⟨t, ht, -⟩ := mapState_failed.1 h
    exact ⟨t, ht⟩
  unfold nested at h
  split at h
  · split at h
    · exact .inl (failHere_failed hs h rfl)
    · exact .inr (hopen h)
  · exact .inr (hopen h)

theorem expression_reader (limits : Limits) (k : Nat) :
    Level.expression.Reader limits (expression limits.expressions k) := by
  induction k with
  | zero =>
    exact ⟨expression_sound limits 0, fun s e s' h => by simp [expression] at h,
      fun fs bs s fault s' _ h => by simp [expression] at h⟩
  | succ k ih =>
    refine ⟨expression_sound limits (k + 1), ?_, ?_⟩
    · intro s e s' h
      obtain ⟨-, t, ht, rfl⟩ := nested_done.1 h
      rw [leave_rest]
      exact (assignment_reader ih).ends ht
    · intro fs bs s fault s' hs h
      obtain hf | ⟨t, ht⟩ := nested_failed hs.lexed h
      · exact .syntactic hf
      · have hblamed := (assignment_reader ih).blames (hs.enter .expression) ht
        rw [enter_rest] at hblamed
        exact .enters (.expression .here) hblamed

end

/-! ### statements that fail -/

section
variable {limits : Limits} {steps : Nat} {inner : Parser Expr} {cond : Parser Stmt}
  {fs : List FunctionDecl} {bs : List Binding} {s s' s₁ : State} {fault : Fault}

theorem writtenType_failed (hs : s.Knows fs bs) (h : writtenType s = .failed fault s') :
    fault.Syntactic s.rest := by
  simp only [writtenType, bind_failed, eat_failed, eat_done, ite_failed, pure_failed, and_false,
    or_false, false_or, exists_false] at h
  obtain ⟨found, _, ⟨hc, rfl⟩, rfl, hf⟩ := h
  exact (typeName_failed (hs.take hc (by simp)).lexed hf).of_suffix s.advance_suffix

/-- a type in front of an initializer, if one is written -/
theorem State.Knows.writtenType (hs : s.Knows fs bs) {written : Option DataType}
    (h : Parser.writtenType s = .done written s₁) :
    s₁.Knows fs bs ∧ ∃ note, s.rest = note ++ s₁.rest ∧
      (written = none ∧ note = [] ∨ ∃ type o p, written = some type ∧
        note = [⟨.symbol .colon, o⟩, ⟨.keyword type.keyword, p⟩]) := by
  obtain ⟨-, rfl, rfl⟩ | ⟨hc, type, rfl, hk, rfl⟩ := writtenType_done.1 h
  · exact ⟨hs, [], rfl, .inl ⟨rfl, rfl⟩⟩
  · have hs₁ := hs.take hc (by simp)
    refine ⟨hs₁.advance hk (by simp), [⟨.symbol .colon, s.current.span⟩,
      ⟨.keyword type.keyword, s.advance.current.span⟩], ?_, .inr ⟨type, _, _, rfl, rfl⟩⟩
    rw [hs.rest_eq (kind_of_sees hc (by simp)), hs₁.rest_eq hk]
    rfl

theorem declaredType_error {name : String} {written : Option DataType} {init : Expr}
    (h : declaredType name written init = .error fault) :
    ∃ type, written = some type ∧ type ≠ init.type ∧
      fault = ⟨.initializerMismatch name type init.type, init.span⟩ := by
  cases written with
  | none => cases h
  | some type =>
    simp only [declaredType] at h
    split at h
    · cases h
    · next htype => exact ⟨type, rfl, htype, (Except.error.inj h).symm⟩

theorem declaration_blames (hx : Level.expression.Reader limits inner) (hs : s.Knows fs bs)
    {kind : VarKind} (hk : s.current.kind = .keyword kind.keyword)
    (h : declaration inner s = .failed fault s') : Fails fs .statement bs s.rest fault := by
  simp only [declaration, advance_bind, bind_failed, identifier_done, lookup_bind, ite_failed,
    fail_failed, expect_done, ofExcept_failed, ofExcept_done, declare_bind, pure_failed, and_false,
    or_false, exists_false] at h
  have hs₁ := hs.advance hk (by simp)
  obtain hf | ⟨name, _, ⟨hname, rfl⟩, h⟩ := h
  · exact .syntactic ((identifier_failed hs₁.lexed hf).of_suffix s.advance_suffix)
  have hs₂ := hs₁.advance (by rw [hname]) (by simp)
  have hrow := hs.rest_eq hk
  rw [hs₁.rest_eq rfl, hname] at hrow
  rw [hrow]
  obtain ⟨hfound, rfl, -⟩ | ⟨-, h⟩ := h
  · rw [hs₂.lookup] at hfound
    obtain ⟨type, htype⟩ := Option.isSome_iff_exists.1 hfound
    obtain ⟨b, hb, hb', -⟩ := Env.ofParams_eq_some htype
    exact .here (.variableRedeclared ⟨b, hb, hb'⟩)
  obtain hf | ⟨written, s₃, hnote, h⟩ := h
  · exact .syntactic ((writtenType_failed hs₂ hf).of_suffix (List.suffix_append [_, _] _))
  obtain ⟨hs₃, note, hnote, hwritten⟩ := hs₂.writtenType hnote
  rw [hnote]
  obtain hf | ⟨_, _, ⟨ha, -, rfl⟩, h⟩ := h
  · exact .syntactic ((expect_failed hs₃.lexed hf).of_suffix
      (suffix_of_append [_, _] (List.suffix_append note _)))
  have hs₄ := hs₃.take ha (by simp)
  rw [hs₃.rest_eq (kind_of_sees ha (by simp))]
  obtain hf | ⟨init, s₄, hi, h⟩ := h
  · have htype : ∃ type, TypeNote note type := by
      obtain ⟨-, rfl⟩ | ⟨type, o, p, -, rfl⟩ := hwritten
      · exact ⟨.int, .inl rfl⟩
      · exact ⟨type, .inr ⟨o, p, rfl⟩⟩
    obtain ⟨type, htype⟩ := htype
    exact .enters (.initializer htype .here) (hx.blames hs₄ hf)
  obtain ⟨hs₅, ts, hts, hinit⟩ := hs₄.reads_expr (hx.sound hi)
  rw [hts]
  obtain ⟨hf, -⟩ | ⟨_, _, ⟨-, rfl⟩, hf⟩ := h
  · obtain ⟨type, rfl, htype, rfl⟩ := declaredType_error hf
    obtain ⟨hnone, -⟩ | ⟨type', o, p, hsome, rfl⟩ := hwritten
    · cases hnone
    · obtain rfl := Option.some.inj hsome
      exact .here (.initializerMismatch hinit (hx.ends hi) htype)
  · exact .syntactic ((expect_failed hs₅.lexed hf).of_suffix (suffix_of_append [_, _]
      (suffix_of_append note (suffix_of_append [_] (List.suffix_append ts _)))))

theorem ret_blames (hx : Level.expression.Reader limits inner) (hs : s.Knows fs bs)
    (hk : s.current.kind = .keyword .returnWord) (h : ret inner s = .failed fault s') :
    Fails fs .statement bs s.rest fault := by
  simp only [ret, advance_bind, bind_failed, expect_done, pure_failed, and_false, or_false,
    exists_false] at h
  have hs₁ := hs.advance hk (by simp)
  obtain hf | ⟨e, s₁, he, hf⟩ := h
  · rw [hs.rest_eq hk]
    exact .enters (.ret .here) (hx.blames hs₁ hf)
  · have hread := hx.sound he
    exact .syntactic ((expect_failed (hs₁.reads_expr hread).1.lexed hf).of_suffix
      (hread.rest_suffix.trans s.advance_suffix))

theorem expressionStmt_blames (hx : Level.expression.Reader limits inner) (hs : s.Knows fs bs)
    (h : expressionStmt inner s = .failed fault s') : Fails fs .statement bs s.rest fault := by
  simp only [expressionStmt, bind_failed, expect_done, pure_failed, and_false, or_false,
    exists_false] at h
  obtain hf | ⟨e, s₁, he, hf⟩ := h
  · exact .enters (.expressionStmt .here) (hx.blames hs hf)
  · have hread := hx.sound he
    exact .syntactic ((expect_failed (hs.reads_expr hread).1.lexed hf).of_suffix hread.rest_suffix)

/-- the parser of conditionals is only run where their first word stands -/
def BlamesAtIf (p : Parser Stmt) : Prop :=
  ∀ ⦃fs bs s fault s'⦄, s.Knows fs bs → s.current.kind = .keyword .ifWord →
    p s = .failed fault s' → Fails fs .conditional bs s.rest fault

theorem statement_blames (hx : Level.expression.Reader limits inner) (hc : BlamesAtIf cond) :
    Blames .statement (statement inner cond) := by
  intro fs bs s fault s' hs h
  simp only [statement, current_bind] at h
  cases hk : s.current.kind with
  | keyword word =>
    cases word with
    | letWord => exact @declaration_blames _ _ _ _ _ _ _ hx hs .mutable hk (by simpa [hk] using h)
    | constWord =>
      exact @declaration_blames _ _ _ _ _ _ _ hx hs .constant hk (by simpa [hk] using h)
    | returnWord => exact ret_blames hx hs hk (by simpa [hk] using h)
    | ifWord => exact .enters (.branching .here) (hc hs hk (by simpa [hk] using h))
    | _ => exact expressionStmt_blames hx hs (by simpa [hk] using h)
  | _ => exact expressionStmt_blames hx hs (by simpa [hk] using h)

theorem statements_blames {stmt : Parser Stmt} (hsound : Sound stmt (Reads limits .statement))
    (h : Blames .statement stmt) (k : Nat) : Blames .statements (statements stmt k) := by
  induction k with
  | zero => exact fun fs bs s fault s' _ hf => absurd hf outOfSteps_failed
  | succ k ih =>
    intro fs bs s fault s' hs hf
    simp only [statements, sees_bind, ite_failed, bind_failed, pure_failed, and_false, or_false,
      false_or, exists_false] at hf
    obtain ⟨-, -, hf | ⟨a, s₁, ha, hf⟩⟩ := hf
    · exact .enters (.firstStatement .here) (h hs hf)
    · obtain ⟨hs₁, hdone, ts, hts, hlocated⟩ := hs.reads_statement (hsound ha)
      rw [hts]
      exact .within (.nextStatement hlocated .here) hdone (ih hs₁ hf)

theorem block_blames {stmt : Parser Stmt} (hsound : Sound stmt (Reads limits .statement))
    (h : Blames .statement stmt) : Blames .block (block steps stmt) := by
  intro fs bs s fault s' hs hf
  simp only [block, bind_failed, expect_done, pure_failed, and_false, or_false, exists_false] at hf
  obtain hf | ⟨_, _, ⟨ho, -, rfl⟩, hf⟩ := hf
  · exact .syntactic (expect_failed hs.lexed hf)
  have hs₁ := hs.take ho (by simp)
  obtain hf | ⟨body, s₁, hbody, hf⟩ := hf
  · rw [hs.rest_eq (kind_of_sees ho (by simp))]
    exact .enters (.block .here) (statements_blames hsound h steps hs₁ hf)
  · have hread := statements_sound hsound steps hbody
    exact .syntactic ((expect_failed (hs₁.reads hread).1 hf).of_suffix
      (hread.rest_suffix.trans s.advance_suffix))

theorem alternate_blames (hx : Level.expression.Reader limits inner)
    (hsound : SoundAtIf limits cond) (hc : BlamesAtIf cond) :
    Blames .alternate (alternate steps inner cond) := by
  intro fs bs s fault s' hs h
  simp only [alternate, sees_bind, ite_failed, bind_failed, pure_failed, and_false, or_false,
    exists_false] at h
  obtain ⟨hk, h⟩ | ⟨-, h⟩ := h
  · exact .enters (.elseIf .here) (hc hs (kind_of_sees hk (by simp)) h)
  · exact .enters (.elseBlock .here)
      (block_blames (statement_sound hx.sound hsound) (statement_blames hx hc) hs h)

theorem conditionalBody_blames (hx : Level.expression.Reader limits inner)
    (hsound : SoundAtIf limits cond) (hcond : BlamesAtIf cond) (hs : s.Knows fs bs)
    (hk : s.current.kind = .keyword .ifWord)
    (h : conditionalBody steps inner cond s = .failed fault s') :
    Fails fs .conditional bs s.rest fault := by
  have hstmt := statement_sound hx.sound hsound
  have hblame := statement_blames hx hcond
  simp only [conditionalBody, conditionalTail, advance_bind, bind_failed, expect_done, ite_failed,
    fail_failed, eat_failed, eat_done, pure_failed, and_false, or_false, false_or,
    exists_false] at h
  have hs₁ := hs.advance hk (by simp)
  obtain hf | ⟨_, _, ⟨ho, -, rfl⟩, h⟩ := h
  · exact .syntactic ((expect_failed hs₁.lexed hf).of_suffix s.advance_suffix)
  have hs₂ := hs₁.take ho (by simp)
  rw [hs.rest_eq hk, hs₁.rest_eq (kind_of_sees ho (by simp))]
  obtain hf | ⟨condition, s₂, he, h⟩ := h
  · exact .enters (.condition .here) (hx.blames hs₂ hf)
  obtain ⟨hs₃, ts, hts, hcondition⟩ := hs₂.reads_expr (hx.sound he)
  rw [hts]
  obtain hf | ⟨_, _, ⟨hc, -, rfl⟩, h⟩ := h
  · exact .syntactic ((expect_failed hs₃.lexed hf).of_suffix
      (suffix_of_append [_, _] (List.suffix_append ts _)))
  have hs₄ := hs₃.take hc (by simp)
  rw [hs₃.rest_eq (kind_of_sees hc (by simp))]
  obtain ⟨-, h⟩ | ⟨htype, rfl, -⟩ := h
  · obtain hf | ⟨⟨ss, stop⟩, s₄, hb, found, _, ⟨helse, rfl⟩, rfl, hf⟩ := h
    · exact .enters (.consequent hcondition.located .here) (block_blames hstmt hblame hs₄ hf)
    · obtain ⟨hs₅, hdone, us, hus, hlocated⟩ := hs₄.reads_block (block_sound hstmt hb)
      rw [hus, hs₅.rest_eq (kind_of_sees helse (by simp))]
      refine .within ?_ hdone (alternate_blames hx hsound hcond (hs₅.take helse (by simp)) hf)
      simpa using Enters.alternate hcondition.located hlocated .here
  · have hdouble : condition.type = .double := by cases ht : condition.type <;> simp_all
    rw [hdouble]
    exact .here (.nonIntCondition hcondition hdouble)

theorem conditional_blames (limits : Limits) (k : Nat) : BlamesAtIf (conditional limits k) := by
  induction k with
  | zero => exact fun fs bs s fault s' _ _ h => by simp [conditional] at h
  | succ k ih =>
    intro fs bs s fault s' hs hk h
    obtain hf | ⟨t, ht⟩ := nested_failed hs.lexed h
    · exact .syntactic hf
    · have hblamed := conditionalBody_blames (expression_reader limits k)
        (conditional_sound limits k) ih (hs.enter .conditional) (by simpa using hk) ht
      rwa [enter_rest] at hblamed

end

/-! ### functions that fail -/

section
variable {limits : Limits} {steps : Nat} {fs : List FunctionDecl} {bs : List Binding}
  {s s' : State} {fault : Fault}

theorem param_failed (hs : s.Knows fs bs) (h : param s = .failed fault s') :
    fault.Syntactic s.rest := by
  simp only [param, bind_failed, identifier_done, eat_failed, eat_done, ite_failed, current_bind,
    pure_failed, and_false, or_false, false_or, exists_false] at h
  obtain hf | ⟨name, _, ⟨hname, rfl⟩, found, _, ⟨hc, rfl⟩, h⟩ := h
  · exact identifier_failed hs.lexed hf
  have hs₁ := hs.advance (by rw [hname]) (by simp)
  obtain ⟨rfl, hf⟩ | ⟨hfound, hf⟩ := h
  · have hs₂ := hs₁.take hc (by simp)
    exact (typeName_failed hs₂.lexed hf).of_suffix
      ((State.advance_suffix _).trans s.advance_suffix)
  · rw [if_neg hfound] at hf
    exact (failHere_failed hs₁.lexed hf rfl).of_suffix s.advance_suffix

theorem returnType_failed {name : String} (hs : s.Knows fs bs)
    (h : returnType name s = .failed fault s') : fault.Syntactic s.rest := by
  simp only [returnType, bind_failed, eat_failed, eat_done, ite_failed, current_bind, false_or] at h
  obtain ⟨found, _, ⟨hc, rfl⟩, ⟨rfl, hf⟩ | ⟨hfound, hf⟩⟩ := h
  · exact (typeName_failed (hs.take hc (by simp)).lexed hf).of_suffix s.advance_suffix
  · rw [if_neg hfound] at hf
    exact failHere_failed hs.lexed hf rfl

theorem declareAll_error {scope : Scope} {params : List Binding} {name : Ident}
    (h : scope.declareAll params = .error name) :
    ∃ before b after, params = before ++ b :: after ∧ name = b.name ∧
      ((∃ c ∈ before, c.name.name = b.name.name) ∨ scope.lookup b.name.name ≠ none) := by
  induction params generalizing scope with
  | nil => cases h
  | cons p params ih =>
    simp only [Scope.declareAll] at h
    cases hp : scope.declare? p.name.name p.type with
    | none =>
      rw [hp] at h
      refine ⟨[], p, params, rfl, (Except.error.inj h).symm, .inr fun hnone => ?_⟩
      simp [Scope.declare?, hnone] at hp
    | some scope' =>
      rw [hp] at h
      obtain ⟨hnew, rfl⟩ := Scope.declare?_eq_some.1 hp
      obtain ⟨before, b, after, rfl, rfl, hname⟩ := ih h
      refine ⟨p :: before, b, after, rfl, rfl, ?_⟩
      obtain ⟨c, hc, hname⟩ | hname := hname
      · exact .inl ⟨c, List.mem_cons_of_mem _ hc, hname⟩
      · rw [Scope.lookup_cons] at hname
        split at hname
        · next hb => exact .inl ⟨p, List.mem_cons_self, hb.symm⟩
        · exact .inr hname

theorem paramScope_error {params : List Binding} (h : paramScope params = .error fault) :
    ∃ before b after, params = before ++ b :: after ∧
      (∃ c ∈ before, c.name.name = b.name.name) ∧
      fault = ⟨.parameterRedeclared b.name.name, b.name.span⟩ := by
  unfold paramScope at h
  split at h
  · cases h
  · next name hname =>
    obtain ⟨before, b, after, hparams, rfl, hb | hb⟩ := declareAll_error hname
    · exact ⟨before, b, after, hparams, hb, (Except.error.inj h).symm⟩
    · exact absurd rfl hb

/-- what stands behind the head of a function -/
theorem body_failed {params : List Binding} {scope : Scope} {tokens : List Token}
    (hs : s.Knows fs []) (hhead : Heads params s.rest tokens)
    (hscope : paramScope params = .ok scope)
    (h : inScope scope (block steps (statement (expression limits.expressions steps)
      (conditional limits steps))) s = .failed fault s') :
    fault.Syntactic s.rest ∨ FunctionDecl.Faulty fs tokens fault := by
  obtain ⟨t, ht, -⟩ := mapState_failed.1 h
  obtain ⟨hnames, hlookup⟩ := Scope.of_paramScope hscope
  have hinner : (s.withScope scope).Knows fs params :=
    ⟨hs.lexed, congr (congrArg Context.mk hlookup) (congrArg Context.signatures hs.context)⟩
  have hstmt := statement_sound (expression_sound limits steps) (conditional_sound limits steps)
  have hblame := statement_blames (expression_reader limits steps) (conditional_blames limits steps)
  cases block_blames hstmt hblame hinner ht with
  | syntactic hf => exact .inl hf
  | inside henters hdone hfault => exact .inr (.body hhead hnames henters hdone hfault)

theorem param_stays {c c' : Context} {b : Binding} (h : Nonterminal.param.Typed c b c') : c' = c :=
  Eq.symm h

theorem function_failed (hs : s.Knows fs []) (hk : s.sees (.keyword .functionWord) = true)
    (h : function limits steps s = .failed fault s') :
    fault.Syntactic s.rest ∨ FunctionDecl.Faulty fs s.rest fault := by
  simp only [function, functionOf, functionTail, advance_bind, bind_failed, identifier_done,
    expect_done, returnType_done, ofExcept_failed, ofExcept_done, register_bind, pure_failed,
    and_false, or_false, exists_false] at h
  have hs₁ := hs.take hk (by simp)
  obtain hf | ⟨name, _, ⟨hname, rfl⟩, h⟩ := h
  · exact .inl ((identifier_failed hs₁.lexed hf).of_suffix s.advance_suffix)
  have hs₂ := hs₁.advance (by rw [hname]) (by simp)
  have hrow := hs.rest_eq (kind_of_sees hk (by simp))
  rw [hs₁.rest_eq rfl, hname] at hrow
  rw [hrow]
  obtain hf | ⟨_, _, ⟨ho, -, rfl⟩, h⟩ := h
  · exact .inl ((expect_failed hs₂.lexed hf).of_suffix (List.suffix_append [_, _] _))
  have hs₃ := hs₂.take ho (by simp)
  rw [hs₂.rest_eq (kind_of_sees ho (by simp))]
  obtain hf | ⟨params, s₄, hp, h⟩ := h
  · obtain ⟨t, t', ht, henters, hitem⟩ :=
      @items_failed limits .param _ _ _ _ param_sound param_stays steps _ _ hs₃ hf
    exact .inl ((param_failed ht hitem).of_suffix (suffix_of_append [_, _, _] henters.suffix))
  have hread : Reads limits (.items .param) s.advance.advance.advance params s₄ :=
    items_sound param_sound steps hp
  obtain ⟨hl, ⟨us, hus, hparams⟩, htyped⟩ := hs₃.reads hread
  have hs₄ : s₄.Knows fs [] := ⟨hl, (Threads.param htyped).symm⟩
  rw [hus]
  obtain hf | ⟨_, _, ⟨hc, -, rfl⟩, h⟩ := h
  · exact .inl ((expect_failed hs₄.lexed hf).of_suffix
      (suffix_of_append [_, _, _] (List.suffix_append us _)))
  have hs₅ := hs₄.take hc (by simp)
  rw [hs₄.rest_eq (kind_of_sees hc (by simp))]
  obtain hf | ⟨result, _, ⟨hm, hr, rfl⟩, h⟩ := h
  · exact .inl ((returnType_failed hs₅ hf).of_suffix
      (suffix_of_append [_, _, _] (suffix_of_append us (List.suffix_append [_] _))))
  have hs₆ := hs₅.take hm (by simp)
  have hs₇ := hs₆.advance hr (by simp)
  rw [hs₅.rest_eq (kind_of_sees hm (by simp)), hs₆.rest_eq hr]
  obtain ⟨hf, -⟩ | ⟨scope, _, ⟨hscope, rfl⟩, hf⟩ := h
  · obtain ⟨before, b, after, rfl, hb, rfl⟩ := paramScope_error hf
    exact .inr (.parameterRedeclared (.intro hparams) hb)
  · exact (body_failed hs₇ (.intro hparams) hscope hf).imp_left
      (·.of_suffix (suffix_of_append [_, _, _]
        (suffix_of_append us (List.suffix_append [_, _, _] _))))

/-- the functions of a program fail at one of them, behind those that are complete -/
theorem functions_failed (k : Nat) (hs : s.Knows fs [])
    (h : functions limits steps k s = .failed fault s') :
    fault.Syntactic s.rest ∨ ∃ later t, Reads limits .functions s later t ∧
      FunctionDecl.Faulty (fs ++ later) t.rest fault := by
  induction k generalizing s s' fs with
  | zero => simp [functions, functionsOf] at h
  | succ k ih =>
    simp only [functions, functionsOf, sees_bind, ite_failed, bind_failed, pure_failed,
      current_bind, and_false, or_false, false_or, exists_false] at h
    obtain ⟨-, ⟨hk, hf | ⟨f, s₁, hread, hf⟩⟩ | ⟨-, hf⟩⟩ := h
    · refine (function_failed hs hk hf).imp_right fun hf => ⟨[], s, .noFunctions, ?_⟩
      rwa [List.append_nil]
    · have hread := function_sound hk hread
      obtain ⟨hl, -, -, hcontext⟩ := hs.reads hread
      have hs₁ : s₁.Knows (fs ++ [f]) [] := ⟨hl, by rw [hcontext, Signatures.ofFunctions_snoc]⟩
      obtain hf | ⟨later, t, hlater, hf⟩ := ih hs₁ hf
      · exact .inl (hf.of_suffix hread.rest_suffix)
      · rw [List.append_assoc, List.singleton_append] at hf
        exact .inr ⟨f :: later, t, .moreFunctions hread hlater, hf⟩
    · exact .inl (failHere_failed hs.lexed hf rfl)

end

end Parser

/-! ### programs -/

/-- **A program that is not accepted has the fault that is given for it.** -/
theorem Program.fault_of_ofTokens {tokens : List Token} {fault : Fault} (htokens : Lexed tokens)
    (h : Program.ofTokens .standard tokens = .error fault) :
    fault.Syntactic tokens ∨ Program.Faulty tokens fault := by
  have hfinishes := Program.run_finishes (ends_standard (.initial tokens)) (Nat.le_refl _)
  unfold Program.ofTokens at h
  split at h
  · cases h
  · next s' hrun =>
    obtain rfl := Except.error.inj h
    simp only [Program.run, program, programOf, current_bind, bind_failed, pure_failed, and_false,
      or_false, exists_false] at hrun
    have hs : (State.initial tokens).Knows [] [] := ⟨htokens, rfl⟩
    refine (functions_failed _ hs hrun).imp_right ?_
    rintro ⟨fs, t, hread, hf⟩
    obtain ⟨-, ⟨front, hfront, hlocated⟩, htyped⟩ := hs.reads hread
    refine ⟨front, fs, t.rest, hfront, hlocated, fun earlier f later hfs => ?_, hf⟩
    simpa using FunctionDecl.typed_of_threads htyped hfs
  · next hrun => exact absurd hrun hfinishes

end Wattle
