import Wattle.Proofs.Parser.Yield

/-!
# Runs of single constructs

What each parser does in front of the tokens that it is for, where the parts of the construct have
been run.  Every part of a program starts with tokens of its own (`Reads.starts`), so that a parser
knows from the next token which construct it is in front of.
-/

namespace Wattle

open Wattle.Parser State

/-! ### first tokens -/

def TokenKind.startsPrimary : TokenKind → Bool
  | number _ | identifier _ | symbol .leftParen => true
  | _ => false

namespace Nonterminal

/-- the tokens that a part of a program starts with; nothing is said of what may be empty -/
def Starts : Nonterminal → TokenKind → Prop
  | expr .primary, k => k.startsPrimary = true
  | expr _, k => k.startsPrimary = true ∨ k = .symbol .minus
  | param, k => ∃ name, k = .identifier name
  | row n, k => n.Starts k
  | statement, k => k.startsPrimary = true ∨ k = .symbol .minus ∨
      ∃ word ∈ [Keyword.letWord, .constWord, .returnWord, .ifWord], k = .keyword word
  | block, k => k = .symbol .leftBrace
  | conditional, k => k = .keyword .ifWord
  | function, k => k = .keyword .functionWord
  | items _, _ | statements, _ | alternate, _ | functions, _ => True

end Nonterminal

section
variable {limits : Limits} {n : Nonterminal} {s s' : State} {a : n.Value}

theorem Reads.starts (h : Reads limits n s a s') : n.Starts s.current.kind := by
  induction h with
  | number hk | var hk | group hk => simp [Nonterminal.Starts, TokenKind.startsPrimary, hk]
  | call hk => simp [Nonterminal.Starts, TokenKind.startsPrimary, hk]
  | neg hm => exact .inr (kind_of_sees hm (by simp))
  | unsigned _ ih => exact .inl ih
  | @operand _ _ _ l _ ih => cases l <;> exact ih
  | binary _ _ _ _ _ ih | unassigned _ ih | assign _ _ _ _ _ ih | single _ ih | cons _ _ _ ih =>
    exact ih
  | expression _ _ ih =>
    rw [enter_current] at ih
    exact ih
  | @declaration _ kind _ _ _ _ _ _ hk =>
    refine .inr (.inr ⟨kind.keyword, ?_, hk⟩)
    cases kind <;> simp [VarKind.keyword]
  | ret hk => exact .inr (.inr ⟨.returnWord, by simp, hk⟩)
  | branching _ ih => exact .inr (.inr ⟨.ifWord, by simp, ih⟩)
  | expressionStmt _ _ ih => exact ih.imp_right .inl
  | block ho => exact kind_of_sees ho (by simp)
  | conditional _ hk | conditionalElse _ hk => exact hk
  | param hname => exact ⟨_, congrArg Token.kind hname⟩
  | function hk => exact kind_of_sees hk (by simp)
  | noItems | someItems | noStatements | moreStatements | elseBlock | elseIf | noFunctions
  | moreFunctions => trivial

end

/-! ### states with tokens left -/

namespace Parser.State

variable {s s' : State} {kind : TokenKind}

@[simp] theorem leave_current (nesting : Nesting) : (s.leave nesting).current = s.current := by
  cases nesting <;> rfl

theorem sees_eq (h : s.rest ≠ []) : s.sees kind = (s.current.kind == kind) := by
  obtain ⟨t, rest, e⟩ := List.exists_cons_of_ne_nil h
  simp [sees, current, e]

theorem sees_of_kind (h : s.rest ≠ []) (hk : s.current.kind = kind) : s.sees kind = true := by
  rw [sees_eq h, hk, beq_self_eq_true]

theorem not_sees_of_kind {kind' : TokenKind} (h : s.rest ≠ []) (hk : s.current.kind = kind')
    (hne : kind' ≠ kind) : s.sees kind = false := by
  rw [sees_eq h, hk]
  exact beq_eq_false_iff_ne.2 hne

theorem ahead_eq (h : s.advance.rest ≠ []) : s.ahead = s.advance.current.kind := by
  obtain ⟨t, rest, e⟩ := List.exists_cons_of_ne_nil (rest_of_advance h)
  rw [advance_rest, e] at h
  obtain ⟨t', rest', e'⟩ := List.exists_cons_of_ne_nil h
  obtain rfl : rest = t' :: rest' := e'
  simp [ahead, advance, current, e]

theorem length_advance (h : s.rest ≠ []) : s.advance.rest.length + 1 = s.rest.length := by
  have := List.length_pos_iff.2 h
  rw [advance_rest, List.length_tail]
  omega

theorem length_advance_le : s.advance.rest.length ≤ s.rest.length := by
  rw [advance_rest, List.length_tail]
  omega

/-- a bound that is enough for the tokens left allows for one step more than behind the next one -/
theorem exists_steps {steps : Nat} (h : s.rest ≠ []) (hsteps : s.rest.length ≤ steps) :
    ∃ m, steps = m + 1 ∧ s.advance.rest.length ≤ m := by
  have := length_advance h
  exact ⟨steps - 1, by omega, by omega⟩

theorem length_of_writtenType {written : Option DataType} (h : writtenType s = .done written s') :
    s'.rest.length ≤ s.rest.length := by
  obtain ⟨-, -, rfl⟩ | ⟨-, _, -, -, rfl⟩ := writtenType_done.1 h
  · exact Nat.le_refl _
  · exact Nat.le_trans length_advance_le length_advance_le

end Parser.State

theorem Nonterminal.expr_not_starts (l : Level) : ¬ (expr l).Starts .endOfFile := by
  cases l <;> simp [Starts, TokenKind.startsPrimary]

theorem Reads.length_le {limits : Limits} {n : Nonterminal} {s s' : State} {a : n.Value}
    (h : Reads limits n s a s') : s'.rest.length ≤ s.rest.length :=
  h.rest_suffix.length_le

theorem Derives.ne_nil {e c : Nat} {n : Nonterminal} {ks : List TokenKind} {a : n.Value}
    (h : Derives e c n ks a) (hn : ¬ n.Starts .endOfFile) : ks ≠ [] := by
  induction h with
  | unsigned _ ih | operand _ ih | unassigned _ ih | expression _ ih =>
    exact ih (Nonterminal.expr_not_starts _)
  | single _ ih => exact ih hn
  | branching _ ih => exact ih (by simp [Nonterminal.Starts])
  | noItems | someItems | noStatements | moreStatements | elseBlock | elseIf | noFunctions
  | moreFunctions => exact absurd trivial hn
  | number | var | call | group | neg | binary | assign | cons | declaration | ret
  | expressionStmt | block | conditional | conditionalElse | param | function => simp

/-- what is not empty leaves fewer tokens than it finds -/
theorem Reads.length_lt {e c : Nat} {n : Nonterminal} {s s' : State} {a : n.Value}
    (h : Reads ⟨some e, some c⟩ n s a s') (hr : s'.rest ≠ [])
    (hn : ¬ n.Starts .endOfFile) : s'.rest.length < s.rest.length := by
  obtain ⟨ks, ⟨tokens, hs, rfl⟩, hd⟩ := h.derived (.inr hr)
  have hks := List.length_pos_iff.2 (hd.ne_nil hn)
  rw [List.length_map] at hks
  rw [hs, List.length_append]
  omega

/-- no statement is followed by a second branch -/
theorem Reads.statements_start {limits : Limits} {s s' : State} {ss : List Stmt}
    (h : Reads limits .statements s ss s') (hc : s'.current.kind = .symbol .rightBrace) :
    s.current.kind ≠ .keyword .elseWord := by
  cases h with
  | noStatements => simp [hc]
  | moreStatements h =>
    intro hk
    simpa [Nonterminal.Starts, TokenKind.startsPrimary, hk] using h.starts

theorem Reads.not_sees {limits : Limits} {n : Nonterminal} {s s' : State} {a : n.Value}
    {kind : TokenKind} (h : Reads limits n s a s') (hr : s'.rest ≠ []) (hk : ¬ n.Starts kind) :
    s.sees kind = false := by
  rw [sees_eq (h.rest_ne_nil hr)]
  exact beq_eq_false_iff_ne.2 fun heq => hk (heq ▸ h.starts)

/-! ### parsers of single constructs -/

theorem Chain.op?_symbol (op : BinaryOp) : op.chain.op? (.symbol op.symbol) = some op := by
  cases op <;> rfl

namespace Parser

section
variable {steps : Nat} {inner : Parser Expr} {s s' : State}

theorem number_run {lexeme : String} {e : Expr} (hk : s.current.kind = .number lexeme)
    (he : Expr.ofLexeme lexeme s.current.span = .ok e) :
    primary steps inner s = .done e s.advance := by
  simp [primary, hk, number, he]

theorem var_run {name : String} {type : DataType} (hk : s.current.kind = .identifier name)
    (hahead : s.ahead ≠ .symbol .leftParen) (hv : s.scope.lookup name = some type) :
    primary steps inner s = .done (.var name type s.current.span) s.advance := by
  simp [primary, hk, hahead, var, hv]

theorem call_run {callee : Ident} {args : List Expr} {type : DataType}
    (hk : s.current = ⟨.identifier callee.name, callee.span⟩)
    (ho : s.advance.sees (.symbol .leftParen) = true)
    (hargs : items inner steps s.advance.advance = .done args s')
    (hc : s'.sees (.symbol .rightParen) = true)
    (ht : Signature.callType (s'.advance.functions.get? callee.name) callee args = .ok type) :
    primary steps inner s =
      .done (.call callee args type (callee.span.merge s'.current.span)) s'.advance := by
  have hahead : s.ahead = .symbol .leftParen := by
    rw [ahead_eq (rest_of_sees ho (by simp)), kind_of_sees ho (by simp)]
  simp only [primary, current_bind, hk, ahead_bind, hahead, if_true, call, bind_done,
    identifier_done, expect_done, signature?_bind, ofExcept_done, pure_done]
  exact ⟨callee, _, ⟨rfl, rfl⟩, _, _, ⟨ho, rfl, rfl⟩, args, s', hargs, _, _, ⟨hc, rfl, rfl⟩,
    type, _, ⟨ht, rfl⟩, rfl, rfl⟩

theorem group_run {e : Expr} (hk : s.current.kind = .symbol .leftParen)
    (h : inner s.advance = .done e s') (hc : s'.sees (.symbol .rightParen) = true) :
    primary steps inner s =
      .done (e.withSpan (s.current.span.merge s'.current.span)) s'.advance := by
  simp only [primary, current_bind, hk, group, advance_bind, bind_done, expect_done, pure_done]
  exact ⟨e, s', h, _, _, ⟨hc, rfl, rfl⟩, rfl, rfl⟩

theorem neg_run {e : Expr} (hm : s.sees (.symbol .minus) = true)
    (h : primary steps inner s.advance = .done e s') :
    unary steps inner s = .done (.neg e e.type (s.current.span.merge e.span)) s' := by
  simp only [unary, sees_bind, hm, if_true, advance_bind, bind_done, pure_done]
  exact ⟨e, s', h, rfl, rfl⟩

theorem unsigned_run {e : Expr} (hm : s.sees (.symbol .minus) = false)
    (h : primary steps inner s = .done e s') : unary steps inner s = .done e s' := by
  simpa only [unary, sees_bind, hm, Bool.false_eq_true, if_false] using h

theorem assign_run {name : String} {type : DataType} {span : Span} {value : Expr} {s₁ : State}
    (hg : s.sees (.symbol .leftParen) = false)
    (ht : comparison steps inner s = .done (.var name type span) s₁)
    (ha : s₁.sees (.symbol .assign) = true) (hv : inner s₁.advance = .done value s')
    (htype : value.type = type) :
    assignment steps inner s =
      .done (.assign ⟨name, span⟩ value type (span.merge value.span)) s' := by
  simp only [assignment, sees_bind, hg, bind_done]
  refine ⟨_, s₁, ht, ?_⟩
  simp only [ha, if_true, assignTo, advance_bind, bind_done]
  refine ⟨value, s', hv, ?_⟩
  simp [htype, pure_done]

theorem unassigned_run {e : Expr} (h : comparison steps inner s = .done e s')
    (ha : s'.sees (.symbol .assign) = false) : assignment steps inner s = .done e s' := by
  simp only [assignment, sees_bind, bind_done]
  refine ⟨e, s', h, ?_⟩
  simp [ha, pure_done]

/-- one round of the loop of a chain -/
theorem chain_step {l : Chain} {op : BinaryOp} {operand : Parser Expr} {left right e : Expr}
    (hop : op.chain = l) (hk : s.current.kind = .symbol op.symbol)
    (hr : operand s.advance = .done right s')
    (he : l.build op s.current.span left right = .ok e) (k : Nat) :
    chain l.op? l.build operand (k + 1) left s = chain l.op? l.build operand k e s' := by
  have hop' : l.op? s.current.kind = some op := by
    rw [hk, ← hop, Chain.op?_symbol]
  simp only [chain, current_bind, hop', advance_bind]
  rw [bind_apply, hr]
  simp only [he, ofExcept]
  rfl

end

section
variable {steps : Nat} {inner : Parser Expr} {stmt cond : Parser Stmt} {s s' : State}

theorem declaration_run {kind : VarKind} {written : Option DataType} {init : Expr}
    {type : DataType} {s₁ s₂ : State} {name : Ident} (hk : s.current.kind = .keyword kind.keyword)
    (hname : s.advance.current = ⟨.identifier name.name, name.span⟩)
    (hnew : s.scope.lookup name.name = none)
    (hnote : writtenType s.advance.advance = .done written s₁)
    (ha : s₁.sees (.symbol .assign) = true) (hi : inner s₁.advance = .done init s₂)
    (ht : declaredType name.name written init = .ok type)
    (hs : s₂.sees (.symbol .semicolon) = true) :
    declaration inner s =
      .done (.declaration kind name type init kind.isConst (s.current.span.merge s₂.current.span))
        (s₂.advance.withScope (s₂.scope.declare name.name type)) := by
  have hkind : (if s.current.kind = .keyword .constWord then VarKind.constant
      else VarKind.mutable) = kind := by
    cases kind <;> simp [hk, VarKind.keyword]
  simp only [declaration, advance_bind, hkind]
  refine bind_done.2 ⟨name, _, identifier_done.2 ⟨hname, rfl⟩, ?_⟩
  rw [lookup_bind, advance_scope, advance_scope, hnew]
  simp only [Option.isSome_none, Bool.false_eq_true, if_false, bind_done, expect_done,
    ofExcept_done, declare_bind, pure_done]
  exact ⟨written, s₁, hnote, _, _, ⟨ha, rfl, rfl⟩, init, s₂, hi, type, _, ⟨ht, rfl⟩, _, _,
    ⟨hs, rfl, rfl⟩, rfl, by rw [advance_scope]⟩

theorem ret_run {e : Expr} (h : inner s.advance = .done e s')
    (hs : s'.sees (.symbol .semicolon) = true) :
    ret inner s = .done (.ret e (s.current.span.merge s'.current.span)) s'.advance := by
  simp only [ret, advance_bind, bind_done, expect_done, pure_done]
  exact ⟨e, s', h, _, _, ⟨hs, rfl, rfl⟩, rfl, rfl⟩

theorem expressionStmt_run {e : Expr} (h : inner s = .done e s')
    (hs : s'.sees (.symbol .semicolon) = true) :
    expressionStmt inner s = .done (.expression e (e.span.merge s'.current.span)) s'.advance := by
  simp only [expressionStmt, bind_done, expect_done, pure_done]
  exact ⟨e, s', h, _, _, ⟨hs, rfl, rfl⟩, rfl, rfl⟩

theorem statement_of_declaration {kind : VarKind}
    (hk : s.current.kind = .keyword kind.keyword) :
    statement inner cond s = declaration inner s := by
  cases kind <;> simp [statement, hk, VarKind.keyword]

theorem statement_of_ret (hk : s.current.kind = .keyword .returnWord) :
    statement inner cond s = ret inner s := by
  simp [statement, hk]

theorem statement_of_if (hk : s.current.kind = .keyword .ifWord) :
    statement inner cond s = cond s := by
  simp [statement, hk]

theorem statement_of_expression (h : (Nonterminal.expr .expression).Starts s.current.kind) :
    statement inner cond s = expressionStmt inner s := by
  cases hk : s.current.kind with
  | keyword word => simp [hk, Nonterminal.Starts, TokenKind.startsPrimary] at h
  | _ => simp [statement, hk]

theorem statements_nil {k : Nat} (hc : s.sees (.symbol .rightBrace) = true) :
    statements stmt (k + 1) s = .done [] s := by
  simp only [statements, sees_bind, hc, if_true, pure_done, and_self]

theorem statements_step {a : Stmt} {ss : List Stmt} {s₁ : State} {k : Nat}
    (hc : s.sees (.symbol .rightBrace) = false) (he : s.sees .endOfFile = false)
    (h : stmt s = .done a s₁) (hs : statements stmt k s₁ = .done ss s') :
    statements stmt (k + 1) s = .done (a :: ss) s' := by
  simp only [statements, sees_bind, hc, he, Bool.false_eq_true, if_false, bind_done, pure_done]
  exact ⟨a, s₁, h, ss, s', hs, rfl, rfl⟩

theorem block_run {ss : List Stmt} (ho : s.sees (.symbol .leftBrace) = true)
    (h : statements stmt steps s.advance = .done ss s')
    (hc : s'.sees (.symbol .rightBrace) = true) :
    block steps stmt s = .done (ss, s.current.span.merge s'.current.span) s'.advance := by
  simp only [block, bind_done, expect_done, pure_done]
  exact ⟨_, _, ⟨ho, rfl, rfl⟩, ss, s', h, _, _, ⟨hc, rfl, rfl⟩, rfl, rfl⟩

/-- the header and the first branch of a conditional; what stands behind them is read by the rest
of its parser -/
theorem conditionalBody_run {condition : Expr} {ss : List Stmt} {stop : Span} {s₁ s₂ : State}
    {a : Stmt} (ho : s.advance.sees (.symbol .leftParen) = true)
    (h : inner s.advance.advance = .done condition s₁)
    (hc : s₁.sees (.symbol .rightParen) = true) (ht : condition.type = .int)
    (hb : block steps (statement inner cond) s₁.advance = .done (ss, stop) s₂)
    (helse : s₂.sees (.keyword .elseWord) = false ∧
        a = .conditional condition ss none (s.current.span.merge stop) ∧ s₂ = s' ∨
      s₂.sees (.keyword .elseWord) = true ∧ ∃ other stop',
        alternate steps inner cond s₂.advance = .done (other, stop') s' ∧
        a = .conditional condition ss (some other) ((s.current.span.merge stop).merge stop')) :
    conditionalBody steps inner cond s = .done a s' := by
  simp only [conditionalBody, conditionalTail, advance_bind, bind_done, expect_done]
  refine ⟨_, _, ⟨ho, rfl, rfl⟩, condition, s₁, h, _, _, ⟨hc, rfl, rfl⟩, ?_⟩
  simp only [ht, if_true, bind_done, eat_done, ite_done, pure_done]
  refine ⟨(ss, stop), s₂, hb, _, _, ⟨rfl, rfl⟩, ?_⟩
  obtain ⟨hn, rfl, rfl⟩ | ⟨he, other, stop', ha, rfl⟩ := helse
  · simp [hn]
  · simp only [he, if_true]
    exact .inl ⟨trivial, (other, stop'), s', ha, rfl, rfl⟩

theorem alternate_block {b : List Stmt × Span} (hk : s.current.kind = .symbol .leftBrace)
    (h : block steps (statement inner cond) s = .done b s') :
    alternate steps inner cond s = .done b s' := by
  have hif : s.sees (.keyword .ifWord) = false := by
    cases hs : s.sees (.keyword .ifWord) with
    | false => rfl
    | true => simp [kind_of_sees hs] at hk
  simpa only [alternate, sees_bind, hif, Bool.false_eq_true, if_false] using h

theorem alternate_if {a : Stmt} (hr : s.rest ≠ []) (hk : s.current.kind = .keyword .ifWord)
    (h : cond s = .done a s') : alternate steps inner cond s = .done ([a], a.span) s' := by
  simp only [alternate, sees_bind, sees_of_kind hr hk, if_true, bind_done, pure_done]
  exact ⟨a, s', h, rfl, rfl⟩

theorem param_run {b : Binding} (hname : s.current = ⟨.identifier b.name.name, b.name.span⟩)
    (hc : s.advance.sees (.symbol .colon) = true)
    (ht : s.advance.advance.current.kind = .keyword b.type.keyword) :
    param s = .done b s.advance.advance.advance := by
  simp only [param, bind_done, identifier_done, eat_done]
  refine ⟨b.name, _, ⟨hname, rfl⟩, true, _, ⟨hc, rfl⟩, ?_⟩
  simp only [if_true, bind_done, typeName_done, pure_done]
  exact ⟨b.type, _, ⟨ht, rfl⟩, rfl, rfl⟩

theorem function_run {limits : Limits} {name : Ident} {params : List Binding} {result : DataType}
    {scope : Scope} {body : List Stmt} {stop : Span} {s₁ : State} {f : FunctionDecl}
    (hname : s.advance.current = ⟨.identifier name.name, name.span⟩)
    (ho : s.advance.advance.sees (.symbol .leftParen) = true)
    (hp : items param steps s.advance.advance.advance = .done params s₁)
    (hc : s₁.sees (.symbol .rightParen) = true) (hm : s₁.advance.sees (.symbol .colon) = true)
    (ht : s₁.advance.advance.current.kind = .keyword result.keyword)
    (hscope : paramScope params = .ok scope)
    (hb : block steps (statement (expression limits.expressions steps) (conditional limits steps))
      (s₁.advance.advance.advance.withScope scope) = .done (body, stop) s')
    (hf : f = ⟨name, params, body.filterMap Stmt.binding?, result, body,
      s.current.span.merge stop⟩) :
    function limits steps s = .done f
      ((s'.withScope s₁.scope).withFunctions (s'.functions.register f.name.name f.signature)) := by
  subst hf
  simp only [function, functionOf, functionTail, advance_bind, bind_done, identifier_done,
    expect_done, returnType_done, ofExcept_done, inScope_done, register_bind, pure_done]
  exact ⟨_, _, ⟨name, _, ⟨hname, rfl⟩, _, _, ⟨ho, rfl, rfl⟩, params, s₁, hp, _, _, ⟨hc, rfl, rfl⟩,
    result, _, ⟨hm, ht, rfl⟩, scope, _, ⟨hscope, rfl⟩, (body, stop), _, ⟨s', hb, rfl⟩, rfl, rfl⟩,
    rfl, by simp⟩

end

section
variable {α : Type} {item : Parser α} {a : α} {as : List α} {s s' s₁ : State} {k : Nat}

theorem separated_single (h : item s = .done a s') (hc : s'.sees (.symbol .comma) = false) :
    separated item (k + 1) s = .done [a] s' := by
  simp only [separated, bind_done, eat_done]
  exact ⟨a, s', h, false, s', ⟨hc, rfl⟩, rfl⟩

theorem separated_cons (h : item s = .done a s₁) (hc : s₁.sees (.symbol .comma) = true)
    (hs : separated item k s₁.advance = .done as s') :
    separated item (k + 1) s = .done (a :: as) s' := by
  simp only [separated, bind_done, eat_done]
  refine ⟨a, s₁, h, true, _, ⟨hc, rfl⟩, ?_⟩
  simp only [if_true, bind_done, pure_done]
  exact ⟨as, s', hs, rfl, rfl⟩

theorem items_nil (hc : s.sees (.symbol .rightParen) = true) : items item k s = .done [] s := by
  simp only [items, sees_bind, hc, if_true, pure_done, and_self]

theorem items_run (hc : s.sees (.symbol .rightParen) = false)
    (h : separated item k s = .done as s') : items item k s = .done as s' := by
  simpa only [items, sees_bind, hc, Bool.false_eq_true, if_false] using h

theorem functions_nil {limits : Limits} {steps : Nat} (h : s.sees .endOfFile = true) :
    functions limits steps (k + 1) s = .done [] s := by
  simp only [functions, functionsOf, sees_bind, h, if_true, pure_done, and_self]

theorem functions_step {limits : Limits} {steps : Nat} {f : FunctionDecl} {fs : List FunctionDecl}
    (hk : s.current.kind = .keyword .functionWord) (hr : s.rest ≠ [])
    (h : function limits steps s = .done f s₁) (hs : functions limits steps k s₁ = .done fs s') :
    functions limits steps (k + 1) s = .done (f :: fs) s' := by
  have hend : s.sees .endOfFile = false := not_sees_of_kind hr hk (by simp)
  simp only [functions, functionsOf, sees_bind, hend, sees_of_kind hr hk, Bool.false_eq_true,
    if_false, if_true, bind_done, pure_done]
  exact ⟨f, s₁, h, fs, s', hs, rfl, rfl⟩

end

end Parser

end Wattle
