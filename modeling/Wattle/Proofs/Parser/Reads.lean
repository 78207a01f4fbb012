import Wattle.Proofs.Parser.Inversion

/-!
# Readings

`Reads limits n s a s'` says that a part of a program of the kind `n` can be read off the state
`s`: the part is `a`, and `s'` is the state behind it.  Each constructor is what one of the parsers
does when it ends with a value, so that every successful run is a reading (`functions_sound` and
the lemmas in front of it).  What is true of all accepted programs is then proved by induction on
readings, and the parsers are not opened again.
-/

namespace Wattle

open Wattle.Parser

/-! ### operators by levels -/

namespace Chain

def op? : Chain → TokenKind → Option BinaryOp
  | comparison => BinaryOp.ofComparison?
  | sum => BinaryOp.ofSum?
  | product => BinaryOp.ofProduct?

def build : Chain → BinaryOp → Span → Expr → Expr → Except Fault Expr
  | comparison => BinaryOp.compare
  | sum | product => BinaryOp.compute

theorem of_op? {l : Chain} {kind : TokenKind} {op : BinaryOp} (h : l.op? kind = some op) :
    op.chain = l ∧ kind = .symbol op.symbol := by
  cases l <;> simp only [op?, BinaryOp.ofComparison?, BinaryOp.ofSum?, BinaryOp.ofProduct?] at h <;>
    split at h <;> simp_all [BinaryOp.chain, BinaryOp.symbol] <;> subst h <;> simp

/-- both ways to build a node give one with the given operator and operands -/
theorem of_build {l : Chain} {op : BinaryOp} {sign : Span} {left right e : Expr}
    (h : l.build op sign left right = .ok e) :
    ∃ type, e = .binary op left right type (left.span.merge right.span) := by
  cases l with
  | comparison =>
    simp only [build, BinaryOp.compare] at h
    split at h
    · exact ⟨_, (Except.ok.inj h).symm⟩
    · simp at h
  | sum | product => exact ⟨_, (Except.ok.inj h).symm⟩

end Chain

/-! ### readings -/

open Nonterminal in
inductive Reads (limits : Limits) : (n : Nonterminal) → State → n.Value → State → Prop
  -- primary expressions
  | number {s lexeme} {e : Expr} (hk : s.current.kind = .number lexeme)
      (he : Expr.ofLexeme lexeme s.current.span = .ok e) :
      Reads limits (expr .primary) s e s.advance
  | var {s name type} (hk : s.current.kind = .identifier name)
      (hv : s.scope.lookup name = some type) :
      Reads limits (expr .primary) s (Expr.var name type s.current.span) s.advance
  | call {s s' callee args type} (hk : s.current = ⟨.identifier callee.name, callee.span⟩)
      (ho : s.advance.sees (.symbol .leftParen) = true)
      (hargs : Reads limits (items (expr .expression)) s.advance.advance args s')
      (hc : s'.sees (.symbol .rightParen) = true)
      (ht : Signature.callType (s'.advance.functions.get? callee.name) callee args = .ok type) :
      Reads limits (expr .primary) s
        (Expr.call callee args type (callee.span.merge s'.current.span)) s'.advance
  | group {s s'} {e : Expr} (hk : s.current.kind = .symbol .leftParen)
      (h : Reads limits (expr .expression) s.advance e s')
      (hc : s'.sees (.symbol .rightParen) = true) :
      Reads limits (expr .primary) s (e.withSpan (s.current.span.merge s'.current.span)) s'.advance
  -- operators
  | neg {s s'} {e : Expr} (hm : s.sees (.symbol .minus) = true)
      (h : Reads limits (expr .primary) s.advance e s') :
      Reads limits (expr .unary) s (Expr.neg e e.type (s.current.span.merge e.span)) s'
  | unsigned {s e s'} (h : Reads limits (expr .primary) s e s') :
      Reads limits (expr .unary) s e s'
  | operand {s e s'} {l : Chain} (h : Reads limits (expr l.operand) s e s') :
      Reads limits (expr (.chain l)) s e s'
  | binary {s left s₁ right s'} {l : Chain} {op : BinaryOp} {e : Expr} (hop : op.chain = l)
      (hl : Reads limits (expr (.chain l)) s left s₁)
      (hk : s₁.current.kind = .symbol op.symbol)
      (hr : Reads limits (expr l.operand) s₁.advance right s')
      (he : l.build op s₁.current.span left right = .ok e) :
      Reads limits (expr (.chain l)) s e s'
  -- assignments
  | unassigned {s e s'} (h : Reads limits (expr (.chain .comparison)) s e s') :
      Reads limits (expr .assignment) s e s'
  | assign {s name type span s₁ s'} {value : Expr}
      (hg : s.sees (.symbol .leftParen) = false)
      (ht : Reads limits (expr (.chain .comparison)) s (Expr.var name type span) s₁)
      (ha : s₁.sees (.symbol .assign) = true)
      (hv : Reads limits (expr .expression) s₁.advance value s') (htype : value.type = type) :
      Reads limits (expr .assignment) s
        (Expr.assign ⟨name, span⟩ value type (span.merge value.span)) s'
  | expression {s e s'} (hd : s.Admits .expression limits.expressions)
      (h : Reads limits (expr .assignment) (s.enter .expression) e s') :
      Reads limits (expr .expression) s e (s'.leave .expression)
  -- rows
  | single {n s a s'} (h : Reads limits n s a s') : Reads limits (row n) s [a] s'
  | cons {n s a s₁ as s'} (h : Reads limits n s a s₁) (hc : s₁.sees (.symbol .comma) = true)
      (hs : Reads limits (row n) s₁.advance as s') : Reads limits (row n) s (a :: as) s'
  | noItems {n s} : Reads limits (items n) s [] s
  | someItems {n s as s'} (h : Reads limits (row n) s as s') : Reads limits (items n) s as s'
  -- statements
  | declaration {s kind written init type s₁ s₂} {name : Ident}
      (hk : s.current.kind = .keyword kind.keyword)
      (hname : s.advance.current = ⟨.identifier name.name, name.span⟩)
      (hnew : s.scope.lookup name.name = none)
      (hnote : writtenType s.advance.advance = .done written s₁)
      (ha : s₁.sees (.symbol .assign) = true)
      (hi : Reads limits (expr .expression) s₁.advance init s₂)
      (ht : declaredType name.name written init = .ok type)
      (hs : s₂.sees (.symbol .semicolon) = true) :
      Reads limits statement s
        (Stmt.declaration kind name type init kind.isConst (s.current.span.merge s₂.current.span))
        (s₂.advance.withScope (s₂.scope.declare name.name type))
  | ret {s e s'} (hk : s.current.kind = .keyword .returnWord)
      (h : Reads limits (expr .expression) s.advance e s')
      (hs : s'.sees (.symbol .semicolon) = true) :
      Reads limits statement s (Stmt.ret e (s.current.span.merge s'.current.span)) s'.advance
  | branching {s a s'} (h : Reads limits conditional s a s') : Reads limits statement s a s'
  | expressionStmt {s s'} {e : Expr} (h : Reads limits (expr .expression) s e s')
      (hs : s'.sees (.symbol .semicolon) = true) :
      Reads limits statement s (Stmt.expression e (e.span.merge s'.current.span)) s'.advance
  | noStatements {s} : Reads limits statements s [] s
  | moreStatements {s a s₁ as s'} (h : Reads limits statement s a s₁)
      (hs : Reads limits statements s₁ as s') : Reads limits statements s (a :: as) s'
  | block {s ss s'} (ho : s.sees (.symbol .leftBrace) = true)
      (h : Reads limits statements s.advance ss s')
      (hc : s'.sees (.symbol .rightBrace) = true) :
      Reads limits block s (ss, s.current.span.merge s'.current.span) s'.advance
  -- conditionals
  | conditional {s condition s₁ ss stop s'} (hd : s.Admits .conditional limits.conditionals)
      (hk : s.current.kind = .keyword .ifWord)
      (ho : (s.enter .conditional).advance.sees (.symbol .leftParen) = true)
      (h : Reads limits (expr .expression) (s.enter .conditional).advance.advance condition s₁)
      (hc : s₁.sees (.symbol .rightParen) = true) (ht : Expr.type condition = .int)
      (hb : Reads limits block s₁.advance (ss, stop) s') :
      Reads limits conditional s
        (Stmt.conditional condition ss none (s.current.span.merge stop)) (s'.leave .conditional)
  | conditionalElse {s condition s₁ ss stop s₂ ss' stop' s'}
      (hd : s.Admits .conditional limits.conditionals)
      (hk : s.current.kind = .keyword .ifWord)
      (ho : (s.enter .conditional).advance.sees (.symbol .leftParen) = true)
      (h : Reads limits (expr .expression) (s.enter .conditional).advance.advance condition s₁)
      (hc : s₁.sees (.symbol .rightParen) = true) (ht : Expr.type condition = .int)
      (hb : Reads limits block s₁.advance (ss, stop) s₂)
      (he : s₂.sees (.keyword .elseWord) = true)
      (ha : Reads limits alternate s₂.advance (ss', stop') s') :
      Reads limits conditional s
        (Stmt.conditional condition ss (some ss') ((s.current.span.merge stop).merge stop'))
        (s'.leave .conditional)
  | elseBlock {s b s'} (h : Reads limits block s b s') : Reads limits alternate s b s'
  | elseIf {s s'} {a : Stmt} (h : Reads limits conditional s a s') :
      Reads limits alternate s ([a], a.span) s'
  -- functions
  | param {s} {b : Binding} (hname : s.current = ⟨.identifier b.name.name, b.name.span⟩)
      (hc : s.advance.sees (.symbol .colon) = true)
      (ht : s.advance.advance.current.kind = .keyword b.type.keyword) :
      Reads limits param s b s.advance.advance.advance
  | function {s s₁ params result scope body stop s'} {name : Ident}
      (hk : s.sees (.keyword .functionWord) = true)
      (hname : s.advance.current = ⟨.identifier name.name, name.span⟩)
      (ho : s.advance.advance.sees (.symbol .leftParen) = true)
      (hp : Reads limits (items param) s.advance.advance.advance params s₁)
      (hc : s₁.sees (.symbol .rightParen) = true)
      (hm : s₁.advance.sees (.symbol .colon) = true)
      (ht : s₁.advance.advance.current.kind = .keyword result.keyword)
      (hscope : paramScope params = .ok scope)
      (hb : Reads limits block (s₁.advance.advance.advance.withScope scope) (body, stop) s')
      {f : FunctionDecl}
      (hf : f = ⟨name, params, body.filterMap Stmt.binding?, result, body,
        s.current.span.merge stop⟩) :
      Reads limits function s f
        ((s'.withScope s₁.scope).withFunctions (s'.functions.register f.name.name f.signature))
  | noFunctions {s} : Reads limits functions s [] s
  | moreFunctions {s f s₁ fs s'} (h : Reads limits function s f s₁)
      (hs : Reads limits functions s₁ fs s') : Reads limits functions s (f :: fs) s'

/-! ### expressions are readings -/

/-- every successful run of `p` is a reading -/
def Sound {α : Type} (p : Parser α) (reads : State → α → State → Prop) : Prop :=
  ∀ ⦃s a s'⦄, p s = .done a s' → reads s a s'

namespace Parser

section
variable {limits : Limits} {n : Nonterminal} {item : Parser n.Value}

theorem separated_sound (h : Sound item (Reads limits n)) (k : Nat) :
    Sound (separated item k) (Reads limits (.row n)) := by
  induction k with
  | zero => exact fun s as s' hs => absurd hs outOfSteps_done
  | succ k ih =>
    intro s as s' hs
    simp only [separated, bind_done, eat_done, ite_done, pure_done] at hs
    obtain ⟨a, s₁, ha, comma, s₂, ⟨hc, rfl⟩, ⟨rfl, as', s₃, hr, rfl, rfl⟩ | ⟨hn, rfl, rfl⟩⟩ := hs
    · exact .cons (h ha) hc (ih hr)
    · simpa [hn] using Reads.single (h ha)

theorem items_sound (h : Sound item (Reads limits n)) (k : Nat) :
    Sound (items item k) (Reads limits (.items n)) := by
  intro s as s' hs
  simp only [items, sees_bind, ite_done, pure_done] at hs
  obtain ⟨-, rfl, rfl⟩ | ⟨-, hs⟩ := hs
  · exact .noItems
  · exact .someItems (separated_sound h k hs)

end

section
variable {limits : Limits} {steps : Nat} {inner : Parser Expr}

theorem number_sound {s s' : State} {lexeme : String} {e : Expr}
    (hk : s.current.kind = .number lexeme) (h : number lexeme s = .done e s') :
    Reads limits (.expr .primary) s e s' := by
  simp only [number, advance_bind, ofExcept_done] at h
  obtain ⟨he, rfl⟩ := h
  exact .number hk he

theorem var_sound {s s' : State} {name : String} {e : Expr}
    (hk : s.current.kind = .identifier name) (h : var name s = .done e s') :
    Reads limits (.expr .primary) s e s' := by
  simp only [var, advance_bind, lookup_bind] at h
  cases hv : s.scope.lookup name with
  | none => simp [hv] at h
  | some type =>
    obtain ⟨rfl, rfl⟩ : Expr.var name type s.current.span = e ∧ s.advance = s' := by
      simpa [hv] using h
    exact .var hk hv

theorem call_sound (hx : Sound inner (Reads limits (.expr .expression))) :
    Sound (call steps inner) (Reads limits (.expr .primary)) := by
  intro s e s' h
  simp only [call, bind_done, identifier_done, expect_done, signature?_bind, ofExcept_done,
    pure_done] at h
  obtain ⟨callee, _, ⟨hk, rfl⟩, _, _, ⟨ho, -, rfl⟩, args, s₁, hargs, _, _, ⟨hc, rfl, rfl⟩,
    type, _, ⟨ht, rfl⟩, rfl, rfl⟩ := h
  exact .call hk ho (items_sound hx steps hargs) hc ht

theorem group_sound (hx : Sound inner (Reads limits (.expr .expression))) {s s' : State} {e : Expr}
    (hk : s.current.kind = .symbol .leftParen) (h : group inner s = .done e s') :
    Reads limits (.expr .primary) s e s' := by
  simp only [group, advance_bind, bind_done, expect_done, pure_done] at h
  obtain ⟨e, s₁, hi, _, _, ⟨hc, rfl, rfl⟩, rfl, rfl⟩ := h
  exact .group hk (hx hi) hc

theorem primary_sound (hx : Sound inner (Reads limits (.expr .expression))) :
    Sound (primary steps inner) (Reads limits (.expr .primary)) := by
  intro s e s' h
  simp only [primary, current_bind] at h
  cases hk : s.current.kind with
  | number lexeme => exact number_sound hk (by simpa [hk] using h)
  | identifier name =>
    simp only [hk, ahead_bind, ite_done] at h
    obtain ⟨-, h⟩ | ⟨-, h⟩ := h
    · exact call_sound hx h
    · exact var_sound hk h
  | symbol sign =>
    cases sign with
    | leftParen => exact group_sound hx hk (by simpa [hk] using h)
    | _ => simp [hk] at h
  | _ => simp [hk] at h

theorem unary_sound (hx : Sound inner (Reads limits (.expr .expression))) :
    Sound (unary steps inner) (Reads limits (.expr .unary)) := by
  intro s e s' h
  simp only [unary, sees_bind, ite_done, advance_bind, bind_done, pure_done] at h
  obtain ⟨hm, operand, _, h, rfl, rfl⟩ | ⟨-, h⟩ := h
  · exact .neg hm (primary_sound hx h)
  · exact .unsigned (primary_sound hx h)

/-- the loop of a chain goes on with a reading of what stands in front of it -/
theorem chain_sound {l : Chain} {operand : Parser Expr}
    (ho : Sound operand (Reads limits (.expr l.operand))) (k : Nat) {s₀ s s' : State}
    {left e : Expr}
    (hl : Reads limits (.expr (.chain l)) s₀ left s)
    (h : chain l.op? l.build operand k left s = .done e s') :
    Reads limits (.expr (.chain l)) s₀ e s' := by
  induction k generalizing left s with
  | zero => exact absurd h outOfSteps_done
  | succ k ih =>
    simp only [chain, current_bind] at h
    cases hop : l.op? s.current.kind with
    | none =>
      obtain ⟨rfl, rfl⟩ : left = e ∧ s = s' := by simpa [hop] using h
      exact hl
    | some op =>
      simp only [hop, advance_bind, bind_done, ofExcept_done] at h
      obtain ⟨right, s₁, hr, node, _, ⟨hn, rfl⟩, h⟩ := h
      obtain ⟨hc, hk⟩ := Chain.of_op? hop
      exact ih (.binary hc hl hk (ho hr) hn) h

theorem product_sound (hx : Sound inner (Reads limits (.expr .expression))) :
    Sound (product steps inner) (Reads limits (.expr (.chain .product))) := by
  intro s e s' h
  obtain ⟨left, s₁, hl, h⟩ := bind_done.1 h
  exact chain_sound (l := .product) (unary_sound hx) steps (.operand (unary_sound hx hl)) h

theorem sum_sound (hx : Sound inner (Reads limits (.expr .expression))) :
    Sound (sum steps inner) (Reads limits (.expr (.chain .sum))) := by
  intro s e s' h
  obtain ⟨left, s₁, hl, h⟩ := bind_done.1 h
  exact chain_sound (l := .sum) (product_sound hx) steps (.operand (product_sound hx hl)) h

theorem comparison_sound (hx : Sound inner (Reads limits (.expr .expression))) :
    Sound (comparison steps inner) (Reads limits (.expr (.chain .comparison))) := by
  intro s e s' h
  obtain ⟨left, s₁, hl, h⟩ := bind_done.1 h
  exact chain_sound (l := .comparison) (sum_sound hx) steps (.operand (sum_sound hx hl)) h

theorem assignment_sound (hx : Sound inner (Reads limits (.expr .expression))) :
    Sound (assignment steps inner) (Reads limits (.expr .assignment)) := by
  intro s e s' h
  simp only [assignment, sees_bind, bind_done, ite_done, pure_done] at h
  obtain ⟨left, s₁, hl, ⟨ha, h⟩ | ⟨-, rfl, rfl⟩⟩ := h
  · have ht := comparison_sound hx hl
    cases left with
    | var name type span =>
      cases hg : s.sees (.symbol .leftParen) with
      | true => simp [assignTo, hg] at h
      | false =>
        simp only [hg, assignTo, advance_bind, bind_done, ite_done, pure_done, fail_done,
          and_false, or_false] at h
        obtain ⟨value, s₂, hv, htype, rfl, rfl⟩ := h
        exact .assign hg ht ha (hx hv) htype
    | _ => simp [assignTo] at h
  · exact .unassigned (comparison_sound hx hl)

theorem expression_sound (limits : Limits) (k : Nat) :
    Sound (expression limits.expressions k) (Reads limits (.expr .expression)) := by
  induction k with
  | zero => exact fun s e s' h => by simp [expression] at h
  | succ k ih =>
    intro s e s' h
    obtain ⟨hd, t, ht, rfl⟩ := nested_done.1 h
    exact .expression hd (assignment_sound ih ht)

end

/-! ### statements are readings -/

section
variable {limits : Limits} {steps : Nat} {inner : Parser Expr} {cond : Parser Stmt}

theorem declaration_sound (hx : Sound inner (Reads limits (.expr .expression))) {s s' : State}
    {a : Stmt} (hk : s.current.kind = .keyword .letWord ∨ s.current.kind = .keyword .constWord)
    (h : declaration inner s = .done a s') : Reads limits .statement s a s' := by
  simp only [declaration, advance_bind, bind_done, identifier_done, lookup_bind, ite_done,
    fail_done, and_false, false_or, expect_done, ofExcept_done, declare_bind, pure_done] at h
  obtain ⟨name, _, ⟨hname, rfl⟩, hnew, written, s₁, hnote, _, _, ⟨ha, -, rfl⟩, init, s₂, hi,
    type, _, ⟨ht, rfl⟩, _, _, ⟨hs, rfl, rfl⟩, rfl, rfl⟩ := h
  have hnew' : s.scope.lookup name.name = none := by simpa using hnew
  rw [State.advance_scope]
  refine .declaration ?_ hname hnew' hnote ha (hx hi) ht hs
  obtain hk | hk := hk <;> simp [hk, VarKind.keyword]

theorem ret_sound (hx : Sound inner (Reads limits (.expr .expression))) {s s' : State} {a : Stmt}
    (hk : s.current.kind = .keyword .returnWord) (h : ret inner s = .done a s') :
    Reads limits .statement s a s' := by
  simp only [ret, advance_bind, bind_done, expect_done, pure_done] at h
  obtain ⟨e, s₁, he, _, _, ⟨hs, rfl, rfl⟩, rfl, rfl⟩ := h
  exact .ret hk (hx he) hs

theorem expressionStmt_sound (hx : Sound inner (Reads limits (.expr .expression))) :
    Sound (expressionStmt inner) (Reads limits .statement) := by
  intro s a s' h
  simp only [expressionStmt, bind_done, expect_done, pure_done] at h
  obtain ⟨e, s₁, he, _, _, ⟨hs, rfl, rfl⟩, rfl, rfl⟩ := h
  exact .expressionStmt (hx he) hs

/-- a conditional is only read where its first word stands -/
def SoundAtIf (limits : Limits) (p : Parser Stmt) : Prop :=
  ∀ ⦃s a s'⦄, s.current.kind = .keyword .ifWord → p s = .done a s' →
    Reads limits .conditional s a s'

theorem statement_sound (hx : Sound inner (Reads limits (.expr .expression)))
    (hc : SoundAtIf limits cond) : Sound (statement inner cond) (Reads limits .statement) := by
  intro s a s' h
  simp only [statement, current_bind] at h
  cases hk : s.current.kind with
  | keyword word =>
    cases word with
    | letWord => exact declaration_sound hx (.inl hk) (by simpa [hk] using h)
    | constWord => exact declaration_sound hx (.inr hk) (by simpa [hk] using h)
    | returnWord => exact ret_sound hx hk (by simpa [hk] using h)
    | ifWord => exact .branching (hc hk (by simpa [hk] using h))
    | _ => exact expressionStmt_sound hx (by simpa [hk] using h)
  | _ => exact expressionStmt_sound hx (by simpa [hk] using h)

theorem statements_sound {stmt : Parser Stmt} (h : Sound stmt (Reads limits .statement))
    (k : Nat) : Sound (statements stmt k) (Reads limits .statements) := by
  induction k with
  | zero => exact fun s ss s' hs => by simp [statements] at hs
  | succ k ih =>
    intro s ss s' hs
    simp only [statements, sees_bind, ite_done, bind_done, pure_done] at hs
    obtain ⟨-, rfl, rfl⟩ | ⟨-, ⟨-, rfl, rfl⟩ | ⟨-, a, s₁, ha, as, _, has, rfl, rfl⟩⟩ := hs
    · exact .noStatements
    · exact .noStatements
    · exact .moreStatements (h ha) (ih has)

theorem block_sound {stmt : Parser Stmt} (h : Sound stmt (Reads limits .statement)) :
    Sound (block steps stmt) (Reads limits .block) := by
  intro s b s' hb
  simp only [block, bind_done, expect_done, pure_done] at hb
  obtain ⟨_, _, ⟨ho, rfl, rfl⟩, body, s₁, hs, _, _, ⟨hc, rfl, rfl⟩, rfl, rfl⟩ := hb
  exact .block ho (statements_sound h steps hs) hc

theorem alternate_sound (hx : Sound inner (Reads limits (.expr .expression)))
    (hc : SoundAtIf limits cond) :
    Sound (alternate steps inner cond) (Reads limits .alternate) := by
  intro s b s' h
  simp only [alternate, sees_bind, ite_done, bind_done, pure_done] at h
  obtain ⟨hk, a, s₁, ha, rfl, rfl⟩ | ⟨-, h⟩ := h
  · exact .elseIf (hc (State.kind_of_sees hk (by simp)) ha)
  · exact .elseBlock (block_sound (statement_sound hx hc) h)

theorem conditionalBody_sound (hx : Sound inner (Reads limits (.expr .expression)))
    (hcond : SoundAtIf limits cond) {s s' : State} {a : Stmt}
    (hd : s.Admits .conditional limits.conditionals) (hk : s.current.kind = .keyword .ifWord)
    (h : conditionalBody steps inner cond (s.enter .conditional) = .done a s') :
    Reads limits .conditional s a (s'.leave .conditional) := by
  have hb := @block_sound _ steps _ (statement_sound hx hcond)
  simp only [conditionalBody, conditionalTail, advance_bind, bind_done, expect_done, ite_done,
    fail_done, and_false, or_false, eat_done, pure_done, State.enter_current] at h
  obtain ⟨_, _, ⟨ho, -, rfl⟩, condition, s₁, he, _, _, ⟨hc, -, rfl⟩, htype, ⟨ss, stop⟩, s₂, ht,
    found, _, ⟨helse, rfl⟩, h⟩ := h
  obtain ⟨rfl, ⟨ss', stop'⟩, s₃, ha, rfl, rfl⟩ | ⟨hn, rfl, rfl⟩ := h
  · exact .conditionalElse hd hk ho (hx he) hc htype (hb ht) helse (alternate_sound hx hcond ha)
  · obtain rfl : found = false := by simpa using hn
    exact .conditional hd hk ho (hx he) hc htype (hb ht)

theorem conditional_sound (limits : Limits) (k : Nat) :
    SoundAtIf limits (conditional limits k) := by
  induction k with
  | zero => exact fun s a s' _ h => by simp [conditional] at h
  | succ k ih =>
    intro s a s' hk h
    obtain ⟨hd, t, ht, rfl⟩ := nested_done.1 h
    exact conditionalBody_sound (expression_sound limits k) ih hd hk ht

end

/-! ### functions are readings -/

section
variable {limits : Limits}

theorem param_sound : Sound param (Reads limits .param) := by
  intro s b s' h
  simp only [param, bind_done, identifier_done, eat_done, ite_done, typeName_done, pure_done,
    current_bind, failHere_done, and_false, or_false] at h
  obtain ⟨name, _, ⟨hname, rfl⟩, _, _, ⟨hc, rfl⟩, rfl, type, _, ⟨ht, rfl⟩, rfl, rfl⟩ := h
  exact .param hname hc ht

theorem returnType_done {name : String} {type : DataType} {s s' : State} :
    returnType name s = .done type s' ↔
      s.sees (.symbol .colon) = true ∧ s.advance.current.kind = .keyword type.keyword ∧
        s.advance.advance = s' := by
  simp only [returnType, bind_done, eat_done, ite_done, typeName_done, current_bind,
    failHere_done, and_false, or_false]
  cases s.sees (.symbol .colon) <;> simp

theorem function_sound {steps : Nat} {s s' : State} {f : FunctionDecl}
    (hk : s.sees (.keyword .functionWord) = true)
    (h : function limits steps s = .done f s') : Reads limits .function s f s' := by
  simp only [function, functionOf, functionTail, advance_bind, bind_done, identifier_done,
    expect_done, returnType_done, ofExcept_done, inScope_done, register_bind, pure_done] at h
  obtain ⟨_, _, ⟨name, _, ⟨hname, rfl⟩, _, _, ⟨ho, -, rfl⟩, params, s₁, hp, _, _, ⟨hc, -, rfl⟩,
    result, _, ⟨hm, ht, rfl⟩, scope, _, ⟨hscope, rfl⟩, ⟨body, stop⟩, _, ⟨s₂, hb, rfl⟩, rfl, rfl⟩,
    rfl, rfl⟩ := h
  have hbody := block_sound (statement_sound (expression_sound limits steps)
    (conditional_sound limits steps)) hb
  rw [State.withScope_functions, State.advance_scope, State.advance_scope, State.advance_scope]
  exact .function hk hname ho (items_sound param_sound steps hp) hc hm ht hscope hbody rfl

/-- every successful run over the functions of a program is a reading -/
theorem functions_sound (steps k : Nat) :
    Sound (functions limits steps k) (Reads limits .functions) := by
  induction k with
  | zero => exact fun s fs s' h => by simp [functions, functionsOf] at h
  | succ k ih =>
    intro s fs s' h
    simp only [functions, functionsOf, sees_bind, ite_done, bind_done, pure_done, current_bind,
      failHere_done, and_false, or_false] at h
    obtain ⟨-, rfl, rfl⟩ | ⟨-, hk, f, s₁, hf, rest, _, hr, rfl, rfl⟩ := h
    · exact .noFunctions
    · exact .moreFunctions (function_sound hk hf) (ih hr)

end

end Parser

end Wattle
