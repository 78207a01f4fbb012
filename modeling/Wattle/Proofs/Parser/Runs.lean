import Wattle.Proofs.Parser.Constructs

/-!
# Every reading is a run

The converse of soundness: where a reading ends in front of a token that does not go on with it,
the parser does the same and ends with the same value and state, if its bound on the steps is not
less than the number of tokens left.  `IsRun` says so of one reading, with a lemma for each
construct that is made of others, and `Reads.isRun` puts them together.

A chain of operators is read in a loop that has its left operand at hand, while a reading has the
last operator outermost.  For chains the induction therefore shows more: the loop comes to the end
of the reading, and could go on from there (`Chain.Loops`).
-/

namespace Wattle

open Wattle.Parser State

/-! ### next tokens -/

/-- whether an expression of a level ends in front of such a token -/
def Level.stops : Level → TokenKind → Bool
  | primary, k | unary, k => k != .symbol .leftParen
  | chain .product, k => k != .symbol .leftParen && (Chain.product.op? k).isNone
  | chain .sum, k => k != .symbol .leftParen && (Chain.product.op? k).isNone &&
      (Chain.sum.op? k).isNone
  | chain .comparison, k => k != .symbol .leftParen && (Chain.product.op? k).isNone &&
      (Chain.sum.op? k).isNone && (Chain.comparison.op? k).isNone
  | assignment, k | expression, k => k != .symbol .leftParen && (Chain.product.op? k).isNone &&
      (Chain.sum.op? k).isNone && (Chain.comparison.op? k).isNone && k != .symbol .assign

theorem Level.stops_chain (l : Chain) (k : TokenKind) :
    (chain l).stops k = (l.operand.stops k && (l.op? k).isNone) := by
  cases l <;> rfl

theorem Chain.operand_ne_expression (l : Chain) : l.operand ≠ .expression := by
  cases l <;> simp [operand]

/-- an operand ends in front of an operator of its chain -/
theorem Chain.operand_stops (op : BinaryOp) :
    op.chain.operand.stops (.symbol op.symbol) = true := by
  cases op <;> rfl

namespace Nonterminal

/-- the parts that stand in rows with commas -/
inductive Item : Nonterminal → Prop
  | expression : Item (expr .expression)
  | param : Item param

/-- what has to follow for a part to end; a chain may still go on with operators of its own -/
def Stops : Nonterminal → TokenKind → Prop
  | expr (.chain l), k => l.operand.stops k = true
  | expr l, k => l.stops k = true
  | row n, k | items n, k => n.Item ∧ k = .symbol .rightParen
  | statement, k | conditional, k | alternate, k => k ≠ .keyword .elseWord
  | statements, k => k = .symbol .rightBrace
  | functions, k => k = .endOfFile
  | param, _ | block, _ | function, _ => True

theorem stops_of_level {l : Level} {k : TokenKind} (h : l.stops k = true) :
    (expr l).Stops k := by
  cases l with
  | chain l =>
    rw [Level.stops_chain, Bool.and_eq_true] at h
    exact h.1
  | _ => exact h

theorem Item.stops {n : Nonterminal} (h : n.Item) : n.Stops (.symbol .comma) := by
  cases h <;> first | rfl | trivial

theorem Item.stops_close {n : Nonterminal} (h : n.Item) : n.Stops (.symbol .rightParen) := by
  cases h <;> first | rfl | trivial

theorem Item.not_starts {n : Nonterminal} (h : n.Item) : ¬ n.Starts (.symbol .rightParen) := by
  cases h <;> simp [Starts, TokenKind.startsPrimary]

end Nonterminal

/-! ### runs -/

/-- the parser of a level, with that of the inner expressions -/
def Level.parser (steps : Nat) (inner : Parser Expr) : Level → Parser Expr
  | primary => Parser.primary steps inner
  | unary => Parser.unary steps inner
  | chain .product => Parser.product steps inner
  | chain .sum => Parser.sum steps inner
  | chain .comparison => Parser.comparison steps inner
  | assignment => Parser.assignment steps inner
  | expression => inner

theorem Level.parser_chain (steps : Nat) (inner : Parser Expr) (l : Chain) :
    (chain l).parser steps inner = l.operand.parser steps inner >>=
      Parser.chain l.op? l.build (l.operand.parser steps inner) steps := by
  cases l <;> rfl

/-- the loop of a chain comes to `e` after some rounds, and goes on from there -/
def Chain.Loops (l : Chain) (operand : Parser Expr) (s : State) (e : Expr) (s' : State) : Prop :=
  ∃ first s₁ rounds, operand s = .done first s₁ ∧ rounds + s'.rest.length < s.rest.length ∧
    ∀ k, Parser.chain l.op? l.build operand (k + rounds) first s₁ =
      Parser.chain l.op? l.build operand k e s'

namespace Nonterminal

section
variable (limits : Limits) (steps : Nat)

def expressionParser : Parser Expr := Parser.expression limits.expressions steps

def conditionalParser : Parser Stmt := Parser.conditional limits steps

def statementParser : Parser Stmt :=
  Parser.statement (expressionParser limits steps) (conditionalParser limits steps)

/-- the parser of an item of a row -/
def itemParser : (n : Nonterminal) → Parser n.Value
  | expr _ => expressionParser limits (steps + 1)
  | param => Parser.param
  | _ => outOfSteps

/-- the run of the parser of a part comes from a state to a value and a state -/
def Runs : (n : Nonterminal) → State → n.Value → State → Prop
  | expr (.chain l), s, e, s' =>
    l.Loops (l.operand.parser steps (expressionParser limits steps)) s e s'
  | expr .expression, s, e, s' => expressionParser limits (steps + 1) s = .done e s'
  | expr l, s, e, s' =>
    l.parser steps (expressionParser limits steps) s = .done e s'
  | param, s, b, s' => Parser.param s = .done b s'
  | row n, s, as, s' => ∀ k, s.rest.length ≤ k →
    separated (n.itemParser limits steps) k s = .done as s'
  | items n, s, as, s' => Parser.items (n.itemParser limits steps) (steps + 1) s = .done as s'
  | statement, s, a, s' => statementParser limits (steps + 1) s = .done a s'
  | statements, s, ss, s' => ∀ k, s.rest.length ≤ k →
    Parser.statements (statementParser limits (steps + 1)) k s = .done ss s'
  | block, s, b, s' =>
    Parser.block (steps + 1) (statementParser limits (steps + 1)) s = .done b s'
  | conditional, s, a, s' => conditionalParser limits (steps + 1) s = .done a s'
  | alternate, s, b, s' => Parser.alternate (steps + 1)
      (expressionParser limits (steps + 1)) (conditionalParser limits (steps + 1)) s =
        .done b s'
  | function, s, f, s' => Parser.function limits (steps + 1) s = .done f s'
  | functions, s, fs, s' => ∀ k, s.rest.length ≤ k →
    Parser.functions limits (steps + 1) k s = .done fs s'

end

end Nonterminal

/-- the run of a level of expressions, from what is shown of it by induction -/
theorem Nonterminal.Runs.level {limits : Limits} {steps : Nat} {l : Level} {s s' : State} {e : Expr}
    (h : (expr l).Runs limits steps s e s') (hl : l.stops s'.current.kind = true)
    (hsteps : s.rest.length ≤ steps) (hne : l ≠ .expression) :
    l.parser steps (expressionParser limits steps) s = .done e s' := by
  cases l with
  | chain l =>
    obtain ⟨first, s₁, rounds, hfirst, hrounds, hloop⟩ := h
    rw [Level.stops_chain, Bool.and_eq_true, Option.isNone_iff_eq_none] at hl
    -- one step is left to see that the chain ends
    obtain ⟨k, hk⟩ : ∃ k, steps = k + 1 + rounds := ⟨steps - rounds - 1, by omega⟩
    rw [Level.parser_chain, bind_done]
    refine ⟨first, s₁, hfirst, ?_⟩
    have hend := hloop (k + 1)
    rw [← hk] at hend
    rw [hend]
    simp [chain, hl.2, pure_done]
  | expression => exact absurd rfl hne
  | _ => exact h

/-! ### readings that are runs -/

/-- an expression ends in front of a symbol that does not go on with it -/
theorem Nonterminal.stops_of_sees {s : State} {sign : Symbol} (h : s.sees (.symbol sign) = true)
    (hsign : Level.expression.stops (.symbol sign) = true) :
    (expr .expression).Stops s.current.kind := by
  rw [kind_of_sees h (by simp)]
  exact hsign

/-- what has been read is run, if what follows ends it and the bound on the steps is not less than
the number of tokens left -/
def IsRun (limits : Limits) (n : Nonterminal) (s : State) (a : n.Value) (s' : State) : Prop :=
  s'.rest ≠ [] → n.Stops s'.current.kind → ∀ ⦃steps⦄, s.rest.length ≤ steps →
    n.Runs limits steps s a s'

namespace IsRun

section
variable {limits : Limits} {n : Nonterminal} {s s' s₁ : State} {e left right value : Expr}
  {type : DataType} {l : Chain}

theorem item {a : n.Value} {steps : Nat} (h : IsRun limits n s a s') (hr : s'.rest ≠ [])
    (hitem : n.Item) (hstop : n.Stops s'.current.kind) (hsteps : s.rest.length ≤ steps) :
    n.itemParser limits steps s = .done a s' := by
  have hrun := h hr hstop hsteps
  cases hitem <;> exact hrun

/-! ### expressions -/

theorem call {callee : Ident} {args : List Expr}
    (hk : s.current = ⟨.identifier callee.name, callee.span⟩)
    (ho : s.advance.sees (.symbol .leftParen) = true)
    (h : IsRun limits (.items (.expr .expression)) s.advance.advance args s')
    (hc : s'.sees (.symbol .rightParen) = true)
    (ht : Signature.callType (s'.advance.functions.get? callee.name) callee args = .ok type) :
    IsRun limits (.expr .primary) s
      (Expr.call callee args type (callee.span.merge s'.current.span)) s'.advance := by
  intro _ _ steps hsteps
  have hs := rest_of_sees ho (by simp)
  obtain ⟨m, rfl, hm⟩ := exists_steps (rest_of_advance hs) hsteps
  have hargs := h (rest_of_sees hc (by simp)) ⟨.expression, kind_of_sees hc (by simp)⟩
    (Nat.le_trans length_advance_le hm)
  exact call_run hk ho hargs hc ht

theorem group (hk : s.current.kind = .symbol .leftParen)
    (hread : Reads limits (.expr .expression) s.advance e s')
    (h : IsRun limits (.expr .expression) s.advance e s')
    (hc : s'.sees (.symbol .rightParen) = true) :
    IsRun limits (.expr .primary) s (e.withSpan (s.current.span.merge s'.current.span))
      s'.advance := by
  intro _ _ steps hsteps
  have hs' := rest_of_sees hc (by simp)
  obtain ⟨m, rfl, hm⟩ := exists_steps (rest_of_advance (hread.rest_ne_nil hs')) hsteps
  exact group_run hk (h hs' (Nonterminal.stops_of_sees hc rfl) hm) hc

theorem assign {name : String} {span : Span} (hg : s.sees (.symbol .leftParen) = false)
    (hread : Reads limits (.expr (.chain .comparison)) s (Expr.var name type span) s₁)
    (ht : IsRun limits (.expr (.chain .comparison)) s (Expr.var name type span) s₁)
    (ha : s₁.sees (.symbol .assign) = true)
    (hv : IsRun limits (.expr .expression) s₁.advance value s') (htype : value.type = type) :
    IsRun limits (.expr .assignment) s
      (Expr.assign ⟨name, span⟩ value type (span.merge value.span)) s' := by
  intro hr hstop steps hsteps
  have hr₁ := rest_of_sees ha (by simp)
  have hcomparison : Level.stops (.chain .comparison) s₁.current.kind = true := by
    rw [kind_of_sees ha (by simp)]
    rfl
  have htarget := (ht hr₁ (Nonterminal.stops_of_level hcomparison) hsteps).level hcomparison
    hsteps (by simp)
  obtain ⟨m, rfl, hm⟩ := exists_steps hr₁ (Nat.le_trans hread.length_le hsteps)
  exact assign_run hg htarget ha (hv hr hstop hm) htype

theorem unassigned (h : IsRun limits (.expr (.chain .comparison)) s e s') :
    IsRun limits (.expr .assignment) s e s' := by
  intro hr hstop steps hsteps
  obtain ⟨hcomparison, hassign⟩ := Bool.and_eq_true_iff.1 hstop
  have hrun := (h hr (Nonterminal.stops_of_level hcomparison) hsteps).level hcomparison hsteps
    (by simp)
  refine unassigned_run hrun ?_
  rw [sees_eq hr]
  simpa using hassign

/-! ### rows -/

theorem single {a : n.Value} (hread : Reads limits n s a s') (h : IsRun limits n s a s') :
    IsRun limits (.row n) s [a] s' := by
  intro hr hstop steps hsteps k hk
  obtain ⟨j, rfl, -⟩ := exists_steps (hread.rest_ne_nil hr) hk
  obtain ⟨hitem, hclose⟩ := hstop
  refine separated_single (h.item hr hitem (hclose ▸ hitem.stops_close) hsteps) ?_
  exact not_sees_of_kind hr hclose (by simp)

theorem cons {a : n.Value} {as : List n.Value} (hread : Reads limits n s a s₁)
    (h : IsRun limits n s a s₁) (hc : s₁.sees (.symbol .comma) = true)
    (hs : IsRun limits (.row n) s₁.advance as s') : IsRun limits (.row n) s (a :: as) s' := by
  intro hr hstop steps hsteps k hk
  have hr₁ := rest_of_sees hc (by simp)
  obtain ⟨j, rfl, hj⟩ := exists_steps hr₁ (Nat.le_trans hread.length_le hk)
  have hcomma : s₁.current.kind = .symbol .comma := kind_of_sees hc (by simp)
  have hfirst := h.item hr₁ hstop.1 (hcomma ▸ hstop.1.stops) hsteps
  have hsteps' := Nat.le_trans length_advance_le (Nat.le_trans hread.length_le hsteps)
  exact separated_cons hfirst hc (hs hr hstop hsteps' j hj)

/-! ### conditionals -/

/-- the condition is run with a bound that is enough for the branches, too -/
theorem head {steps : Nat} (ho : (s.enter .conditional).advance.sees (.symbol .leftParen) = true)
    (hread : Reads limits (.expr .expression) (s.enter .conditional).advance.advance e s₁)
    (h : IsRun limits (.expr .expression) (s.enter .conditional).advance.advance e s₁)
    (hc : s₁.sees (.symbol .rightParen) = true) (hsteps : s.rest.length ≤ steps) :
    ∃ m, steps = m + 1 ∧ s₁.advance.rest.length ≤ m ∧
      Nonterminal.expressionParser limits (m + 1) (s.enter .conditional).advance.advance =
        .done e s₁ := by
  have hsteps' : (s.enter .conditional).rest.length ≤ steps := by simpa using hsteps
  obtain ⟨m, rfl, hm⟩ := exists_steps (rest_of_advance (rest_of_sees ho (by simp))) hsteps'
  have hm' := Nat.le_trans length_advance_le hm
  refine ⟨m, rfl, Nat.le_trans length_advance_le (Nat.le_trans hread.length_le hm'), ?_⟩
  exact h (rest_of_sees hc (by simp)) (Nonterminal.stops_of_sees hc rfl) hm'

theorem conditional {ss : List Stmt} {stop : Span} (hd : s.Admits .conditional limits.conditionals)
    (ho : (s.enter .conditional).advance.sees (.symbol .leftParen) = true)
    (hread : Reads limits (.expr .expression) (s.enter .conditional).advance.advance e s₁)
    (h : IsRun limits (.expr .expression) (s.enter .conditional).advance.advance e s₁)
    (hc : s₁.sees (.symbol .rightParen) = true) (ht : e.type = .int)
    (hb : IsRun limits .block s₁.advance (ss, stop) s') :
    IsRun limits .conditional s (Stmt.conditional e ss none (s.current.span.merge stop))
      (s'.leave .conditional) := by
  intro hr hstop steps hsteps
  rw [leave_rest] at hr
  rw [leave_current] at hstop
  obtain ⟨m, rfl, hm, hcondition⟩ := h.head ho hread hc hsteps
  have helse : s'.sees (.keyword .elseWord) = false := by
    rw [sees_eq hr]
    exact beq_eq_false_iff_ne.2 hstop
  refine nested_done.2 ⟨hd, s', ?_, rfl⟩
  exact conditionalBody_run ho hcondition hc ht (hb hr trivial hm) (.inl ⟨helse, by simp, rfl⟩)

theorem conditionalElse {ss ss' : List Stmt} {stop stop' : Span} {s₂ : State}
    (hd : s.Admits .conditional limits.conditionals)
    (ho : (s.enter .conditional).advance.sees (.symbol .leftParen) = true)
    (hread : Reads limits (.expr .expression) (s.enter .conditional).advance.advance e s₁)
    (h : IsRun limits (.expr .expression) (s.enter .conditional).advance.advance e s₁)
    (hc : s₁.sees (.symbol .rightParen) = true) (ht : e.type = .int)
    (hblock : Reads limits .block s₁.advance (ss, stop) s₂)
    (hb : IsRun limits .block s₁.advance (ss, stop) s₂)
    (he : s₂.sees (.keyword .elseWord) = true)
    (ha : IsRun limits .alternate s₂.advance (ss', stop') s') :
    IsRun limits .conditional s
      (Stmt.conditional e ss (some ss') ((s.current.span.merge stop).merge stop'))
      (s'.leave .conditional) := by
  intro hr hstop steps hsteps
  rw [leave_rest] at hr
  rw [leave_current] at hstop
  obtain ⟨m, rfl, hm, hcondition⟩ := h.head ho hread hc hsteps
  have hm' := Nat.le_trans length_advance_le (Nat.le_trans hblock.length_le hm)
  refine nested_done.2 ⟨hd, s', ?_, rfl⟩
  exact conditionalBody_run ho hcondition hc ht (hb (rest_of_sees he (by simp)) trivial hm)
    (.inr ⟨he, _, _, ha hr hstop hm', by simp⟩)

end

/-! ### what leaves fewer tokens -/

section
variable {E C : Nat} {s s' s₁ : State}

theorem operand {l : Chain} {e : Expr} (hread : Reads ⟨some E, some C⟩ (.expr l.operand) s e s')
    (h : IsRun ⟨some E, some C⟩ (.expr l.operand) s e s') :
    IsRun ⟨some E, some C⟩ (.expr (.chain l)) s e s' := by
  intro hr hstop steps hsteps
  have hrun := (h hr (Nonterminal.stops_of_level hstop) hsteps).level hstop hsteps
    l.operand_ne_expression
  have hlength := hread.length_lt hr (Nonterminal.expr_not_starts _)
  exact ⟨e, s', 0, hrun, by simpa using hlength, fun k => rfl⟩

/-- one more round of the loop -/
theorem binary {op : BinaryOp} {left right e : Expr}
    (hread : Reads ⟨some E, some C⟩ (.expr (.chain op.chain)) s left s₁)
    (h : IsRun ⟨some E, some C⟩ (.expr (.chain op.chain)) s left s₁)
    (hk : s₁.current.kind = .symbol op.symbol)
    (hread' : Reads ⟨some E, some C⟩ (.expr op.chain.operand) s₁.advance right s')
    (h' : IsRun ⟨some E, some C⟩ (.expr op.chain.operand) s₁.advance right s')
    (he : op.chain.build op s₁.current.span left right = .ok e) :
    IsRun ⟨some E, some C⟩ (.expr (.chain op.chain)) s e s' := by
  intro hr hstop steps hsteps
  have hr₁ := rest_of_advance (hread'.rest_ne_nil hr)
  have hfirst : (Nonterminal.expr (.chain op.chain)).Stops s₁.current.kind := by
    rw [hk]
    exact Chain.operand_stops op
  have hsteps' := Nat.le_trans length_advance_le (Nat.le_trans hread.length_le hsteps)
  obtain ⟨first, s₂, rounds, hfirst, hrounds, hloop⟩ := h hr₁ hfirst hsteps
  have hright := (h' hr (Nonterminal.stops_of_level hstop) hsteps').level hstop hsteps'
    op.chain.operand_ne_expression
  have hlength := hread'.length_lt hr (Nonterminal.expr_not_starts _)
  have hadvance := length_advance hr₁
  refine ⟨first, s₂, rounds + 1, hfirst, by omega, fun k => ?_⟩
  rw [Nat.add_comm rounds 1, ← Nat.add_assoc, hloop, chain_step rfl hk hright he]

theorem moreStatements {a : Stmt} {as : List Stmt}
    (hread : Reads ⟨some E, some C⟩ .statement s a s₁)
    (h : IsRun ⟨some E, some C⟩ .statement s a s₁)
    (hreads : Reads ⟨some E, some C⟩ .statements s₁ as s')
    (hs : IsRun ⟨some E, some C⟩ .statements s₁ as s') :
    IsRun ⟨some E, some C⟩ .statements s (a :: as) s' := by
  intro hr hstop steps hsteps k hk
  have hr₁ := hreads.rest_ne_nil hr
  have hlength := hread.length_lt hr₁ (by simp [Nonterminal.Starts, TokenKind.startsPrimary])
  obtain ⟨j, rfl⟩ : ∃ j, k = j + 1 := ⟨k - 1, by omega⟩
  have hfirst := h hr₁ (hreads.statements_start hstop) hsteps
  have hsteps' : s₁.rest.length ≤ steps := by omega
  have hrest := hs hr hstop hsteps' j (by omega)
  have hbrace : ¬ Nonterminal.statement.Starts (.symbol .rightBrace) := by
    simp [Nonterminal.Starts, TokenKind.startsPrimary]
  have hend : ¬ Nonterminal.statement.Starts .endOfFile := by
    simp [Nonterminal.Starts, TokenKind.startsPrimary]
  exact statements_step (hread.not_sees hr₁ hbrace) (hread.not_sees hr₁ hend) hfirst hrest

theorem function {name : Ident} {params : List Binding} {result : DataType} {scope : Scope}
    {body : List Stmt} {stop : Span} {f : FunctionDecl}
    (hname : s.advance.current = ⟨.identifier name.name, name.span⟩)
    (ho : s.advance.advance.sees (.symbol .leftParen) = true)
    (hread : Reads ⟨some E, some C⟩ (.items .param) s.advance.advance.advance params s₁)
    (hp : IsRun ⟨some E, some C⟩ (.items .param) s.advance.advance.advance params s₁)
    (hc : s₁.sees (.symbol .rightParen) = true) (hm : s₁.advance.sees (.symbol .colon) = true)
    (ht : s₁.advance.advance.current.kind = .keyword result.keyword)
    (hscope : paramScope params = .ok scope)
    (hb : IsRun ⟨some E, some C⟩ .block (s₁.advance.advance.advance.withScope scope) (body, stop)
      s')
    (hf : f = ⟨name, params, body.filterMap Stmt.binding?, result, body,
      s.current.span.merge stop⟩) :
    IsRun ⟨some E, some C⟩ .function s f
      ((s'.withScope s₁.scope).withFunctions (s'.functions.register f.name.name f.signature)) := by
  intro hr _ steps hsteps
  have hp' : s.advance.advance.advance.rest.length ≤ steps := by
    simp only [advance_rest, List.length_tail]
    omega
  have hb' : (s₁.advance.advance.advance.withScope scope).rest.length ≤ steps := by
    have hlength := hread.length_le
    simp only [withScope_rest, advance_rest, List.length_tail] at hlength ⊢
    omega
  have hparams := hp (rest_of_sees hc (by simp)) ⟨.param, kind_of_sees hc (by simp)⟩ hp'
  exact function_run hname ho hparams hc hm ht hscope (hb hr trivial hb') hf

theorem moreFunctions {f : FunctionDecl} {fs : List FunctionDecl}
    (hread : Reads ⟨some E, some C⟩ .function s f s₁) (h : IsRun ⟨some E, some C⟩ .function s f s₁)
    (hreads : Reads ⟨some E, some C⟩ .functions s₁ fs s')
    (hs : IsRun ⟨some E, some C⟩ .functions s₁ fs s') :
    IsRun ⟨some E, some C⟩ .functions s (f :: fs) s' := by
  intro hr hstop steps hsteps k hk
  have hr₁ := hreads.rest_ne_nil hr
  have hlength := hread.length_lt hr₁ (by simp [Nonterminal.Starts])
  obtain ⟨j, rfl⟩ : ∃ j, k = j + 1 := ⟨k - 1, by omega⟩
  exact functions_step hread.starts (hread.rest_ne_nil hr₁) (h hr₁ trivial hsteps)
    (hs hr hstop (by omega) j (by omega))

end

end IsRun

/-! ### the induction -/

section
variable {E C : Nat} {s s' : State}

/-- **Every reading is a run**, if what follows ends it -/
theorem Reads.isRun {n : Nonterminal} {a : n.Value} (h : Reads ⟨some E, some C⟩ n s a s') :
    IsRun ⟨some E, some C⟩ n s a s' := by
  induction h with
  | number hk he => exact fun _ _ _ _ => number_run hk he
  | var hk hv =>
    intro hr hstop _ _
    refine var_run hk ?_ hv
    rw [ahead_eq hr]
    simpa [Nonterminal.Stops, Level.stops] using hstop
  | call hk ho _ hc ht ih => exact ih.call hk ho hc ht
  | group hk h hc ih => exact ih.group hk h hc
  | neg hm _ ih =>
    exact fun hr hstop _ hsteps =>
      neg_run hm (ih hr hstop (Nat.le_trans length_advance_le hsteps))
  | unsigned h ih =>
    intro hr hstop _ hsteps
    have hminus : ¬ (Nonterminal.expr .primary).Starts (.symbol .minus) := by
      simp [Nonterminal.Starts, TokenKind.startsPrimary]
    exact unsigned_run (h.not_sees hr hminus) (ih hr hstop hsteps)
  | operand h ih => exact .operand h ih
  | binary hop h hk h' he ih ih' =>
    subst hop
    exact .binary h ih hk h' ih' he
  | unassigned _ ih => exact ih.unassigned
  | assign hg h ha _ htype iht ihv => exact .assign hg h iht ha ihv htype
  | @expression s e s' hd _ ih =>
    intro hr hstop _ hsteps
    rw [leave_rest] at hr
    rw [leave_current] at hstop
    exact nested_done.2 ⟨hd, s', ih hr hstop (by simpa using hsteps), rfl⟩
  | single h ih => exact .single h ih
  | cons h hc _ ih ihs => exact .cons h ih hc ihs
  | noItems => exact fun hr hstop _ _ => items_nil (sees_of_kind hr hstop.2)
  | someItems h ih =>
    intro hr hstop _ hsteps
    exact items_run (h.not_sees hr hstop.1.not_starts)
      (ih hr hstop hsteps _ (Nat.le_succ_of_le hsteps))
  | @declaration s _ _ _ _ s₁ s₂ _ hk hname hnew hnote ha _ ht hs ih =>
    intro _ _ steps hsteps
    have hlength := length_of_writtenType hnote
    have hsteps' : s₁.advance.rest.length ≤ steps := by
      simp only [advance_rest, List.length_tail] at hlength ⊢
      omega
    have hinit := ih (rest_of_sees hs (by simp)) (Nonterminal.stops_of_sees hs rfl) hsteps'
    exact (statement_of_declaration hk).trans
      (declaration_run hk hname hnew hnote ha hinit ht hs)
  | ret hk _ hs ih =>
    intro _ _ _ hsteps
    have hrun := ih (rest_of_sees hs (by simp)) (Nonterminal.stops_of_sees hs rfl)
      (Nat.le_trans length_advance_le hsteps)
    exact (statement_of_ret hk).trans (ret_run hrun hs)
  | branching h ih =>
    exact fun hr hstop _ hsteps => (statement_of_if h.starts).trans (ih hr hstop hsteps)
  | expressionStmt h hs ih =>
    intro _ _ _ hsteps
    have hrun := ih (rest_of_sees hs (by simp)) (Nonterminal.stops_of_sees hs rfl) hsteps
    exact (statement_of_expression h.starts).trans (expressionStmt_run hrun hs)
  | noStatements =>
    intro hr hstop _ _ k hk
    obtain ⟨j, rfl, -⟩ := exists_steps hr hk
    exact statements_nil (sees_of_kind hr hstop)
  | moreStatements h hs ih ihs => exact .moreStatements h ih hs ihs
  | block ho _ hc ih =>
    intro _ _ _ hsteps
    have hsteps' := Nat.le_trans length_advance_le hsteps
    exact block_run ho (ih (rest_of_sees hc (by simp)) (kind_of_sees hc (by simp)) hsteps' _
      (Nat.le_succ_of_le hsteps')) hc
  | conditional hd _ ho h hc ht _ ih ihb => exact .conditional hd ho h ih hc ht ihb
  | conditionalElse hd _ ho h hc ht hb he _ ih ihb iha =>
    exact .conditionalElse hd ho h ih hc ht hb ihb he iha
  | elseBlock h ih =>
    exact fun hr _ _ hsteps => alternate_block h.starts (ih hr trivial hsteps)
  | elseIf h ih =>
    exact fun hr hstop _ hsteps =>
      alternate_if (h.rest_ne_nil hr) h.starts (ih hr hstop hsteps)
  | param hname hc ht => exact fun _ _ _ _ => param_run hname hc ht
  | function _ hname ho hp hc hm ht hscope _ hf ihp ihb =>
    exact .function hname ho hp ihp hc hm ht hscope ihb hf
  | noFunctions =>
    intro hr hstop _ _ k hk
    obtain ⟨j, rfl, -⟩ := exists_steps hr hk
    exact functions_nil (sees_of_kind hr hstop)
  | moreFunctions h hs ih ihs => exact .moreFunctions h ih hs ihs

/-- a reading up to the end of the file is accepted, with the span over all tokens -/
theorem Program.ofTokens_eq_of_reads {tokens : List Token} {fs : List FunctionDecl}
    (h : Reads ⟨some E, some C⟩ .functions (.initial tokens) fs s) (hr : s.rest ≠ [])
    (hend : s.current.kind = .endOfFile) :
    Program.ofTokens ⟨some E, some C⟩ tokens =
      .ok ⟨fs, (State.initial tokens).current.span.merge s.current.span⟩ := by
  let limits : Limits := ⟨some E, some C⟩
  obtain ⟨steps, hsteps, hlength⟩ : ∃ steps, stepBound limits tokens.length = steps + 1 ∧
      tokens.length ≤ steps := by
    simp only [stepBound]
    exact ⟨_, rfl, by omega⟩
  have hrun := h.isRun hr hend hlength (steps + 1) (Nat.le_succ_of_le hlength)
  have hprogram : Program.run limits (stepBound limits tokens.length) tokens =
      .done ⟨fs, (State.initial tokens).current.span.merge s.current.span⟩ s := by
    rw [hsteps]
    simp only [Program.run, program, programOf, current_bind, bind_done, pure_done]
    exact ⟨fs, s, hrun, rfl, rfl⟩
  unfold Program.ofTokens
  rw [hprogram]

theorem Program.ofTokens_of_reads {tokens : List Token} {fs : List FunctionDecl}
    (h : Reads ⟨some E, some C⟩ .functions (.initial tokens) fs s) (hr : s.rest ≠ [])
    (hend : s.current.kind = .endOfFile) :
    ∃ span, Program.ofTokens ⟨some E, some C⟩ tokens = .ok ⟨fs, span⟩ :=
  ⟨_, ofTokens_eq_of_reads h hr hend⟩

end

end Wattle
