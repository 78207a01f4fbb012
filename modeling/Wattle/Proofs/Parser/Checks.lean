import Wattle.Proofs.Parser.Typing

/-!
# The checks of the parser and the type rules

What the checks accept is well typed, and the converse is shown here: a number, an operator, a call
or a row of parameters that is well typed passes the check of it.  Statements that are well typed
between two contexts are taken apart with the contexts between them (`StmtsTypedIn`).
-/

namespace Wattle

open Wattle.Parser

/-! ### well-typed parts pass -/

theorem Literal.ofLexeme {lexeme : String} {value : Double} {type : DataType}
    (h : Literal lexeme value type) (span : Span) :
    Expr.ofLexeme lexeme span = .ok (.number value type span) := by
  obtain ⟨rfl, h⟩ := h
  by_cases hp : '.' ∈ lexeme.toList
  · rw [literalType, if_pos hp] at h ⊢
    simp [Expr.ofLexeme, hp, h]
  · rw [literalType, if_neg hp] at h ⊢
    obtain ⟨n, hn, rfl⟩ := h
    simp [Expr.ofLexeme, hp, hn]

theorem Expr.Typed.of_withSpan {Δ : Signatures} {Γ : Env} {e : Expr} {span : Span}
    (h : (e.withSpan span).Typed Δ Γ) : e.Typed Δ Γ := by
  have hself : (e.withSpan span).withSpan e.span = e := by cases e <;> rfl
  exact hself ▸ h.withSpan e.span

theorem Expr.Typed.operands {Δ : Signatures} {Γ : Env} {op : BinaryOp} {left right : Expr}
    {type : DataType} {span : Span} (h : (Expr.binary op left right type span).Typed Δ Γ) :
    left.Typed Δ Γ ∧ right.Typed Δ Γ := by
  cases h with
  | arithmetic _ hl hr | comparison _ hl hr => exact ⟨hl, hr⟩

theorem DataType.join_eq (s t : DataType) :
    s.join t = if s = .double ∨ t = .double then .double else .int := by
  cases s <;> cases t <;> rfl

theorem Chain.build_of_typed {Δ : Signatures} {Γ : Env} {op : BinaryOp}
    {left right left' right' : Expr} {type : DataType} {span : Span}
    (h : (Expr.binary op left right type span).Typed Δ Γ) (hl : left'.type = left.type)
    (hr : right'.type = right.type) (sign : Span) :
    op.chain.build op sign left' right' =
      .ok (.binary op left' right' type (left'.span.merge right'.span)) := by
  cases h with
  | arithmetic hop _ _ =>
    rw [← DataType.join_eq, ← hl, ← hr]
    cases op <;> first | rfl | cases hop
  | comparison hop _ _ ht =>
    have heq : left'.type = right'.type := by rw [hl, ht, hr]
    have hchain : op.chain = .comparison := by cases op <;> first | rfl | cases hop
    simp [hchain, build, BinaryOp.compare, heq]

theorem Signature.mismatch?_eq_none {callee : String} {args : List Expr} {i : Nat} :
    mismatch? callee i (args.map Expr.type) args = none := by
  induction args generalizing i with
  | nil => rfl
  | cons e args ih => simp [mismatch?, ih]

/-- a call whose arguments and type are those of the signature, if there is one, is accepted -/
theorem Signature.callType_of {found : Option Signature} {callee : Ident} {args : List Expr}
    {type : DataType}
    (hknown : ∀ signature, found = some signature →
      args.map Expr.type = signature.params ∧ type = signature.returnType)
    (hunknown : found = none → type = .double) : callType found callee args = .ok type := by
  cases found with
  | none => rw [hunknown rfl]; rfl
  | some signature =>
    obtain ⟨hparams, rfl⟩ := hknown signature rfl
    simp [callType, fault?, ← hparams, mismatch?_eq_none]

theorem Scope.declareAll_of_nodup {bs : List Binding} {s : Scope}
    (hnodup : (bs.map (·.name.name)).Nodup) (hfresh : ∀ b ∈ bs, s.lookup b.name.name = none) :
    ∃ s', s.declareAll bs = .ok s' := by
  induction bs generalizing s with
  | nil => exact ⟨s, rfl⟩
  | cons b bs ih =>
    rw [List.map_cons, List.nodup_cons] at hnodup
    have hnew := hfresh b List.mem_cons_self
    have hb : s.declare? b.name.name b.type = some ⟨(b.name.name, b.type) :: s.bindings⟩ :=
      declare?_eq_some.2 ⟨hnew, rfl⟩
    simp only [declareAll, hb]
    refine ih hnodup.2 fun b' hb' => ?_
    have hne : b'.name.name ≠ b.name.name := fun heq =>
      hnodup.1 (List.mem_map.2 ⟨b', hb', heq⟩)
    rw [lookup_cons, if_neg hne]
    exact hfresh b' (List.mem_cons_of_mem _ hb')

/-! ### contexts behind statements -/

namespace StmtsTypedIn

variable {c c' : Context} {e : Expr} {span : Span} {ss : List Stmt}

theorem nil (h : StmtsTypedIn c [] c') : c = c' := by
  obtain ⟨Γ, Δ⟩ := c
  obtain ⟨Γ', Δ'⟩ := c'
  obtain ⟨h, rfl⟩ := h
  cases h
  rfl

theorem uncons {a : Stmt} (h : StmtsTypedIn c (a :: ss) c') :
    ∃ c₁, StmtsTypedIn c [a] c₁ ∧ StmtsTypedIn c₁ ss c' := by
  obtain ⟨h, hΔ⟩ := h
  cases h with
  | @declaration _ Γ' kind name type _ _ _ _ hnew hi ht hs =>
    exact ⟨⟨_, c.signatures⟩, ⟨.declaration hnew hi ht .nil, rfl⟩, hs, hΔ⟩
  | ret h hs => exact ⟨c, ⟨.ret h .nil, rfl⟩, hs, hΔ⟩
  | expression h hs => exact ⟨c, ⟨.expression h .nil, rfl⟩, hs, hΔ⟩
  | conditional hc ht h₁ h₂ hs =>
    exact ⟨⟨_, c.signatures⟩, ⟨.conditional hc ht h₁ h₂ .nil, rfl⟩, hs, hΔ⟩

theorem declaration {kind : VarKind} {name : Ident} {type : DataType} {isConst : Bool}
    (h : StmtsTypedIn c [.declaration kind name type e isConst span] c') :
    c.env name.name = none ∧ e.Typed c.signatures c.env ∧ e.type = type ∧
      c' = ⟨c.env.bind name.name type, c.signatures⟩ := by
  obtain ⟨Γ, Δ⟩ := c
  obtain ⟨h, hΔ⟩ := h
  cases h with
  | declaration hnew hi ht hs =>
    have hnil : StmtsTypedIn ⟨Γ.bind name.name type, Δ⟩ [] c' := ⟨hs, hΔ⟩
    exact ⟨hnew, hi, ht, hnil.nil.symm⟩

theorem ret (h : StmtsTypedIn c [.ret e span] c') : e.Typed c.signatures c.env ∧ c = c' := by
  obtain ⟨h, hΔ⟩ := h
  cases h with
  | ret h hs => exact ⟨h, nil ⟨hs, hΔ⟩⟩

theorem expression (h : StmtsTypedIn c [.expression e span] c') :
    e.Typed c.signatures c.env ∧ c = c' := by
  obtain ⟨h, hΔ⟩ := h
  cases h with
  | expression h hs => exact ⟨h, nil ⟨hs, hΔ⟩⟩

theorem conditional {alternate : Option (List Stmt)}
    (h : StmtsTypedIn c [.conditional e ss alternate span] c') :
    e.Typed c.signatures c.env ∧ e.type = .int ∧
      ∃ c₁, StmtsTypedIn c ss c₁ ∧ StmtsTypedIn c₁ (alternate.getD []) c' := by
  obtain ⟨h, hΔ⟩ := h
  cases h with
  | @conditional _ Γ₁ _ _ _ _ _ _ _ hc ht h₁ h₂ hs =>
    cases hs
    exact ⟨hc, ht, ⟨Γ₁, c.signatures⟩, ⟨h₁, rfl⟩, h₂, hΔ⟩

end StmtsTypedIn

theorem Threads.of_expr {l : Level} {c : Context} {es : List Expr}
    (h : ∀ e ∈ es, e.Typed c.signatures c.env) : Threads (Nonterminal.expr l).Typed c es c := by
  induction es with
  | nil => rfl
  | cons e es ih =>
    exact ⟨c, ⟨h e List.mem_cons_self, rfl⟩, ih fun e' he => h e' (List.mem_cons_of_mem _ he)⟩

theorem Threads.of_param (c : Context) (bs : List Binding) :
    Threads Nonterminal.param.Typed c bs c := by
  induction bs with
  | nil => rfl
  | cons b bs ih => exact ⟨c, rfl, ih⟩

end Wattle
