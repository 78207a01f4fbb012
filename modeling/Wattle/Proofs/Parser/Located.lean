import Wattle.Proofs.Parser.Yield
import Wattle.Proofs.Ranges

/-!
# Spans of readings

The parsers put the spans of nodes together from those of single tokens and of smaller nodes.  In a
row of tokens that stand one behind the other this gives each node the span of the row it has been
read from (`Reads.located`), and so the spans of accepted programs are exact
(`SourceFile.located_of_parse`).
-/

namespace Wattle

open Wattle.Parser State

namespace Parser.State

variable {s : State} {kind : TokenKind}

theorem rest_eq_of_kind (h : s.current.kind = kind) (hr : s.rest ≠ []) :
    s.rest = ⟨kind, s.current.span⟩ :: s.advance.rest := by
  obtain ⟨t, rest, e⟩ := List.exists_cons_of_ne_nil hr
  have ht : s.current = t := by simp [current, e]
  rw [advance_rest, e, ← h, ht, List.tail_cons]

theorem rest_eq_of_sees (h : s.sees kind = true) (hk : kind ≠ .endOfFile) :
    s.rest = ⟨kind, s.current.span⟩ :: s.advance.rest :=
  rest_eq_of_kind (kind_of_sees h hk) (rest_of_sees h hk)

end Parser.State

/-- a variable stands for its name, unless the row starts with a parenthesis -/
theorem Located.bare {ts : List Token} {e : Expr} {name : String} {type : DataType} {span : Span}
    (h : Located (.expr (.chain .comparison)) ts e) (he : e = .var name type span) :
    ts = [⟨.identifier name, span⟩] ∨ ∃ t us, ts = t :: us ∧ t.kind = .symbol .leftParen := by
  -- down the levels: an operator would show in the tree
  cases h with
  | binary => cases he
  | operand h =>
    cases h with
    | binary => cases he
    | operand h =>
      cases h with
      | binary => cases he
      | operand h =>
        cases h with
        | neg => cases he
        | unsigned h =>
          cases h with
          | var => cases he; exact .inl rfl
          | group h => exact .inr ⟨_, _, rfl, rfl⟩
          | number | call => cases he

namespace Reads

section
variable {limits : Limits} {n : Nonterminal} {s s' s₁ : State} {a : n.Value}

/-- what is read between two states is located on the tokens between them -/
def LocatedBetween (n : Nonterminal) (s : State) (a : n.Value) (s' : State) : Prop :=
  ∃ ts, s.rest = ts ++ s'.rest ∧ Located n ts a

theorem ascending_advance (h : Ascending s.rest) : Ascending s.advance.rest := by
  rw [advance_rest]
  exact h.sublist (List.tail_sublist _)

theorem ascending (h : Reads limits n s a s') (hs : Ascending s.rest) : Ascending s'.rest :=
  hs.sublist h.rest_suffix.sublist

theorem typeNote {written : Option DataType} {name : String} {init : Expr} {type : DataType}
    (h : writtenType s = .done written s₁) (hr : s₁.rest ≠ [])
    (ht : declaredType name written init = .ok type) :
    ∃ note, s.rest = note ++ s₁.rest ∧ TypeNote note type := by
  obtain ⟨-, rfl, rfl⟩ | ⟨hc, type', rfl, hk, rfl⟩ := writtenType_done.1 h
  · exact ⟨[], rfl, .inl rfl⟩
  · obtain rfl := eq_of_declaredType ht
    have hword := rest_eq_of_kind hk (rest_of_advance hr)
    refine ⟨[⟨_, s.current.span⟩, ⟨_, s.advance.current.span⟩], ?_, .inr ⟨_, _, rfl⟩⟩
    rw [rest_eq_of_sees hc (by simp), hword]
    rfl

/-- the first word of a conditional, its condition, and what stands behind it -/
theorem header {condition : Expr} (hk : s.current.kind = .keyword .ifWord)
    (ho : (s.enter .conditional).advance.sees (.symbol .leftParen) = true)
    (h : LocatedBetween (.expr .expression) (s.enter .conditional).advance.advance condition s₁)
    (hc : s₁.sees (.symbol .rightParen) = true) :
    ∃ ts o, Located (.expr .expression) ts condition ∧
      s.rest = ⟨.keyword .ifWord, s.current.span⟩ :: ⟨.symbol .leftParen, o⟩ ::
        (ts ++ ⟨.symbol .rightParen, s₁.current.span⟩ :: s₁.advance.rest) := by
  obtain ⟨ts, hts, hl⟩ := h
  have hr := rest_of_advance (rest_of_sees ho (by simp))
  have hword : (s.enter .conditional).rest =
      ⟨.keyword .ifWord, s.current.span⟩ :: (s.enter .conditional).advance.rest := by
    simpa using rest_eq_of_kind (by simpa using hk) hr
  refine ⟨ts, (s.enter .conditional).advance.current.span, hl, ?_⟩
  rw [← enter_rest s .conditional, hword, rest_eq_of_sees ho (by simp), hts,
    rest_eq_of_sees hc (by simp)]

/-- **A reading gives each node the span of its tokens**, if some tokens are left or if it ends
with a closing one. -/
theorem located (h : Reads limits n s a s') (hs : Ascending s.rest)
    (hr : closes n = true ∨ s'.rest ≠ []) : LocatedBetween n s a s' := by
  induction h with
  | number hk he =>
    obtain ⟨value, type, rfl, hl⟩ := Literal.of_ofLexeme he
    have hs' := rest_of_advance (by simpa [closes] using hr)
    exact ⟨[_], rest_eq_of_kind hk hs', .number hl⟩
  | var hk _ =>
    have hs' := rest_of_advance (by simpa [closes] using hr)
    exact ⟨[_], rest_eq_of_kind hk hs', .var⟩
  | @call s s' callee args type hk ho _ hc _ ih =>
    obtain ⟨ts, hts, hl⟩ := ih (ascending_advance (ascending_advance hs))
      (.inr (rest_of_sees hc (by simp)))
    have hrow : s.rest = ⟨.identifier callee.name, callee.span⟩ ::
        ⟨.symbol .leftParen, s.advance.current.span⟩ ::
          (ts ++ [⟨.symbol .rightParen, s'.current.span⟩]) ++ s'.advance.rest := by
      rw [rest_eq_of_kind rfl (rest_of_advance (rest_of_sees ho (by simp))), hk,
        rest_eq_of_sees ho (by simp), hts, rest_eq_of_sees hc (by simp)]
      simp
    rw [hrow] at hs
    exact ⟨_, hrow, .call hl (.merge (_ :: ts) hs.left (.single _) (.single _) rfl)⟩
  | @group s s' e hk h hc ih =>
    have hs' := rest_of_sees hc (by simp)
    obtain ⟨ts, hts, hl⟩ := ih (ascending_advance hs) (.inr hs')
    have hrow : s.rest = ⟨.symbol .leftParen, s.current.span⟩ ::
        (ts ++ [⟨.symbol .rightParen, s'.current.span⟩]) ++ s'.advance.rest := by
      rw [rest_eq_of_kind hk (rest_of_advance (h.rest_ne_nil hs')), hts,
        rest_eq_of_sees hc (by simp)]
      simp
    rw [hrow] at hs
    exact ⟨_, hrow, .group hl (.merge ts hs.left (.single _) (.single _) rfl)⟩
  | @neg s s' e hm h ih =>
    obtain ⟨ts, hts, hl⟩ := ih (ascending_advance hs) hr
    have hrow : s.rest = ⟨.symbol .minus, s.current.span⟩ :: ts ++ s'.rest := by
      rw [rest_eq_of_sees hm (by simp), hts]
      rfl
    rw [hrow] at hs
    exact ⟨_, hrow, .neg hl (.merge [] hs.left (.single _) hl.covers rfl)⟩
  | unsigned _ ih =>
    obtain ⟨ts, hts, hl⟩ := ih hs hr
    exact ⟨ts, hts, .unsigned hl⟩
  | operand _ ih =>
    obtain ⟨ts, hts, hl⟩ := ih hs hr
    exact ⟨ts, hts, .operand hl⟩
  | @binary s left s₁ right s' l op e hop hread hk h hb ih ih' =>
    have hs₁ := rest_of_advance (h.rest_ne_nil (by simpa [closes] using hr))
    obtain ⟨ts, hts, hl⟩ := ih hs (.inr hs₁)
    obtain ⟨us, hus, hl'⟩ := ih' (ascending_advance (hread.ascending hs)) hr
    obtain ⟨type, rfl⟩ := Chain.of_build hb
    have hrow : s.rest = ts ++ ⟨.symbol op.symbol, s₁.current.span⟩ :: us ++ s'.rest := by
      rw [hts, rest_eq_of_kind hk hs₁, hus]
      simp
    rw [hrow] at hs
    exact ⟨_, hrow, .binary hop hl hl' (.merge [_] hs.left hl.covers hl'.covers rfl)⟩
  | unassigned _ ih =>
    obtain ⟨ts, hts, hl⟩ := ih hs hr
    exact ⟨ts, hts, .unassigned hl⟩
  | @assign s name type span s₁ s' value hg h ha _ _ ih ih' =>
    obtain ⟨ts, hts, hl⟩ := ih hs (.inr (rest_of_sees ha (by simp)))
    obtain ⟨us, hus, hl'⟩ := ih' (ascending_advance (h.ascending hs)) hr
    obtain rfl | ⟨t, ts, rfl, ht⟩ := hl.bare rfl
    · have hrow : s.rest = ⟨.identifier name, span⟩ ::
          ⟨.symbol .assign, s₁.current.span⟩ :: us ++ s'.rest := by
        rw [hts, rest_eq_of_sees ha (by simp), hus]
        rfl
      rw [hrow] at hs
      exact ⟨_, hrow, @Located.assign _ _ type _ _ ⟨name, span⟩ hl'
        (.merge [_] hs.left (.single _) hl'.covers rfl)⟩
    · -- the assignment does not start with a parenthesis
      have hsees : s.sees (.symbol .leftParen) = true := by simp [State.sees, hts, ht]
      exact absurd hsees (by simp [hg])
  | expression _ _ ih =>
    obtain ⟨ts, hts, hl⟩ := ih (by simpa using hs) (by simpa [closes] using hr)
    exact ⟨ts, by simpa using hts, .expression hl⟩
  | single h ih =>
    obtain ⟨ts, hts, hl⟩ := ih hs (.inr (by simpa [closes] using hr))
    exact ⟨ts, hts, .single hl⟩
  | @cons n s a s₁ as s' h hc _ ih ihs =>
    obtain ⟨ts, hts, hl⟩ := ih hs (.inr (rest_of_sees hc (by simp)))
    obtain ⟨us, hus, hls⟩ := ihs (ascending_advance (h.ascending hs)) hr
    have hrow : s.rest = ts ++ ⟨.symbol .comma, s₁.current.span⟩ :: us ++ s'.rest := by
      rw [hts, rest_eq_of_sees hc (by simp), hus]
      simp
    exact ⟨_, hrow, .cons hl hls⟩
  | noItems => exact ⟨[], rfl, .noItems⟩
  | someItems _ ih =>
    obtain ⟨ts, hts, hl⟩ := ih hs hr
    exact ⟨ts, hts, .someItems hl⟩
  | @declaration s kind written init type s₁ s₂ name hk hname hnew hnote ha _ ht hsemi ih =>
    have hr₁ := rest_of_sees ha (by simp)
    obtain ⟨note, hrow₁, hnote'⟩ := typeNote hnote hr₁ ht
    have hr₂ : s.advance.advance.rest ≠ [] := by
      rw [hrow₁]
      exact List.append_ne_nil_of_right_ne_nil note hr₁
    have hs₁ : Ascending s₁.rest := by
      have hs₂ := ascending_advance (ascending_advance hs)
      rw [hrow₁] at hs₂
      exact hs₂.right
    obtain ⟨ts, hts, hl⟩ := ih (ascending_advance hs₁) (.inr (rest_of_sees hsemi (by simp)))
    have hrow : s.rest = ⟨.keyword kind.keyword, s.current.span⟩ ::
        ⟨.identifier name.name, name.span⟩ :: (note ++ ⟨.symbol .assign, s₁.current.span⟩ ::
          (ts ++ [⟨.symbol .semicolon, s₂.current.span⟩])) ++ s₂.advance.rest := by
      rw [rest_eq_of_kind hk (rest_of_advance (rest_of_advance hr₂)),
        rest_eq_of_kind rfl (rest_of_advance hr₂), hname, hrow₁, rest_eq_of_sees ha (by simp), hts,
        rest_eq_of_sees hsemi (by simp)]
      simp
    rw [hrow] at hs
    have hspan : (s.current.span.merge s₂.current.span).Covers _ :=
      .merge (⟨.identifier name.name, name.span⟩ ::
          (note ++ ⟨.symbol .assign, s₁.current.span⟩ :: ts))
        hs.left (.single (.keyword kind.keyword)) (.single (.symbol .semicolon)) (by simp)
    exact ⟨_, hrow, .declaration hnote' hl hspan⟩
  | @ret s e s' hk h hsemi ih =>
    have hr₁ := rest_of_sees hsemi (by simp)
    obtain ⟨ts, hts, hl⟩ := ih (ascending_advance hs) (.inr hr₁)
    have hrow : s.rest = ⟨.keyword .returnWord, s.current.span⟩ ::
        (ts ++ [⟨.symbol .semicolon, s'.current.span⟩]) ++ s'.advance.rest := by
      rw [rest_eq_of_kind hk (rest_of_advance (h.rest_ne_nil hr₁)), hts,
        rest_eq_of_sees hsemi (by simp)]
      simp
    rw [hrow] at hs
    exact ⟨_, hrow, .ret hl (.merge ts hs.left (.single _) (.single _) rfl)⟩
  | branching _ ih =>
    obtain ⟨ts, hts, hl⟩ := ih hs (.inl rfl)
    exact ⟨ts, hts, .branching hl⟩
  | @expressionStmt s s' e h hsemi ih =>
    obtain ⟨ts, hts, hl⟩ := ih hs (.inr (rest_of_sees hsemi (by simp)))
    have hrow : s.rest = ts ++ [⟨.symbol .semicolon, s'.current.span⟩] ++ s'.advance.rest := by
      rw [hts, rest_eq_of_sees hsemi (by simp)]
      simp
    rw [hrow] at hs
    exact ⟨_, hrow, .expressionStmt hl (.merge [] hs.left hl.covers (.single _) rfl)⟩
  | noStatements => exact ⟨[], rfl, .noStatements⟩
  | moreStatements h hss ih ihs =>
    obtain ⟨ts, hts, hl⟩ := ih hs (.inr (hss.rest_ne_nil (by simpa [closes] using hr)))
    obtain ⟨us, hus, hls⟩ := ihs (h.ascending hs) hr
    exact ⟨ts ++ us, by rw [hts, hus, List.append_assoc], .moreStatements hl hls⟩
  | @block s ss s' ho h hc ih =>
    obtain ⟨ts, hts, hl⟩ := ih (ascending_advance hs) (.inr (rest_of_sees hc (by simp)))
    have hrow : s.rest = ⟨.symbol .leftBrace, s.current.span⟩ ::
        (ts ++ [⟨.symbol .rightBrace, s'.current.span⟩]) ++ s'.advance.rest := by
      rw [rest_eq_of_sees ho (by simp), hts, rest_eq_of_sees hc (by simp)]
      simp
    rw [hrow] at hs
    exact ⟨_, hrow, .block hl (.merge ts hs.left (.single _) (.single _) rfl)⟩
  | @conditional s condition s₁ ss stop s' hd hk ho h hc _ _ ih ihb =>
    have hs₁ : Ascending (s.enter .conditional).advance.advance.rest :=
      ascending_advance (ascending_advance (by simpa using hs))
    obtain ⟨ts, o, hl, hrow₁⟩ := header hk ho (ih hs₁ (.inr (rest_of_sees hc (by simp)))) hc
    obtain ⟨us, hus, hl'⟩ := ihb (ascending_advance (h.ascending hs₁)) (.inl rfl)
    have hrow : s.rest = ⟨.keyword .ifWord, s.current.span⟩ :: ⟨.symbol .leftParen, o⟩ ::
        (ts ++ ⟨.symbol .rightParen, s₁.current.span⟩ :: us) ++ s'.rest := by
      rw [hrow₁, hus]
      simp
    rw [hrow] at hs
    have hspan : (s.current.span.merge stop).Covers _ :=
      .merge (⟨.symbol .leftParen, o⟩ :: (ts ++ [⟨.symbol .rightParen, s₁.current.span⟩]))
        hs.left (.single (.keyword .ifWord)) hl'.covers (by simp)
    exact ⟨_, by simpa using hrow, .conditional hl hl' hspan⟩
  | @conditionalElse s condition s₁ ss stop s₂ ss' stop' s' hd hk ho h hc _ hb helse _ ih ihb iha =>
    have hs₁ : Ascending (s.enter .conditional).advance.advance.rest :=
      ascending_advance (ascending_advance (by simpa using hs))
    have hs₂ := ascending_advance (h.ascending hs₁)
    obtain ⟨ts, o, hl, hrow₁⟩ := header hk ho (ih hs₁ (.inr (rest_of_sees hc (by simp)))) hc
    obtain ⟨us, hus, hl'⟩ := ihb hs₂ (.inl rfl)
    obtain ⟨vs, hvs, hl''⟩ := iha (ascending_advance (hb.ascending hs₂)) (.inl rfl)
    let front : List Token := ⟨.keyword .ifWord, s.current.span⟩ :: ⟨.symbol .leftParen, o⟩ ::
      (ts ++ ⟨.symbol .rightParen, s₁.current.span⟩ :: us)
    have hrow : s.rest = front ++ ⟨.keyword .elseWord, s₂.current.span⟩ :: vs ++ s'.rest := by
      rw [hrow₁, hus, rest_eq_of_sees helse (by simp), hvs]
      simp [front]
    rw [hrow] at hs
    have hfront : (s.current.span.merge stop).Covers front :=
      .merge (⟨.symbol .leftParen, o⟩ :: (ts ++ [⟨.symbol .rightParen, s₁.current.span⟩]))
        hs.left.left (.single (.keyword .ifWord)) hl'.covers (by simp [front])
    have hspan := Span.Covers.merge [_] hs.left hfront hl''.covers rfl
    have hassoc : front ++ ⟨.keyword .elseWord, s₂.current.span⟩ :: vs =
        ⟨.keyword .ifWord, s.current.span⟩ :: ⟨.symbol .leftParen, o⟩ :: (ts ++
          ⟨.symbol .rightParen, s₁.current.span⟩ ::
            (us ++ ⟨.keyword .elseWord, s₂.current.span⟩ :: vs)) := by simp [front]
    rw [hassoc] at hrow hspan
    exact ⟨_, by simpa using hrow, .conditionalElse hl hl' hl'' hspan⟩
  | elseBlock _ ih =>
    obtain ⟨ts, hts, hl⟩ := ih hs (.inl rfl)
    exact ⟨ts, hts, .elseBlock hl⟩
  | elseIf _ ih =>
    obtain ⟨ts, hts, hl⟩ := ih hs (.inl rfl)
    exact ⟨ts, hts, .elseIf hl⟩
  | @param s b hname hc ht =>
    have hr₁ := rest_of_sees hc (by simp)
    have hr₂ : s.advance.advance.rest ≠ [] := rest_of_advance (by simpa [closes] using hr)
    have hrow : s.rest = [⟨.identifier b.name.name, b.name.span⟩,
        ⟨.symbol .colon, s.advance.current.span⟩,
        ⟨.keyword b.type.keyword, s.advance.advance.current.span⟩] ++
          s.advance.advance.advance.rest := by
      rw [rest_eq_of_kind rfl (rest_of_advance hr₁), hname, rest_eq_of_sees hc (by simp),
        rest_eq_of_kind ht hr₂]
      rfl
    exact ⟨_, hrow, .param⟩
  | @function s s₁ params result scope body stop s' name hk hname ho hp hc hm ht hscope hb f hf ih
      ihb =>
    have hs₁ : Ascending s.advance.advance.advance.rest :=
      ascending_advance (ascending_advance (ascending_advance hs))
    obtain ⟨ts, hts, hl⟩ := ih hs₁ (.inr (rest_of_sees hc (by simp)))
    have hs₂ : Ascending s₁.advance.advance.advance.rest :=
      ascending_advance (ascending_advance (ascending_advance (hp.ascending hs₁)))
    obtain ⟨us, hus, hl'⟩ := ihb hs₂ (.inl rfl)
    rw [withScope_rest] at hus
    let head : List Token := ⟨.identifier name.name, name.span⟩ ::
      ⟨.symbol .leftParen, s.advance.advance.current.span⟩ ::
        (ts ++ [⟨.symbol .rightParen, s₁.current.span⟩, ⟨.symbol .colon, s₁.advance.current.span⟩,
          ⟨.keyword result.keyword, s₁.advance.advance.current.span⟩])
    have hrow : s.rest = ⟨.keyword .functionWord, s.current.span⟩ :: (head ++ us) ++ s'.rest := by
      rw [rest_eq_of_sees hk (by simp),
        rest_eq_of_kind rfl (rest_of_advance (rest_of_sees ho (by simp))), hname,
        rest_eq_of_sees ho (by simp), hts, rest_eq_of_sees hc (by simp),
        rest_eq_of_sees hm (by simp), rest_eq_of_kind ht (rest_of_advance hb.rest_of_block), hus]
      simp [head]
    rw [hrow] at hs
    have hspan := Span.Covers.merge head hs.left (.single _) hl'.covers rfl
    have hassoc : head ++ us = ⟨.identifier name.name, name.span⟩ ::
        ⟨.symbol .leftParen, s.advance.advance.current.span⟩ :: (ts ++
          ⟨.symbol .rightParen, s₁.current.span⟩ :: ⟨.symbol .colon, s₁.advance.current.span⟩ ::
            ⟨.keyword result.keyword, s₁.advance.advance.current.span⟩ :: us) := by simp [head]
    rw [hassoc] at hrow hspan
    subst hf
    exact ⟨_, hrow, .function hl hl' hspan⟩
  | noFunctions => exact ⟨[], rfl, .noFunctions⟩
  | moreFunctions h _ ih ihs =>
    obtain ⟨ts, hts, hl⟩ := ih hs (.inl rfl)
    obtain ⟨us, hus, hls⟩ := ihs (h.ascending hs) (.inl rfl)
    exact ⟨ts ++ us, by rw [hts, hus, List.append_assoc], .moreFunctions hl hls⟩

end

end Reads

/-! ### programs -/

/-- the functions of an accepted program stand for all tokens in front of the last one -/
theorem Program.located_of_ofTokens {E C : Nat} {ts : List Token} {stop : Token} {p : Program}
    (h : Program.ofTokens ⟨some E, some C⟩ (ts ++ [stop]) = .ok p)
    (hasc : Ascending (ts ++ [stop])) (hstop : stop.kind = .endOfFile)
    (hts : ∀ t ∈ ts, t.kind ≠ .endOfFile) :
    Located .functions ts p.functions ∧ p.span.Covers (ts ++ [stop]) := by
  obtain ⟨s, hrun, hspan⟩ := Program.run_span h
  have hread := functions_sound _ _ hrun
  have hrest := hread.rest_eq_stop (functions_stop hrun) rfl hstop hts
  obtain ⟨read, hrow, hl⟩ := hread.located hasc (.inl rfl)
  rw [hrest] at hrow
  obtain rfl : ts = read := List.append_cancel_right hrow
  refine ⟨hl, ?_⟩
  have hlast : s.current = stop := by simp [State.current, hrest]
  rw [hspan, hlast]
  cases ts with
  | nil =>
    show (stop.span.merge stop.span).Covers [stop]
    rw [Span.merge_self]
    exact .single stop.kind
  | cons t ts => exact .merge ts hasc (.single t.kind) (.single stop.kind) rfl

/-- **Spans are exact.**  The functions of an accepted program stand for the tokens in front of the
end of the file, each node for a row of them, and its span runs from the start of the first token of
this row to the end of the last one.  So the children of every node lie inside of it, each behind
the one in front of it. -/
theorem SourceFile.located_of_parse {file : SourceFile} {p : Program} (h : file.parse = .ok p) :
    ∃ ts stop, file.tokens = .ok (ts ++ [stop]) ∧ stop.kind = .endOfFile ∧
      Located .functions ts p.functions ∧ p.span.Covers (ts ++ [stop]) ∧ p.Ordered := by
  obtain ⟨tokens, htokens, hp⟩ := ofTokens_of_parse h
  have hasc := ascending_tokens htokens
  obtain ⟨ts, stop, rfl, hstop, hts⟩ := tokens_eq_snoc htokens
  obtain ⟨hl, hspan⟩ := Program.located_of_ofTokens hp hasc hstop hts
  exact ⟨ts, stop, htokens, hstop, hl, hspan, (hl.tiles.before [stop]).holds hasc hspan,
    hl.ordered hasc.left⟩

namespace SourceFile

/-- an alternate on the next line, and a variable in two pairs of parentheses -/
def spreadFile : SourceFile := ⟨"spread",
  "function f(a: Int): Int \x7b\n  if (a < 1) \x7b \x7d else\n    \x7b a = ((a)) - 1; \x7d \x7d\n"⟩

/-- a conditional up to the brace of its alternate, and a variable with its parentheses -/
theorem spreadFile_spans : ∃ p, spreadFile.parse = .ok p ∧ p.Ordered ∧
    p.span = ⟨⟨1, 1⟩, ⟨4, 1⟩⟩ ∧
    p.functions.flatMap (fun f => f.body.map Stmt.span) = [⟨⟨2, 3⟩, ⟨3, 22⟩⟩] ∧
    p.functions.flatMap (fun f => f.parts.map Expr.span) =
      [⟨⟨2, 7⟩, ⟨2, 11⟩⟩, ⟨⟨2, 7⟩, ⟨2, 7⟩⟩, ⟨⟨2, 11⟩, ⟨2, 11⟩⟩, ⟨⟨3, 7⟩, ⟨3, 19⟩⟩,
        ⟨⟨3, 11⟩, ⟨3, 19⟩⟩, ⟨⟨3, 11⟩, ⟨3, 15⟩⟩, ⟨⟨3, 19⟩, ⟨3, 19⟩⟩] := by
  have hcheck : spreadFile.parse.toOption.map (fun p => (p.span,
      p.functions.flatMap (fun f => f.body.map Stmt.span),
      p.functions.flatMap fun f => f.parts.map Expr.span)) =
        some (⟨⟨1, 1⟩, ⟨4, 1⟩⟩, [⟨⟨2, 3⟩, ⟨3, 22⟩⟩],
          [⟨⟨2, 7⟩, ⟨2, 11⟩⟩, ⟨⟨2, 7⟩, ⟨2, 7⟩⟩, ⟨⟨2, 11⟩, ⟨2, 11⟩⟩, ⟨⟨3, 7⟩, ⟨3, 19⟩⟩,
            ⟨⟨3, 11⟩, ⟨3, 19⟩⟩, ⟨⟨3, 11⟩, ⟨3, 15⟩⟩, ⟨⟨3, 19⟩, ⟨3, 19⟩⟩]) := by decide +kernel
  cases hp : spreadFile.parse with
  | error d =>
    rw [hp] at hcheck
    cases hcheck
  | ok p =>
    rw [hp] at hcheck
    obtain ⟨hspan, hrest⟩ := Prod.mk.inj (Option.some.inj hcheck)
    obtain ⟨hbody, hparts⟩ := Prod.mk.inj hrest
    obtain ⟨ts, stop, -, -, -, -, hordered⟩ := located_of_parse hp
    exact ⟨p, rfl, hordered, hspan, hbody, hparts⟩

end SourceFile

end Wattle
