import Wattle.Proofs.Parser.Reads

/-!
# The tokens of a reading

Every reading eats a row of tokens off the front of those still to be read, and this row is the
yield of a derivation (`Reads.derives`).  The main result, `Program.derived_of_ofTokens`, says so of
a whole program and of all tokens in front of the end of the file.

Behind the last token the cursor stays where it is, so that a token could be read twice there.  No
accepted program does so: as long as a closing token is still to come, there are tokens left.
-/

namespace Wattle

/-! ### eating tokens -/

/-- `rest'` is what is left of `rest` behind a row of tokens of the given kinds -/
def Eats (rest : List Token) (kinds : List TokenKind) (rest' : List Token) : Prop :=
  ∃ tokens, rest = tokens ++ rest' ∧ tokens.map Token.kind = kinds

namespace Eats

variable {a b c : List Token} {ks ks' : List TokenKind}

theorem refl (a : List Token) : Eats a [] a := ⟨[], rfl, rfl⟩

theorem trans (h : Eats a ks b) (h' : Eats b ks' c) : Eats a (ks ++ ks') c := by
  obtain ⟨ts, rfl, rfl⟩ := h
  obtain ⟨ts', rfl, rfl⟩ := h'
  exact ⟨ts ++ ts', by simp, by simp⟩

theorem cons {k : TokenKind} (h : Eats a [k] b) (h' : Eats b ks c) : Eats a (k :: ks) c :=
  h.trans h'

/-- one more token behind a row -/
theorem snoc {k : TokenKind} (h : Eats a ks b) (h' : Eats b [k] c) : Eats a (ks ++ [k]) c :=
  h.trans h'

theorem left_ne_nil (h : Eats a ks b) (hb : b ≠ []) : a ≠ [] := by
  obtain ⟨ts, rfl, -⟩ := h
  simp [hb]

end Eats

namespace Parser.State

variable {s : State} {kind : TokenKind}

/-- where a token is seen there is one -/
theorem rest_of_sees (h : s.sees kind = true) (hk : kind ≠ .endOfFile) : s.rest ≠ [] := by
  intro hr
  simp only [sees, hr, beq_iff_eq] at h
  exact hk h

theorem rest_of_advance (h : s.advance.rest ≠ []) : s.rest ≠ [] := by
  intro hr
  simp [hr] at h

theorem eats_of_kind (h : s.current.kind = kind) (hr : s.rest ≠ []) :
    Eats s.rest [kind] s.advance.rest := by
  obtain ⟨t, rest, e⟩ := List.exists_cons_of_ne_nil hr
  have ht : s.current = t := by simp [current, e]
  exact ⟨[t], by simp [e], by simp [← h, ht]⟩

theorem eats_of_sees (h : s.sees kind = true) (hk : kind ≠ .endOfFile) :
    Eats s.rest [kind] s.advance.rest :=
  eats_of_kind (kind_of_sees h hk) (rest_of_sees h hk)

/-- the first token that was eaten is the one that was seen -/
theorem sees_of_eats {ks : List TokenKind} {rest : List Token}
    (h : Eats s.rest ks rest) (hk : ks.head? = some kind) : s.sees kind = true := by
  obtain ⟨ts, e, rfl⟩ := h
  cases ts with
  | nil => simp at hk
  | cons t ts => simpa [sees, e] using hk

end Parser.State

/-! ### derivations -/

/-- no derivation yields the end of the file -/
theorem Derives.ne_endOfFile {e c : Nat} {n : Nonterminal} {ks : List TokenKind} {a : n.Value}
    (h : Derives e c n ks a) : ∀ k ∈ ks, k ≠ .endOfFile := by
  induction h with
  | declaration written _ ih => cases written <;> simp_all [typeNote, typeMark, or_imp]
  | _ => simp_all [typeMark, or_imp]

/-- a variable is derived from its name, unless it stands in parentheses -/
theorem Derives.bare {e c : Nat} {ks : List TokenKind} {a : Expr} {name : String}
    {type : DataType} {span : Span} (h : Derives e c (.expr (.chain .comparison)) ks a)
    (ha : a = .var name type span) :
    ks = [.identifier name] ∨ ks.head? = some (.symbol .leftParen) := by
  -- down the levels: an operator would show in the tree
  cases h with
  | binary => cases ha
  | operand h =>
    cases h with
    | binary => cases ha
    | operand h =>
      cases h with
      | binary => cases ha
      | operand h =>
        cases h with
        | neg => cases ha
        | unsigned h =>
          cases h with
          | var => cases ha; exact .inl rfl
          | group h => exact .inr rfl
          | number | call => cases ha

/-! ### readings -/

theorem Literal.of_ofLexeme {lexeme : String} {span : Span} {e : Expr}
    (h : Expr.ofLexeme lexeme span = .ok e) :
    ∃ value type, e = .number value type span ∧ Literal lexeme value type := by
  unfold Expr.ofLexeme at h
  split at h
  · next hp =>
    split at h
    · next value hv =>
      exact ⟨value, .double, (Except.ok.inj h).symm, by simp [literalType, hp], hv⟩
    · simp at h
  · next hp =>
    split at h
    · next m hm =>
      exact ⟨.ofNat m, .int, (Except.ok.inj h).symm, by simp [literalType, hp], m, hm, rfl⟩
    · simp at h

namespace Reads

open Wattle.Parser State

section
variable {limits : Limits} {n : Nonterminal} {s s' : State} {a : n.Value}

/-- a reading leaves as many expressions and conditionals open as it finds -/
theorem depth_eq (h : Reads limits n s a s') (nesting : Nesting) :
    s'.depth nesting = s.depth nesting := by
  induction h with
  | expression _ _ ih => cases nesting <;> simp_all
  | conditional _ _ _ _ _ _ _ ih ih' => cases nesting <;> simp_all
  | conditionalElse _ _ _ _ _ _ _ _ _ ih ih' ih'' => cases nesting <;> simp_all
  | declaration _ _ _ hnote _ _ _ _ ih =>
    obtain ⟨-, -, rfl⟩ | ⟨-, _, -, -, rfl⟩ := writtenType_done.1 hnote <;> simp_all
  | _ => simp_all

/-- a reading goes forward in the tokens -/
theorem rest_suffix (h : Reads limits n s a s') : s'.rest <:+ s.rest := by
  have forward {a b : List Token} (h : a <:+ b.tail) : a <:+ b := h.trans (List.tail_suffix _)
  have behind {a b : List Token} (h : a <:+ b) : a.tail <:+ b := (List.tail_suffix _).trans h
  induction h with
  | declaration _ _ _ hnote _ _ _ _ ih =>
    obtain ⟨-, -, rfl⟩ | ⟨-, _, -, -, rfl⟩ := writtenType_done.1 hnote <;>
      grind [advance_rest, withScope_rest]
  | _ => grind [advance_rest, enter_rest, leave_rest, withScope_rest, withFunctions_rest,
      List.suffix_refl, List.IsSuffix.trans]

theorem rest_ne_nil (h : Reads limits n s a s') (hr : s'.rest ≠ []) : s.rest ≠ [] := by
  intro e
  have hs := h.rest_suffix
  rw [e, List.suffix_nil] at hs
  exact hr hs

end

/-! ### derivations of readings -/

section
variable {E C : Nat} {n : Nonterminal} {s s' : State} {a : n.Value}

/-- what is read between two states is derived from the tokens between them -/
def Derived (E C : Nat) (n : Nonterminal) (s : State) (a : n.Value) (s' : State) : Prop :=
  ∃ ks, Eats s.rest ks s'.rest ∧
    Derives (E - s.depth .expression) (C - s.depth .conditional) n ks a

/-- the parts of a program that end with a token that has to be there -/
def closes : Nonterminal → Bool
  | .block | .conditional | .alternate | .function | .functions => true
  | _ => false

theorem depth_of_writtenType {written : Option DataType} {s₁ : State} {nesting : Nesting}
    (h : writtenType s = .done written s₁) : s₁.depth nesting = s.depth nesting := by
  obtain ⟨-, -, rfl⟩ | ⟨-, _, -, -, rfl⟩ := writtenType_done.1 h <;> simp

theorem eq_of_declaredType {name : String} {written type : DataType} {init : Expr}
    (h : declaredType name (some written) init = .ok type) : written = type := by
  simp only [declaredType] at h
  split at h
  · exact Except.ok.inj h
  · simp at h

/-- the type of a variable as it is written, or left out -/
theorem eats_typeNote {written : Option DataType} {s₁ : State} {name : String} {init : Expr}
    {type : DataType} (h : writtenType s = .done written s₁) (hr : s₁.rest ≠ [])
    (ht : declaredType name written init = .ok type) :
    ∃ b, Eats s.rest (typeNote b type) s₁.rest := by
  obtain ⟨-, rfl, rfl⟩ | ⟨hc, type', rfl, hk, rfl⟩ := writtenType_done.1 h
  · exact ⟨false, .refl _⟩
  · obtain rfl := eq_of_declaredType ht
    exact ⟨true, (eats_of_sees hc (by simp)).cons (eats_of_kind hk (rest_of_advance hr))⟩

theorem rest_of_block {limits : Limits} {b : List Stmt × Span} {s' : State}
    (h : Reads limits .block s b s') : s.rest ≠ [] := by
  cases h with
  | block ho => exact rest_of_sees ho (by simp)

/-- the first word of a conditional, its condition, and what stands behind it -/
theorem eats_header {s₁ : State} {ks ks' : List TokenKind} {rest : List Token}
    (hk : s.current.kind = .keyword .ifWord) (ho : s.advance.sees (.symbol .leftParen) = true)
    (he : Eats s.advance.advance.rest ks s₁.rest) (hc : s₁.sees (.symbol .rightParen) = true)
    (he' : Eats s₁.advance.rest ks' rest) :
    Eats s.rest (.keyword .ifWord :: .symbol .leftParen :: (ks ++ .symbol .rightParen :: ks'))
      rest :=
  (eats_of_kind hk (rest_of_advance (rest_of_sees ho (by simp)))).cons
    ((eats_of_sees ho (by simp)).cons (he.trans ((eats_of_sees hc (by simp)).cons he')))

/-- a reading is derived from the tokens it has eaten, if some are left or if it ends with a
closing one -/
theorem derived (h : Reads ⟨some E, some C⟩ n s a s') (hr : closes n = true ∨ s'.rest ≠ []) :
    Derived E C n s a s' := by
  induction h with
  | number hk he =>
    obtain ⟨value, type, rfl, hl⟩ := Literal.of_ofLexeme he
    have hs := rest_of_advance (by simpa [closes] using hr)
    exact ⟨_, eats_of_kind hk hs, .number hl⟩
  | var hk _ =>
    have hs := rest_of_advance (by simpa [closes] using hr)
    exact ⟨_, eats_of_kind hk hs, .var⟩
  | call hk ho _ hc _ ih =>
    have hs := rest_of_advance (rest_of_sees ho (by simp))
    obtain ⟨ks, he, hd⟩ := ih (.inr (rest_of_sees hc (by simp)))
    simp only [advance_depth] at hd
    exact ⟨_, (eats_of_kind (by rw [hk]) hs).cons ((eats_of_sees ho (by simp)).cons
      (he.snoc (eats_of_sees hc (by simp)))), .call hd⟩
  | group hk h hc ih =>
    have hs' := rest_of_sees hc (by simp)
    have hs := rest_of_advance (h.rest_ne_nil hs')
    obtain ⟨ks, he, hd⟩ := ih (.inr hs')
    simp only [advance_depth] at hd
    exact ⟨_, (eats_of_kind hk hs).cons (he.snoc (eats_of_sees hc (by simp))), .group hd⟩
  | neg hm h ih =>
    obtain ⟨ks, he, hd⟩ := ih hr
    simp only [advance_depth] at hd
    exact ⟨_, (eats_of_sees hm (by simp)).cons he, .neg hd⟩
  | unsigned _ ih =>
    obtain ⟨ks, he, hd⟩ := ih hr
    exact ⟨ks, he, .unsigned hd⟩
  | operand _ ih =>
    obtain ⟨ks, he, hd⟩ := ih hr
    exact ⟨ks, he, .operand hd⟩
  | binary hop hl hk h hb ihl ih =>
    have hs := rest_of_advance (h.rest_ne_nil (by simpa [closes] using hr))
    obtain ⟨ks, he, hd⟩ := ihl (.inr hs)
    obtain ⟨ks', he', hd'⟩ := ih hr
    obtain ⟨type, rfl⟩ := Chain.of_build hb
    simp only [advance_depth, hl.depth_eq] at hd'
    exact ⟨_, he.trans ((eats_of_kind hk hs).cons he'), .binary hop hd hd'⟩
  | unassigned _ ih =>
    obtain ⟨ks, he, hd⟩ := ih hr
    exact ⟨ks, he, .unassigned hd⟩
  | assign hg h ha hv _ iht ih =>
    have hs := rest_of_sees ha (by simp)
    obtain ⟨ks, he, hd⟩ := iht (.inr hs)
    obtain ⟨ks', he', hd'⟩ := ih hr
    obtain rfl | hp := hd.bare rfl
    · simp only [advance_depth, h.depth_eq] at hd'
      exact ⟨_, he.cons ((eats_of_sees ha (by simp)).cons he'), .assign hd'⟩
    · -- the assignment does not start with a parenthesis
      exact absurd (sees_of_eats he (by simpa using hp)) (by simp [hg])
  | @expression s e s' hd h ih =>
    obtain ⟨ks, he, hd'⟩ := ih (by simpa [closes] using hr)
    have hlt : s.depth .expression < E := hd E rfl
    simp only [enter_depth, if_true, reduceCtorEq, if_false] at hd'
    have hopen := hd'.expression
    rw [show E - (s.depth .expression + 1) + 1 = E - s.depth .expression by omega] at hopen
    exact ⟨ks, by simpa using he, hopen⟩
  | single h ih =>
    obtain ⟨ks, he, hd⟩ := ih (.inr (by simpa [closes] using hr))
    exact ⟨ks, he, .single hd⟩
  | cons h hc hs ih ih' =>
    obtain ⟨ks, he, hd⟩ := ih (.inr (rest_of_sees hc (by simp)))
    obtain ⟨ks', he', hd'⟩ := ih' hr
    simp only [advance_depth, h.depth_eq] at hd'
    exact ⟨_, he.trans ((eats_of_sees hc (by simp)).cons he'), .cons hd hd'⟩
  | noItems => exact ⟨[], .refl _, .noItems⟩
  | someItems _ ih =>
    obtain ⟨ks, he, hd⟩ := ih hr
    exact ⟨ks, he, .someItems hd⟩
  | @declaration s kind written init type s₁ s₂ name hk hname hnew hnote ha hi ht hs ih =>
    have hr₁ := rest_of_sees ha (by simp)
    obtain ⟨b, hb⟩ := eats_typeNote hnote hr₁ ht
    have hr₂ : s.advance.advance.rest ≠ [] := hb.left_ne_nil hr₁
    have hr₃ := rest_of_advance hr₂
    obtain ⟨ks, he, hd⟩ := ih (.inr (rest_of_sees hs (by simp)))
    simp only [advance_depth, depth_of_writtenType hnote] at hd
    exact ⟨_, (eats_of_kind hk (rest_of_advance hr₃)).cons
      ((eats_of_kind (by rw [hname]) hr₃).cons
        (hb.trans ((eats_of_sees ha (by simp)).cons (he.snoc (eats_of_sees hs (by simp)))))),
      .declaration b hd⟩
  | ret hk h hs ih =>
    have hs' := rest_of_sees hs (by simp)
    obtain ⟨ks, he, hd⟩ := ih (.inr hs')
    simp only [advance_depth] at hd
    exact ⟨_, (eats_of_kind hk (rest_of_advance (h.rest_ne_nil hs'))).cons
      (he.snoc (eats_of_sees hs (by simp))), .ret hd⟩
  | branching _ ih =>
    obtain ⟨ks, he, hd⟩ := ih (.inl rfl)
    exact ⟨ks, he, .branching hd⟩
  | expressionStmt h hs ih =>
    obtain ⟨ks, he, hd⟩ := ih (.inr (rest_of_sees hs (by simp)))
    exact ⟨_, he.snoc (eats_of_sees hs (by simp)), .expressionStmt hd⟩
  | noStatements => exact ⟨[], .refl _, .noStatements⟩
  | moreStatements h hs ih ih' =>
    obtain ⟨ks, he, hd⟩ := ih (.inr (hs.rest_ne_nil (by simpa [closes] using hr)))
    obtain ⟨ks', he', hd'⟩ := ih' hr
    simp only [h.depth_eq] at hd'
    exact ⟨_, he.trans he', .moreStatements hd hd'⟩
  | block ho h hc ih =>
    obtain ⟨ks, he, hd⟩ := ih (.inr (rest_of_sees hc (by simp)))
    simp only [advance_depth] at hd
    exact ⟨_, (eats_of_sees ho (by simp)).cons (he.snoc (eats_of_sees hc (by simp))), .block hd⟩
  | @conditional s condition s₁ ss stop s' hd hk ho h hc ht hb ih ih' =>
    have hlt : s.depth .conditional < C := hd C rfl
    obtain ⟨ks, he, hd⟩ := ih (.inr (rest_of_sees hc (by simp)))
    obtain ⟨ks', he', hd'⟩ := ih' (.inl rfl)
    simp only [advance_depth, enter_depth, h.depth_eq, if_true, reduceCtorEq, if_false] at hd hd'
    have hopen := @Derives.conditional _ _ _ _ _ _ _ (s.current.span.merge stop) hd hd'
    rw [show C - (s.depth .conditional + 1) + 1 = C - s.depth .conditional by omega] at hopen
    have hheader := eats_header (s := s.enter .conditional) (by simpa using hk) ho he hc he'
    exact ⟨_, by simpa using hheader, hopen⟩
  | @conditionalElse s condition s₁ ss stop s₂ ss' stop' s' hd hk ho h hc ht hb helse ha ih ih'
      ih'' =>
    have hlt : s.depth .conditional < C := hd C rfl
    obtain ⟨ks, he, hd⟩ := ih (.inr (rest_of_sees hc (by simp)))
    obtain ⟨ks', he', hd'⟩ := ih' (.inl rfl)
    obtain ⟨ks'', he'', hd''⟩ := ih'' (.inl rfl)
    simp only [advance_depth, enter_depth, h.depth_eq, hb.depth_eq, if_true, reduceCtorEq,
      if_false] at hd hd' hd''
    have hopen := @Derives.conditionalElse _ _ _ _ _ _ _ _ _ _
      ((s.current.span.merge stop).merge stop') hd hd' hd''
    rw [show C - (s.depth .conditional + 1) + 1 = C - s.depth .conditional by omega] at hopen
    have hrow := he'.trans ((eats_of_sees helse (by simp)).cons he'')
    have hheader := eats_header (s := s.enter .conditional) (by simpa using hk) ho he hc hrow
    exact ⟨_, by simpa using hheader, hopen⟩
  | elseBlock _ ih =>
    obtain ⟨ks, he, hd⟩ := ih (.inl rfl)
    exact ⟨ks, he, .elseBlock hd⟩
  | elseIf _ ih =>
    obtain ⟨ks, he, hd⟩ := ih (.inl rfl)
    exact ⟨ks, he, .elseIf hd⟩
  | @param s b hname hc ht =>
    have hs := rest_of_sees hc (by simp)
    have hs' : s.advance.advance.rest ≠ [] := rest_of_advance (by simpa [closes] using hr)
    exact ⟨_, (eats_of_kind (by rw [hname]) (rest_of_advance hs)).cons
      ((eats_of_sees hc (by simp)).cons (eats_of_kind ht hs')), .param⟩
  | @function s s₁ params result scope body stop s' name hk hname ho hp hc hm ht hscope hb f hf ih
      ih' =>
    obtain ⟨ks, he, hd⟩ := ih (.inr (rest_of_sees hc (by simp)))
    obtain ⟨ks', he', hd'⟩ := ih' (.inl rfl)
    simp only [advance_depth, withScope_depth, hp.depth_eq] at hd hd'
    have hresult : Eats s₁.advance.rest (typeMark result) s₁.advance.advance.advance.rest :=
      (eats_of_sees hm (by simp)).cons (eats_of_kind ht (rest_of_advance hb.rest_of_block))
    have hname' := eats_of_kind (by rw [hname]) (rest_of_advance (rest_of_sees ho (by simp)))
    subst hf
    exact ⟨_, (eats_of_sees hk (by simp)).cons (hname'.cons ((eats_of_sees ho (by simp)).cons
      (he.trans ((eats_of_sees hc (by simp)).cons (hresult.trans he'))))), .function hd hd'⟩
  | noFunctions => exact ⟨[], .refl _, .noFunctions⟩
  | moreFunctions h hs ih ih' =>
    obtain ⟨ks, he, hd⟩ := ih (.inl rfl)
    obtain ⟨ks', he', hd'⟩ := ih' (.inl rfl)
    simp only [h.depth_eq] at hd'
    exact ⟨_, he.trans he', .moreFunctions hd hd'⟩

end

end Reads

/-! ### programs -/

/-- the functions of a program end where the file does -/
theorem Parser.functions_stop {limits : Limits} {steps k : Nat} {s s' : State}
    {fs : List FunctionDecl} (h : functions limits steps k s = .done fs s') :
    s'.sees .endOfFile = true := by
  induction k generalizing s fs with
  | zero => simp [functions, functionsOf] at h
  | succ k ih =>
    simp only [functions, functionsOf, sees_bind, ite_done, bind_done, pure_done, current_bind,
      failHere_done, and_false, or_false] at h
    obtain ⟨he, -, rfl⟩ | ⟨-, -, f, s₁, -, rest, _, hr, -, rfl⟩ := h
    · exact he
    · exact ih hr

/-- the run over the functions of an accepted program, whose span is over the first token and the
one at its end -/
theorem Program.run_span {limits : Limits} {tokens : List Token} {p : Program}
    (h : Program.ofTokens limits tokens = .ok p) :
    ∃ s, Parser.functions limits (Parser.stepBound limits tokens.length)
        (Parser.stepBound limits tokens.length) (.initial tokens) = .done p.functions s ∧
      p.span = (Parser.State.initial tokens).current.span.merge s.current.span := by
  unfold Program.ofTokens Program.run at h
  split at h
  · next p' s hrun =>
    obtain rfl := Except.ok.inj h
    simp only [Parser.program, Parser.programOf, Parser.current_bind, Parser.bind_done,
      Parser.pure_done] at hrun
    obtain ⟨fs, s₁, hf, rfl, -⟩ := hrun
    exact ⟨s₁, hf, rfl⟩
  · simp at h
  · simp at h

theorem Program.run_of_ofTokens {limits : Limits} {tokens : List Token} {p : Program}
    (h : Program.ofTokens limits tokens = .ok p) :
    ∃ s, Parser.functions limits (Parser.stepBound limits tokens.length)
      (Parser.stepBound limits tokens.length) (.initial tokens) = .done p.functions s := by
  obtain ⟨s, hrun, -⟩ := Program.run_span h
  exact ⟨s, hrun⟩

/-- an accepted program is a reading of its tokens up to the end of the file -/
theorem Program.reads_of_ofTokens {limits : Limits} {tokens : List Token} {p : Program}
    (h : Program.ofTokens limits tokens = .ok p) :
    ∃ s, Reads limits .functions (.initial tokens) p.functions s ∧ s.sees .endOfFile = true := by
  obtain ⟨s, hrun⟩ := Program.run_of_ofTokens h
  exact ⟨s, Parser.functions_sound _ _ hrun, Parser.functions_stop hrun⟩

/-- the tokens of an accepted text -/
theorem SourceFile.ofTokens_of_parse {file : SourceFile} {p : Program} (h : file.parse = .ok p) :
    ∃ tokens, file.tokens = .ok tokens ∧ Program.ofTokens .standard tokens = .ok p := by
  unfold SourceFile.parse at h
  split at h
  · simp at h
  · next tokens htokens =>
    split at h
    · simp at h
    · next p' hp => exact ⟨tokens, htokens, Except.ok.inj h ▸ hp⟩

/-- a row that ends where the file does is all of the file -/
theorem Eats.takeWhile {tokens : List Token} {ks : List TokenKind} {s : Parser.State}
    (h : Eats tokens ks s.rest) (hs : s.sees .endOfFile = true) (hk : ∀ k ∈ ks, k ≠ .endOfFile) :
    (tokens.map Token.kind).takeWhile (· ≠ .endOfFile) = ks := by
  obtain ⟨ts, rfl, rfl⟩ := h
  have hrest : (s.rest.map Token.kind).takeWhile (· ≠ .endOfFile) = [] := by
    unfold Parser.State.sees at hs
    cases hr : s.rest with
    | nil => rfl
    | cons t rest => simp [(by simpa [hr] using hs : t.kind = .endOfFile)]
  rw [List.map_append, List.takeWhile_append_of_pos (by simpa using hk), hrest, List.append_nil]

/-- a reading of a whole file is derived from all of its tokens -/
theorem Reads.derived_file {limits : Limits} {e c : Nat} (he : limits.expressions = some e)
    (hc : limits.conditionals = some c) {tokens : List Token} {fs : List FunctionDecl}
    {s : Parser.State} (h : Reads limits .functions (.initial tokens) fs s)
    (hs : s.sees .endOfFile = true) :
    Derives e c .functions ((tokens.map Token.kind).takeWhile (· ≠ .endOfFile)) fs := by
  obtain ⟨e', c'⟩ := limits
  subst he hc
  obtain ⟨ks, he, hd⟩ := Reads.derived h (.inl rfl)
  have hks : (tokens.map Token.kind).takeWhile (· ≠ .endOfFile) = ks :=
    Eats.takeWhile he hs hd.ne_endOfFile
  rw [hks]
  exact hd

/-- the functions of a file are read up to its last token -/
theorem Reads.rest_eq_stop {E C : Nat} {fs : List FunctionDecl} {s s' : Parser.State}
    {ts : List Token} {stop : Token} (h : Reads ⟨some E, some C⟩ .functions s fs s')
    (hend : s'.sees .endOfFile = true) (hrest : s.rest = ts ++ [stop])
    (hstop : stop.kind = .endOfFile) (hts : ∀ t ∈ ts, t.kind ≠ .endOfFile) : s'.rest = [stop] := by
  obtain ⟨ks, heats, hd⟩ := h.derived (.inl rfl)
  have hks := heats.takeWhile hend hd.ne_endOfFile
  obtain ⟨read, hread, rfl⟩ := heats
  rw [hrest, List.map_append, List.takeWhile_append_of_pos (by simpa using hts)] at hks
  have hlength : ts.length = read.length := by
    simpa [hstop] using congrArg List.length hks
  exact (List.append_inj (hrest.symm.trans hread) hlength).2.symm

/-- **An accepted program is derived from its tokens.**  All tokens in front of the end of the file
are used, each once and in order, within 64 open expressions and 64 open conditionals. -/
theorem Program.derived_of_ofTokens {tokens : List Token} {p : Program}
    (h : Program.ofTokens .standard tokens = .ok p) :
    p.Derived 64 64 ((tokens.map Token.kind).takeWhile (· ≠ .endOfFile)) := by
  obtain ⟨s, hread, hs⟩ := Program.reads_of_ofTokens h
  exact Reads.derived_file rfl rfl hread hs

/-- the tokens of `function f(a: Int): Double { if (a < 1) { a = -a; } return (a - 1) * 0.5; }` -/
def Program.exampleTokens : List Token :=
  [.keyword .functionWord, .identifier "f", .symbol .leftParen, .identifier "a", .symbol .colon,
    .keyword .intWord, .symbol .rightParen, .symbol .colon, .keyword .doubleWord,
    .symbol .leftBrace, .keyword .ifWord, .symbol .leftParen, .identifier "a", .symbol .less,
    .number "1", .symbol .rightParen, .symbol .leftBrace, .identifier "a", .symbol .assign,
    .symbol .minus, .identifier "a", .symbol .semicolon, .symbol .rightBrace,
    .keyword .returnWord, .symbol .leftParen, .identifier "a", .symbol .minus, .number "1",
    .symbol .rightParen, .symbol .star, .number "0.5", .symbol .semicolon, .symbol .rightBrace,
    .endOfFile].map fun kind => .placed kind .origin

theorem Program.derived_example : ∃ p, Program.ofTokens .standard exampleTokens = .ok p ∧
    p.Derived 64 64 ((exampleTokens.map Token.kind).takeWhile (· ≠ .endOfFile)) := by
  have hok : (Program.ofTokens .standard exampleTokens).isOk = true := by decide +kernel
  cases h : Program.ofTokens .standard exampleTokens with
  | error fault => simp [h, Except.isOk, Except.toBool] at hok
  | ok p => exact ⟨p, rfl, Program.derived_of_ofTokens h⟩

end Wattle
