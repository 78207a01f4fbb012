import Wattle.Proofs.Parser.Checks
import Wattle.Proofs.Parser.Runs
import Wattle.Proofs.Parser.Spans

/-!
# Well-typed derivations are read

A row of tokens that is derived from the grammar as the yield of a well-typed part of a program is
read as that part, up to spans: each check of the parsers is one of the type rules, and the limits
are those of the derivation.  `Readable` says so of one part, with a lemma for each production, and
`Derives.readable` puts them together.  With `Program.ofTokens_of_reads` this is the completeness of
the parser, `Program.ofTokens_of_derived`.
-/

namespace Wattle

open Wattle.Parser State

/-! ### rows of tokens -/

namespace Eats

variable {a c : List Token} {k : TokenKind} {ks ks' : List TokenKind}

theorem split (h : Eats a (ks ++ ks') c) : ∃ b, Eats a ks b ∧ Eats b ks' c := by
  obtain ⟨ts, rfl, hts⟩ := h
  obtain ⟨ts₁, ts₂, rfl, rfl, rfl⟩ := List.map_eq_append_iff.1 hts
  exact ⟨ts₂ ++ c, ⟨ts₁, List.append_assoc .., rfl⟩, ts₂, rfl, rfl⟩

theorem eq_of_nil (h : Eats a [] c) : a = c := by
  obtain ⟨ts, rfl, hts⟩ := h
  rw [List.map_eq_nil_iff.1 hts, List.nil_append]

theorem uncons {s : State} (h : Eats s.rest (k :: ks) c) :
    s.rest ≠ [] ∧ s.current.kind = k ∧ Eats s.advance.rest ks c := by
  obtain ⟨ts, hs, hts⟩ := h
  obtain ⟨t, ts, rfl, rfl, rfl⟩ := List.map_eq_cons_iff.1 hts
  rw [List.cons_append] at hs
  exact ⟨by simp [hs], by simp [State.current, hs], ts, by simp [hs], rfl⟩

theorem sees {s : State} (h : Eats s.rest (k :: ks) c) : s.sees k = true :=
  sees_of_kind h.uncons.1 h.uncons.2.1

end Eats

/-! ### parts up to spans -/

/-- a part without its spans -/
def Nonterminal.eraseSpans : (n : Nonterminal) → n.Value → n.Value
  | expr _, e => Expr.mapSpan .erase e
  | param, b => Binding.mapSpan .erase b
  | row n, as | items n, as => List.map n.eraseSpans as
  | statement, a | conditional, a => Stmt.mapSpan .erase a
  | statements, ss => List.map (Stmt.mapSpan .erase) ss
  | block, b | alternate, b => (b.1.map (Stmt.mapSpan .erase), .point .origin)
  | function, f => FunctionDecl.mapSpan .erase f
  | functions, fs => List.map (FunctionDecl.mapSpan .erase) fs

theorem Expr.type_eq_of_erase {e e' : Expr} (h : e.mapSpan .erase = e'.mapSpan .erase) :
    e.type = e'.type := by
  simpa using congrArg Expr.type h

theorem Expr.map_type_eq_of_erase {es es' : List Expr}
    (h : es.map (mapSpan .erase) = es'.map (mapSpan .erase)) :
    es.map Expr.type = es'.map Expr.type := by
  simpa [Function.comp_def] using congrArg (List.map Expr.type) h

/-- so many more expressions and conditionals may be opened -/
structure Parser.State.Admitting (limits : Limits) (e c : Nat) (s : State) : Prop where
  expressions : ∀ n, limits.expressions = some n → e + s.depth .expression ≤ n
  conditionals : ∀ n, limits.conditionals = some n → c + s.depth .conditional ≤ n

namespace Parser.State.Admitting

variable {limits : Limits} {e c : Nat} {s s' : State}

theorem of_depth (h : s.Admitting limits e c)
    (hdepth : ∀ nesting, s'.depth nesting = s.depth nesting) : s'.Admitting limits e c := by
  refine ⟨?_, ?_⟩ <;> rw [hdepth]
  · exact h.expressions
  · exact h.conditionals

theorem advance (h : s.Admitting limits e c) : s.advance.Admitting limits e c :=
  h.of_depth fun _ => advance_depth ..

theorem reads (h : s.Admitting limits e c) {n : Nonterminal} {a : n.Value}
    (hreads : Reads limits n s a s') : s'.Admitting limits e c :=
  h.of_depth hreads.depth_eq

theorem enterExpression (h : s.Admitting limits (e + 1) c) :
    s.Admits .expression limits.expressions ∧ (s.enter .expression).Admitting limits e c := by
  refine ⟨fun n hn => ?_, fun n hn => ?_, fun n hn => ?_⟩
  · have := h.expressions n hn
    omega
  · have := h.expressions n hn
    simp only [enter_depth, if_true]
    omega
  · simpa using h.conditionals n hn

theorem enterConditional (h : s.Admitting limits e (c + 1)) :
    s.Admits .conditional limits.conditionals ∧ (s.enter .conditional).Admitting limits e c := by
  refine ⟨fun n hn => ?_, fun n hn => ?_, fun n hn => ?_⟩
  · have := h.conditionals n hn
    omega
  · simpa using h.expressions n hn
  · have := h.conditionals n hn
    simp only [enter_depth, if_true]
    omega

end Parser.State.Admitting

/-- the type of a variable, written or not, is read as one that its value agrees with -/
theorem Parser.exists_writtenType {limits : Limits} {e c : Nat} {s : State} {written : Bool}
    {type : DataType} {ks : List TokenKind} {rest : List Token}
    (hs : Eats s.rest (typeNote written type ++ .symbol .assign :: ks) rest)
    (hfit : s.Admitting limits e c) :
    ∃ w s', writtenType s = .done w s' ∧ Eats s'.rest (.symbol .assign :: ks) rest ∧
      s'.context = s.context ∧ s'.Admitting limits e c ∧
      ∀ name init, init.type = type → declaredType name w init = .ok type := by
  cases written with
  | false =>
    refine ⟨none, s, writtenType_done.2 (.inl ⟨?_, rfl, rfl⟩), hs, rfl, hfit, ?_⟩
    · exact not_sees_of_kind hs.uncons.1 hs.uncons.2.1 (by simp)
    · rintro name init rfl
      rfl
  | true =>
    obtain ⟨-, hk, hs'⟩ := hs.uncons.2.2.uncons
    refine ⟨some type, s.advance.advance, writtenType_done.2 (.inr ⟨hs.sees, type, rfl, hk, rfl⟩),
      hs', by simp, hfit.advance.advance, ?_⟩
    rintro name init rfl
    simp [declaredType]

theorem Parser.State.declare_context {s : State} {name : String} (type : DataType)
    (h : s.context.env name = none) :
    (s.advance.withScope (s.scope.declare name type)).context =
      ⟨s.context.env.bind name type, s.context.signatures⟩ := by
  simp only [context, withScope_scope, withScope_functions, advance_functions,
    Scope.lookup_declare_new type h]

theorem Parser.State.register_context (s : State) (scope : Scope) (f : FunctionDecl) :
    ((s.withScope scope).withFunctions (s.functions.register f.name.name f.signature)).context =
      ⟨scope.lookup, s.context.signatures.bind f⟩ := by
  have htable : (s.functions.register f.name.name f.signature).get? =
      Signatures.bind s.functions.get? f := by
    funext x
    rw [FunctionTable.get?_register]
    rfl
  simp only [context, withFunctions_scope, withScope_scope, withFunctions_functions, htable]

theorem Signatures.bind_eq_of_erase {Δ : Signatures} {f f' : FunctionDecl}
    (h : f.mapSpan .erase = f'.mapSpan .erase) : Δ.bind f = Δ.bind f' := by
  have hname : f.name.name = f'.name.name := congrArg (·.name.name) h
  have hsignature : f.signature = f'.signature := by
    rw [← f.signature_mapSpan .erase, h, f'.signature_mapSpan]
  funext x
  rw [bind, bind, hname, hsignature]

/-- rows of parameters with the same names and types make the same scope -/
theorem Env.ofParams_mapSpan (g : SpanMap) (bs : List Binding) :
    Env.ofParams (bs.map (Binding.mapSpan g)) = Env.ofParams bs := by
  funext x
  simp [Env.ofParams, List.find?_map, Function.comp_def, Binding.mapSpan]

/-- parameters of the same names and types, which differ, make the scope of these parameters -/
theorem Parser.exists_paramScope {bs bs' : List Binding} (h : (bs.map (·.name.name)).Nodup)
    (hsame : bs'.map (Binding.mapSpan .erase) = bs.map (Binding.mapSpan .erase)) :
    ∃ scope, paramScope bs' = .ok scope ∧ scope.lookup = Env.ofParams bs := by
  have hnames : bs'.map (·.name.name) = bs.map (·.name.name) := by
    simpa [Function.comp_def, Binding.mapSpan] using congrArg (List.map (·.name.name)) hsame
  obtain ⟨scope, hdeclared⟩ := Scope.declareAll_of_nodup (s := .empty) (hnames ▸ h) (by simp)
  have hscope : paramScope bs' = .ok scope := by simp [paramScope, hdeclared]
  refine ⟨scope, hscope, ?_⟩
  rw [(Scope.of_paramScope hscope).2, ← Env.ofParams_mapSpan .erase, hsame, Env.ofParams_mapSpan]

theorem Parser.State.current_eq {s : State} {kind : TokenKind} (h : s.current.kind = kind) :
    s.current = ⟨kind, s.current.span⟩ := by
  rw [← h]

/-! ### what is read -/

/-- what is read between a state and `rest` is `a` up to spans, and it leaves a context -/
def ReadsAs (limits : Limits) (n : Nonterminal) (s : State) (a : n.Value) (rest : List Token)
    (c' : Context) : Prop :=
  ∃ b s', Reads limits n s b s' ∧ n.eraseSpans b = n.eraseSpans a ∧ s'.rest = rest ∧
    s'.context = c'

/-- tokens of the kinds `ks` are read as `a` wherever it is well typed, if `e` more expressions and
`c` more conditionals may be opened there -/
def Readable (limits : Limits) (e c : Nat) (n : Nonterminal) (ks : List TokenKind) (a : n.Value) :
    Prop :=
  ∀ ⦃s rest c'⦄, Eats s.rest ks rest → s.Admitting limits e c → n.Typed s.context a c' →
    ReadsAs limits n s a rest c'

namespace Readable

section
variable {limits : Limits} {e c : Nat} {ks ks' : List TokenKind} {s : State} {rest : List Token}
  {d : Context} {a : Expr} {type : DataType} {span : Span}

theorem reads {n : Nonterminal} {a : n.Value} {c' : Context} (h : Readable limits e c n ks a)
    (hs : Eats s.rest ks rest) (hfit : s.Admitting limits e c) (hd : s.context = d)
    (ht : n.Typed d a c') : ReadsAs limits n s a rest c' :=
  h hs hfit (hd ▸ ht)

/-- an expression leaves the context as it is -/
theorem readsExpr {l : Level} (h : Readable limits e c (.expr l) ks a) (hs : Eats s.rest ks rest)
    (hfit : s.Admitting limits e c) (hd : s.context = d) (ht : a.Typed d.signatures d.env) :
    ∃ b s', Reads limits (.expr l) s b s' ∧ b.mapSpan .erase = a.mapSpan .erase ∧
      s'.rest = rest ∧ s'.context = d :=
  h.reads hs hfit hd ⟨ht, rfl⟩

/-! ### expressions -/

theorem number {lexeme : String} {value : Double} (h : Literal lexeme value type) :
    Readable limits e c (.expr .primary) [.number lexeme] (Expr.number value type span) := by
  rintro s rest c' hs - ⟨-, hcontext⟩
  obtain ⟨-, hk, hs⟩ := hs.uncons
  exact ⟨_, s.advance, .number hk (h.ofLexeme _), rfl, hs.eq_of_nil, by simpa using hcontext⟩

theorem var {name : String} :
    Readable limits e c (.expr .primary) [.identifier name] (Expr.var name type span) := by
  rintro s rest _ hs - ⟨ht, rfl⟩
  obtain ⟨-, hk, hs⟩ := hs.uncons
  cases ht with
  | var hbound => exact ⟨_, s.advance, .var hk hbound, rfl, hs.eq_of_nil, by simp⟩

theorem call {callee : Ident} {args : List Expr}
    (h : Readable limits e c (.items (.expr .expression)) ks args) :
    Readable limits e c (.expr .primary)
      (.identifier callee.name :: .symbol .leftParen :: (ks ++ [.symbol .rightParen]))
      (Expr.call callee args type span) := by
  rintro s rest _ hs hfit ⟨ht, rfl⟩
  obtain ⟨-, hk, hs⟩ := hs.uncons
  have ho := hs.sees
  obtain ⟨rest₁, hs, hclose⟩ := hs.uncons.2.2.split
  cases ht with
  | call hargs hknown hunknown =>
    obtain ⟨args', s', hr, hargs', rfl, hcontext⟩ :=
      h.reads hs hfit.advance.advance (by simp) (Threads.of_expr hargs)
    have htypes := Expr.map_type_eq_of_erase hargs'
    have hfunctions : s'.advance.functions.get? = s.context.signatures := by
      rw [advance_functions]
      exact congrArg Context.signatures hcontext
    refine ⟨.call ⟨callee.name, s.current.span⟩ args' type _, s'.advance,
      .call (current_eq hk) ho hr hclose.sees (Signature.callType_of ?_ ?_), ?_,
      hclose.uncons.2.2.eq_of_nil, by simpa using hcontext⟩
    · rw [hfunctions, htypes]
      exact hknown
    · rw [hfunctions]
      exact hunknown
    · simp only [Nonterminal.eraseSpans] at hargs' ⊢
      simp [Expr.mapSpan, Expr.argsMapSpan_eq_map, hargs', Ident.mapSpan]

theorem group (h : Readable limits e c (.expr .expression) ks a) :
    Readable limits e c (.expr .primary) (.symbol .leftParen :: (ks ++ [.symbol .rightParen]))
      (a.withSpan span) := by
  rintro s rest _ hs hfit ⟨ht, rfl⟩
  obtain ⟨-, hk, hs⟩ := hs.uncons
  obtain ⟨rest₁, hs, hclose⟩ := hs.split
  obtain ⟨b, s', hr, hb, rfl, hcontext⟩ :=
    h.readsExpr hs hfit.advance (advance_context ..) ht.of_withSpan
  refine ⟨_, s'.advance, .group hk hr hclose.sees, ?_, hclose.uncons.2.2.eq_of_nil,
    by simpa using hcontext⟩
  simp [Nonterminal.eraseSpans, Expr.mapSpan_withSpan, hb]

theorem neg (h : Readable limits e c (.expr .primary) ks a) :
    Readable limits e c (.expr .unary) (.symbol .minus :: ks) (Expr.neg a type span) := by
  rintro s rest _ hs hfit ⟨ht, rfl⟩
  have hm := hs.sees
  cases ht with
  | neg ht =>
    obtain ⟨b, s', hr, hb, hrest, hcontext⟩ :=
      h.readsExpr hs.uncons.2.2 hfit.advance (advance_context ..) ht
    refine ⟨_, s', .neg hm hr, ?_, hrest, hcontext⟩
    simp [Nonterminal.eraseSpans, Expr.mapSpan, hb, Expr.type_eq_of_erase hb]

theorem binary {op : BinaryOp} {left right : Expr}
    (h : Readable limits e c (.expr (.chain op.chain)) ks left)
    (h' : Readable limits e c (.expr op.chain.operand) ks' right) :
    Readable limits e c (.expr (.chain op.chain)) (ks ++ .symbol op.symbol :: ks')
      (Expr.binary op left right type span) := by
  rintro s rest _ hs hfit ⟨ht, rfl⟩
  have hoperands : _ ∧ _ := ht.operands
  obtain ⟨rest₁, hs, hs'⟩ := hs.split
  obtain ⟨left', s₁, hrl, hl, rfl, hcontext⟩ := h.readsExpr hs hfit rfl hoperands.1
  obtain ⟨-, hk, hs'⟩ := hs'.uncons
  obtain ⟨right', s', hrr, hr, hrest, hcontext'⟩ := h'.readsExpr hs' (hfit.reads hrl).advance
    ((advance_context ..).trans hcontext) hoperands.2
  refine ⟨_, s', .binary rfl hrl hk hrr (Chain.build_of_typed ht (Expr.type_eq_of_erase hl)
    (Expr.type_eq_of_erase hr) _), ?_, hrest, hcontext'⟩
  simp [Nonterminal.eraseSpans, Expr.mapSpan, hl, hr]

theorem assign {name : String} {place : Span} {value : Expr}
    (h : Readable limits e c (.expr .expression) ks value) :
    Readable limits e c (.expr .assignment) (.identifier name :: .symbol .assign :: ks)
      (Expr.assign ⟨name, place⟩ value type span) := by
  rintro s rest _ hs hfit ⟨ht, rfl⟩
  obtain ⟨hr, hk, hs⟩ := hs.uncons
  have ha := hs.sees
  cases ht with
  | assign hbound hv htype =>
    obtain ⟨value', s', hrv, hvalue, hrest, hcontext⟩ :=
      h.readsExpr hs.uncons.2.2 hfit.advance.advance (by simp) hv
    have htarget : Reads limits (.expr (.chain .comparison)) s
        (Expr.var name type s.current.span) s.advance :=
      .operand (.operand (.operand (.unsigned (.var hk hbound))))
    refine ⟨_, s', .assign (not_sees_of_kind hr hk (by simp)) htarget ha hrv
      ((Expr.type_eq_of_erase hvalue).trans htype), ?_, hrest, hcontext⟩
    simp [Nonterminal.eraseSpans, Expr.mapSpan, hvalue, Ident.mapSpan]

theorem expression (h : Readable limits e c (.expr .assignment) ks a) :
    Readable limits (e + 1) c (.expr .expression) ks a := by
  rintro s rest _ hs hfit ⟨ht, rfl⟩
  obtain ⟨hd, hfit⟩ := hfit.enterExpression
  obtain ⟨b, s', hr, hb, hrest, hcontext⟩ :=
    h.readsExpr (by simpa using hs) hfit (enter_context ..) ht
  exact ⟨b, _, .expression hd hr, hb, by simpa using hrest, by simpa using hcontext⟩

end

/-! ### statements -/

section
variable {limits : Limits} {e c : Nat} {ks ks' ks'' : List TokenKind} {s : State}
  {rest : List Token} {a : Expr} {span stop stop' : Span}

theorem cons {n : Nonterminal} {b : n.Value} {bs : List n.Value} (h : Readable limits e c n ks b)
    (hs : Readable limits e c (.row n) ks' bs) :
    Readable limits e c (.row n) (ks ++ .symbol .comma :: ks') (b :: bs) := by
  rintro s rest c' heats hfit ⟨c₁, ht, hts⟩
  obtain ⟨rest₁, heats, heats'⟩ := heats.split
  obtain ⟨b', s₁, hr, hb, rfl, hcontext⟩ := h heats hfit ht
  obtain ⟨bs', s', hrs, hbs, hend⟩ := hs.reads heats'.uncons.2.2 (hfit.reads hr).advance
    ((advance_context ..).trans hcontext) hts
  exact ⟨b' :: bs', s', .cons hr heats'.sees hrs, List.cons_eq_cons.2 ⟨hb, hbs⟩, hend⟩

theorem declaration {kind : VarKind} {type : DataType} {name : Ident} (written : Bool)
    (h : Readable limits e c (.expr .expression) ks a) :
    Readable limits e c .statement
      (.keyword kind.keyword :: .identifier name.name ::
        (typeNote written type ++ .symbol .assign :: (ks ++ [.symbol .semicolon])))
      (Stmt.declaration kind name type a kind.isConst span) := by
  intro s rest c' hs hfit ht
  obtain ⟨-, hk, hs⟩ := hs.uncons
  obtain ⟨-, hname, hs⟩ := hs.uncons
  obtain ⟨w, s₁, hnote, hs, hcontext₁, hfit₁, hw⟩ := exists_writtenType hs hfit.advance.advance
  have ha := hs.sees
  obtain ⟨rest₁, hs, hend⟩ := hs.uncons.2.2.split
  obtain ⟨hnew, htyped, htype, rfl⟩ := StmtsTypedIn.declaration ht
  obtain ⟨b, s₂, hr, hb, rfl, hcontext⟩ := h.readsExpr hs hfit₁.advance (d := s.context)
    (by simp [hcontext₁]) htyped
  have hdeclared : declaredType name.name w b = .ok type :=
    hw name.name b ((Expr.type_eq_of_erase hb).trans htype)
  have hread : Reads limits .statement s (Stmt.declaration kind ⟨name.name, s.advance.current.span⟩
      type b kind.isConst (s.current.span.merge s₂.current.span)) _ :=
    .declaration hk (current_eq hname) hnew hnote ha hr hdeclared hend.sees
  refine ⟨_, _, hread, ?_, hend.uncons.2.2.eq_of_nil, ?_⟩
  · simp [Nonterminal.eraseSpans, Stmt.mapSpan, hb, Ident.mapSpan]
  · have hnew₂ : s₂.context.env name.name = none := by rw [hcontext]; exact hnew
    rw [declare_context type hnew₂, hcontext]

theorem ret (h : Readable limits e c (.expr .expression) ks a) :
    Readable limits e c .statement (.keyword .returnWord :: (ks ++ [.symbol .semicolon]))
      (Stmt.ret a span) := by
  intro s rest c' hs hfit ht
  obtain ⟨-, hk, hs⟩ := hs.uncons
  obtain ⟨rest₁, hs, hend⟩ := hs.split
  obtain ⟨htyped, rfl⟩ := StmtsTypedIn.ret ht
  obtain ⟨b, s', hr, hb, rfl, hcontext⟩ :=
    h.readsExpr hs hfit.advance (advance_context ..) htyped
  refine ⟨_, s'.advance, .ret hk hr hend.sees, ?_, hend.uncons.2.2.eq_of_nil,
    by simpa using hcontext⟩
  simp [Nonterminal.eraseSpans, Stmt.mapSpan, hb]

theorem expressionStmt (h : Readable limits e c (.expr .expression) ks a) :
    Readable limits e c .statement (ks ++ [.symbol .semicolon]) (Stmt.expression a span) := by
  intro s rest c' hs hfit ht
  obtain ⟨rest₁, hs, hend⟩ := hs.split
  obtain ⟨htyped, rfl⟩ := StmtsTypedIn.expression ht
  obtain ⟨b, s', hr, hb, rfl, hcontext⟩ := h.readsExpr hs hfit rfl htyped
  refine ⟨_, s'.advance, .expressionStmt hr hend.sees, ?_, hend.uncons.2.2.eq_of_nil,
    by simpa using hcontext⟩
  simp [Nonterminal.eraseSpans, Stmt.mapSpan, hb]

theorem moreStatements {b : Stmt} {bs : List Stmt} (h : Readable limits e c .statement ks b)
    (hs : Readable limits e c .statements ks' bs) :
    Readable limits e c .statements (ks ++ ks') (b :: bs) := by
  intro s rest c' heats hfit ht
  obtain ⟨c₁, ht, hts⟩ := StmtsTypedIn.uncons ht
  obtain ⟨rest₁, heats, heats'⟩ := heats.split
  obtain ⟨b', s₁, hr, hb, rfl, rfl⟩ := h heats hfit ht
  obtain ⟨bs', s', hrs, hbs, hend⟩ := hs heats' (hfit.reads hr) hts
  exact ⟨b' :: bs', s', .moreStatements hr hrs, List.cons_eq_cons.2 ⟨hb, hbs⟩, hend⟩

theorem block {ss : List Stmt} (h : Readable limits e c .statements ks ss) :
    Readable limits e c .block (.symbol .leftBrace :: (ks ++ [.symbol .rightBrace]))
      (ss, span) := by
  intro s rest c' hs hfit ht
  have ho := hs.sees
  obtain ⟨rest₁, hs, hclose⟩ := hs.uncons.2.2.split
  obtain ⟨ss', s', hr, hss, rfl, hcontext⟩ := h.reads hs hfit.advance (advance_context ..) ht
  exact ⟨_, s'.advance, .block ho hr hclose.sees, Prod.ext hss rfl,
    hclose.uncons.2.2.eq_of_nil, by simpa using hcontext⟩

/-- the head of a conditional, up to its first branch -/
theorem readsHead (h : Readable limits e c (.expr .expression) ks a)
    (hs : Eats s.rest (.keyword .ifWord :: .symbol .leftParen ::
      (ks ++ .symbol .rightParen :: ks')) rest)
    (hfit : s.Admitting limits e (c + 1)) (ht : a.Typed s.context.signatures s.context.env)
    (hint : a.type = .int) :
    s.Admits .conditional limits.conditionals ∧ s.current.kind = .keyword .ifWord ∧
      (s.enter .conditional).advance.sees (.symbol .leftParen) = true ∧
      ∃ b s₁, Reads limits (.expr .expression) (s.enter .conditional).advance.advance b s₁ ∧
        s₁.sees (.symbol .rightParen) = true ∧ b.type = .int ∧
        b.mapSpan .erase = a.mapSpan .erase ∧ Eats s₁.advance.rest ks' rest ∧
        s₁.advance.context = s.context ∧ s₁.advance.Admitting limits e c := by
  obtain ⟨hd, hfit⟩ := hfit.enterConditional
  obtain ⟨-, hk, hs⟩ := Eats.uncons (s := s.enter .conditional) (by simpa using hs)
  have ho := hs.sees
  obtain ⟨rest₁, hs, hs'⟩ := hs.uncons.2.2.split
  obtain ⟨b, s₁, hr, hb, rfl, hcontext⟩ :=
    h.readsExpr hs hfit.advance.advance (d := s.context) (by simp) ht
  exact ⟨hd, by simpa using hk, ho, b, s₁, hr, hs'.sees, (Expr.type_eq_of_erase hb).trans hint,
    hb, hs'.uncons.2.2, by simpa using hcontext, (hfit.advance.advance.reads hr).advance⟩

theorem conditional {ss : List Stmt} (h : Readable limits e c (.expr .expression) ks a)
    (hb : Readable limits e c .block ks' (ss, stop)) :
    Readable limits e (c + 1) .conditional
      (.keyword .ifWord :: .symbol .leftParen :: (ks ++ .symbol .rightParen :: ks'))
      (Stmt.conditional a ss none span) := by
  intro s rest c' hs hfit ht
  obtain ⟨htyped, hint, c₁, hts, hnil⟩ := StmtsTypedIn.conditional ht
  obtain rfl := hnil.nil
  obtain ⟨hd, hk, ho, b, s₁, hr, hclose, hint, hb', hs, hcontext, hfit⟩ :=
    h.readsHead hs hfit htyped hint
  obtain ⟨⟨ss', stop'⟩, s', hrb, hss, hrest, hcontext'⟩ := hb.reads hs hfit hcontext hts
  have hss : ss'.map (Stmt.mapSpan .erase) = ss.map (Stmt.mapSpan .erase) := congrArg Prod.fst hss
  refine ⟨_, _, .conditional hd hk ho hr hclose hint hrb, ?_, by simpa using hrest,
    by simpa using hcontext'⟩
  simp [Nonterminal.eraseSpans, Stmt.mapSpan, hb', Stmt.branchMapSpan_eq_map,
    Stmt.alternateMapSpan, hss]

theorem conditionalElse {ss other : List Stmt}
    (h : Readable limits e c (.expr .expression) ks a)
    (hb : Readable limits e c .block ks' (ss, stop))
    (ha : Readable limits e c .alternate ks'' (other, stop')) :
    Readable limits e (c + 1) .conditional
      (.keyword .ifWord :: .symbol .leftParen ::
        (ks ++ .symbol .rightParen :: (ks' ++ .keyword .elseWord :: ks'')))
      (Stmt.conditional a ss (some other) span) := by
  intro s rest c' hs hfit ht
  obtain ⟨htyped, hint, c₁, hts, hto⟩ := StmtsTypedIn.conditional ht
  obtain ⟨hd, hk, ho, b, s₁, hr, hclose, hint, hb', hs, hcontext, hfit⟩ :=
    h.readsHead hs hfit htyped hint
  obtain ⟨rest₁, hs, helse⟩ := hs.split
  obtain ⟨⟨ss', _⟩, s₂, hrb, hss, rfl, hcontext₂⟩ := hb.reads hs hfit hcontext hts
  obtain ⟨⟨other', _⟩, s', hra, hother, hrest, hcontext'⟩ := ha.reads helse.uncons.2.2
    (hfit.reads hrb).advance ((advance_context ..).trans hcontext₂) hto
  have hss : ss'.map (Stmt.mapSpan .erase) = ss.map (Stmt.mapSpan .erase) := congrArg Prod.fst hss
  have hother : other'.map (Stmt.mapSpan .erase) = other.map (Stmt.mapSpan .erase) :=
    congrArg Prod.fst hother
  refine ⟨_, _, .conditionalElse hd hk ho hr hclose hint hrb helse.sees hra, ?_,
    by simpa using hrest, by simpa using hcontext'⟩
  simp [Nonterminal.eraseSpans, Stmt.mapSpan, hb', Stmt.branchMapSpan_eq_map,
    Stmt.alternateMapSpan, hss, hother]

/-! ### functions -/

theorem param {b : Binding} :
    Readable limits e c .param (.identifier b.name.name :: typeMark b.type) b := by
  rintro s rest _ hs - rfl
  obtain ⟨-, hname, hs⟩ := hs.uncons
  have hcolon := hs.sees
  obtain ⟨-, htype, hs⟩ := hs.uncons.2.2.uncons
  exact ⟨⟨⟨b.name.name, s.current.span⟩, b.type⟩, _, .param (current_eq hname) hcolon htype, rfl,
    hs.eq_of_nil, by simp⟩

theorem function {params : List Binding} {body : List Stmt} {result : DataType} {name : Ident}
    (hp : Readable limits e c (.items .param) ks params)
    (hb : Readable limits e c .block ks' (body, stop)) :
    Readable limits e c .function
      (.keyword .functionWord :: .identifier name.name :: .symbol .leftParen ::
        (ks ++ .symbol .rightParen :: (typeMark result ++ ks')))
      (⟨name, params, body.filterMap Stmt.binding?, result, body, span⟩ : FunctionDecl) := by
  rintro s rest _ hs hfit ⟨⟨hnodup, Γ, hbody⟩, rfl⟩
  have hfun := hs.sees
  obtain ⟨-, hname, hs⟩ := hs.uncons.2.2.uncons
  have ho := hs.sees
  obtain ⟨rest₁, hs, hs'⟩ := hs.uncons.2.2.split
  obtain ⟨params', s₁, hrp, hparams, rfl, hcontext₁⟩ := hp.reads hs hfit.advance.advance.advance
    (by simp) (Threads.of_param s.context params)
  have hclose := hs'.sees
  have hmark : Eats s₁.advance.rest (.symbol .colon :: .keyword result.keyword :: ks') rest :=
    hs'.uncons.2.2
  obtain ⟨-, htype, hs'⟩ := hmark.uncons.2.2.uncons
  -- the body is read with the scope of its parameters
  obtain ⟨scope, hscope, hΓ⟩ := exists_paramScope hnodup hparams
  have hstart : (s₁.advance.advance.advance.withScope scope).context =
      ⟨Env.ofParams params, s.context.signatures⟩ := by
    rw [← hcontext₁, ← hΓ]
    simp [context]
  have hfit₁ := (hfit.advance.advance.advance.reads hrp).advance.advance.advance
  have hthreads : StmtsTypedIn ⟨Env.ofParams params, s.context.signatures⟩ body ⟨Γ, _⟩ :=
    ⟨hbody, rfl⟩
  obtain ⟨⟨body', stop'⟩, s', hrb, hbody', rfl, hcontext'⟩ := hb.reads (by simpa using hs')
    (hfit₁.of_depth fun _ => withScope_depth ..) hstart hthreads
  have hread : Reads limits .function s (⟨⟨name.name, s.advance.current.span⟩, params',
      body'.filterMap Stmt.binding?, result, body', s.current.span.merge stop'⟩ : FunctionDecl) _ :=
    .function hfun (current_eq hname) ho hrp hclose hmark.sees htype hscope hrb rfl
  have hparams : params'.map (Binding.mapSpan .erase) = params.map (Binding.mapSpan .erase) :=
    hparams
  have hbodies : body'.map (Stmt.mapSpan .erase) = body.map (Stmt.mapSpan .erase) :=
    congrArg Prod.fst hbody'
  have herase : FunctionDecl.mapSpan .erase ⟨⟨name.name, s.advance.current.span⟩, params',
      body'.filterMap Stmt.binding?, result, body', s.current.span.merge stop'⟩ =
      FunctionDecl.mapSpan .erase ⟨name, params, body.filterMap Stmt.binding?, result, body,
        span⟩ := by
    simp [FunctionDecl.mapSpan, hparams, hbodies, ← Stmt.bindings_mapSpan, Ident.mapSpan]
  refine ⟨_, _, hread, herase, rfl, ?_⟩
  rw [register_context, hcontext', Signatures.bind_eq_of_erase herase]
  exact congrArg (Context.mk · _) (congrArg Context.env hcontext₁)

theorem moreFunctions {f : FunctionDecl} {fs : List FunctionDecl}
    (h : Readable limits e c .function ks f) (hs : Readable limits e c .functions ks' fs) :
    Readable limits e c .functions (ks ++ ks') (f :: fs) := by
  rintro s rest c' heats hfit ⟨c₁, ht, hts⟩
  obtain ⟨rest₁, heats, heats'⟩ := heats.split
  obtain ⟨f', s₁, hr, hf, rfl, rfl⟩ := h heats hfit ht
  obtain ⟨fs', s', hrs, hfs, hend⟩ := hs heats' (hfit.reads hr) hts
  exact ⟨f' :: fs', s', .moreFunctions hr hrs, List.cons_eq_cons.2 ⟨hf, hfs⟩, hend⟩

end

end Readable

/-- **A well-typed derivation is read off its yield**, as its part up to spans -/
theorem Derives.readable {limits : Limits} {e c : Nat} {n : Nonterminal} {ks : List TokenKind}
    {a : n.Value} (h : Derives e c n ks a) : Readable limits e c n ks a := by
  induction h with
  | number h => exact .number h
  | var => exact .var
  | call _ ih => exact ih.call
  | group _ ih => exact ih.group
  | neg _ ih => exact ih.neg
  | binary hop _ _ ihl ihr =>
    subst hop
    exact ihl.binary ihr
  | assign _ ih => exact ih.assign
  | expression _ ih => exact ih.expression
  | cons _ _ ih ihs => exact ih.cons ihs
  | declaration written _ ih => exact ih.declaration written
  | ret _ ih => exact ih.ret
  | expressionStmt _ ih => exact ih.expressionStmt
  | moreStatements _ _ ih ihs => exact ih.moreStatements ihs
  | block _ ih => exact ih.block
  | conditional _ _ ih ihb => exact ih.conditional ihb
  | conditionalElse _ _ _ ih ihb iha => exact ih.conditionalElse ihb iha
  | param => exact .param
  | function _ _ ihp ihb => exact ihp.function ihb
  | moreFunctions _ _ ih ihs => exact ih.moreFunctions ihs
  -- nothing is left to read
  | noItems => exact fun s rest c' hs _ ht => ⟨[], s, .noItems, rfl, hs.eq_of_nil, ht⟩
  | noStatements =>
    exact fun s rest c' hs _ ht => ⟨[], s, .noStatements, rfl, hs.eq_of_nil, StmtsTypedIn.nil ht⟩
  | noFunctions => exact fun s rest c' hs _ ht => ⟨[], s, .noFunctions, rfl, hs.eq_of_nil, ht⟩
  -- the part is read as one of another kind
  | unsigned _ ih | operand _ ih | unassigned _ ih | branching _ ih | elseBlock _ ih
  | someItems _ ih =>
    intro s rest c' hs hfit ht
    obtain ⟨b, s', hr, hend⟩ := ih hs hfit ht
    exact ⟨b, s', by constructor; exact hr, hend⟩
  | single _ ih =>
    rintro s rest _ hs hfit ⟨c₁, ht, rfl⟩
    obtain ⟨b, s', hr, hb, hend⟩ := ih hs hfit ht
    exact ⟨[b], s', .single hr, congrArg (fun b => [b]) hb, hend⟩
  | elseIf _ ih =>
    intro s rest c' hs hfit ht
    obtain ⟨b, s', hr, hb, hend⟩ := ih hs hfit ht
    exact ⟨_, s', .elseIf hr, Prod.ext (List.cons_eq_cons.2 ⟨hb, rfl⟩) rfl, hend⟩

/-! ### programs -/

theorem FunctionDecl.threads_of_typed {before fs : List FunctionDecl} (Γ : Env)
    (h : ∀ earlier f later, fs = earlier ++ f :: later →
      f.Typed (.ofFunctions (before ++ earlier))) :
    Threads FunctionDecl.TypedIn ⟨Γ, .ofFunctions before⟩ fs ⟨Γ, .ofFunctions (before ++ fs)⟩ := by
  induction fs generalizing before with
  | nil => exact congrArg (Context.mk Γ) (congrArg _ (List.append_nil before).symm)
  | cons f fs ih =>
    have hf := h [] f fs rfl
    rw [List.append_nil] at hf
    have hrest : Threads FunctionDecl.TypedIn ⟨Γ, .ofFunctions (before ++ [f])⟩ fs _ :=
      ih fun earlier g later hfs => by
        simpa using h (f :: earlier) g later (congrArg (f :: ·) hfs)
    rw [List.append_assoc, List.singleton_append] at hrest
    exact ⟨_, ⟨hf, rfl⟩, by rwa [← Signatures.ofFunctions_snoc]⟩

/-- **The parser is complete.**  Tokens that are derived as a well-typed program, within the limits
and up to the end of the file, are accepted, and give that program up to spans. -/
theorem Program.ofTokens_of_derived {e c : Nat} {p : Program} {tokens : List Token}
    {ks : List TokenKind} (hkinds : tokens.map Token.kind = ks ++ [.endOfFile])
    (hd : p.Derived e c ks) (ht : p.Typed) :
    ∃ q, Program.ofTokens ⟨some e, some c⟩ tokens = .ok q ∧ q.SameUpToSpans p := by
  obtain ⟨ts, last, rfl, rfl, hlast⟩ := List.map_eq_append_iff.1 hkinds
  obtain ⟨stop, rfl, hstop⟩ : ∃ stop, last = [stop] ∧ stop.kind = .endOfFile := by
    obtain ⟨stop, rest, rfl, hstop, hrest⟩ := List.map_eq_cons_iff.1 hlast
    exact ⟨stop, by rw [List.map_eq_nil_iff.1 hrest], hstop⟩
  have hfit : (State.initial (ts ++ [stop])).Admitting ⟨some e, some c⟩ e c := by
    constructor <;> rintro n ⟨rfl⟩ <;> exact Nat.le_refl _
  have hthreads : Threads FunctionDecl.TypedIn ⟨.empty, .ofFunctions []⟩ p.functions _ :=
    FunctionDecl.threads_of_typed .empty fun earlier f later h => by
      simpa using ht earlier f later h
  obtain ⟨fs, s, hr, hfs, hrest, -⟩ :=
    hd.readable ⟨ts, rfl, rfl⟩ hfit hthreads
  obtain ⟨span, hok⟩ := Program.ofTokens_of_reads hr (by simp [hrest])
    (by simpa [State.current, hrest] using hstop)
  refine ⟨⟨fs, span⟩, hok, ?_⟩
  exact congrArg (Program.mk · _) hfs

end Wattle
