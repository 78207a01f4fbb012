import Wattle.Proofs.Lowering.Variables
import Wattle.Proofs.Parser.Located
import Wattle.Proofs.Renaming

/-!
# Names of variables are arbitrary

The variables of each function can be given other names, as long as those that differ stay apart.
Two states are related by a renaming if the second one has the tokens of the first one under other
names, and knows of the new name of a variable what the first one knows of the old one
(`Renaming.Relates`).  A part of a function that can be read off the first state can then be read,
under its other names, off the second one (`Reads.renamed`), and the functions that are known are
the same for both.

* `Reads.renamed_functions`       functions are read under other names, each with its own renaming;
* `SourceFile.ofTokens_renamed`   so is a whole program, and its module is renamed with it.
-/

namespace Wattle

open Wattle.Parser State

/-! ### what stays -/

namespace Signature

variable (σ : String → String)

theorem mismatch?_rename (callee : String) (i : Nat) (params : List DataType) (args : List Expr) :
    mismatch? callee i params (args.map (Expr.rename σ)) = mismatch? callee i params args := by
  induction params generalizing args i with
  | nil => rfl
  | cons type params ih =>
    cases args with
    | nil => rfl
    | cons e args => simp only [List.map_cons, mismatch?, Expr.type_rename, Expr.span_rename, ih]

theorem callType_rename (found : Option Signature) (callee : Ident) (args : List Expr) :
    callType found callee (args.map (Expr.rename σ)) = callType found callee args := by
  cases found with
  | none => rfl
  | some signature => simp only [callType, fault?, List.length_map, mismatch?_rename]

end Signature

section
variable {σ : String → String}

theorem Chain.build_rename {l : Chain} {op : BinaryOp} {sign : Span} {left right e : Expr}
    (h : l.build op sign left right = .ok e) :
    l.build op sign (left.rename σ) (right.rename σ) = .ok (e.rename σ) := by
  cases l with
  | comparison =>
    simp only [build, BinaryOp.compare, Expr.type_rename, Expr.span_rename] at h ⊢
    split at h
    · next htype =>
      obtain rfl := Except.ok.inj h
      rw [if_pos htype]
      rfl
    · cases h
  | sum | product =>
    obtain rfl := Except.ok.inj h
    simp only [build, BinaryOp.compute, Expr.type_rename, Expr.span_rename]
    rfl

theorem Parser.declaredType_rename {name new : String} {written : Option DataType} {init : Expr}
    {type : DataType} (h : declaredType name written init = .ok type) :
    declaredType new written (init.rename σ) = .ok type := by
  cases written with
  | none => simpa [declaredType] using h
  | some declared =>
    simp only [declaredType, Expr.type_rename] at h ⊢
    split at h
    · next htype => rwa [if_pos htype]
    · cases h

end

/-! ### renamings of one function -/

/-- new names for the variables of a function, which differ as the old ones do -/
structure Renaming where
  names : List String
  new : String → String
  apart : KeepsApart new names

namespace Renaming

variable {R : Renaming}

/-- what is known of a variable is known of its new name -/
structure Scopes (R : Renaming) (S T : Scope) : Prop where
  known : ∀ x, (S.lookup x).isSome → x ∈ R.names
  lookup : ∀ x ∈ R.names, T.lookup (R.new x) = S.lookup x

theorem Scopes.of_empty {S T : Scope} (hS : S.lookup = Env.empty) (hT : T.lookup = Env.empty) :
    R.Scopes S T := by
  refine ⟨fun x hx => ?_, fun x _ => ?_⟩
  · rw [hS] at hx
    cases hx
  · rw [hS, hT]
    rfl

theorem Scopes.declare {S T : Scope} {x : String} (h : R.Scopes S T) (hx : x ∈ R.names)
    (type : DataType) : R.Scopes (S.declare x type) (T.declare (R.new x) type) := by
  constructor
  · intro y hy
    rw [Scope.lookup_declare] at hy
    split at hy
    · next e => exact e ▸ hx
    · exact h.known y hy
  · intro y hy
    have hsame : R.new y = R.new x ↔ y = x := ⟨R.apart y hy x hx, congrArg R.new⟩
    simp only [Scope.lookup_declare, hsame, h.lookup x hx, h.lookup y hy]

theorem Scopes.declare? {S S' T : Scope} {x : String} {type : DataType} (h : R.Scopes S T)
    (hx : x ∈ R.names) (hd : S.declare? x type = some S') :
    ∃ T', T.declare? (R.new x) type = some T' ∧ R.Scopes S' T' := by
  have hnew := (Scope.declare?_eq_some.1 hd).1
  have hnew' : T.lookup (R.new x) = none := (h.lookup x hx).trans hnew
  refine ⟨T.declare (R.new x) type, ?_, ?_⟩
  · simp [Scope.declare, Scope.declare?, hnew']
  · have hS' : S' = S.declare x type := by rw [Scope.declare, hd, Option.getD_some]
    exact hS' ▸ h.declare hx type

theorem Scopes.declareAll {S S' T : Scope} {bs : List Binding} (h : R.Scopes S T)
    (hbs : ∀ b ∈ bs, b.name.name ∈ R.names) (hd : S.declareAll bs = .ok S') :
    ∃ T', T.declareAll (bs.map (Binding.rename R.new)) = .ok T' ∧ R.Scopes S' T' := by
  induction bs generalizing S T with
  | nil =>
    obtain rfl := Except.ok.inj hd
    exact ⟨T, rfl, h⟩
  | cons b bs ih =>
    obtain ⟨hb, hbs⟩ := List.forall_mem_cons.1 hbs
    rw [Scope.declareAll] at hd
    split at hd
    · cases hd
    · next S₁ hS₁ =>
      obtain ⟨T₁, hT₁, h₁⟩ := h.declare? hb hS₁
      obtain ⟨T', hT', h'⟩ := ih h₁ hbs hd
      refine ⟨T', ?_, h'⟩
      simpa [Scope.declareAll, Binding.rename, hT₁] using hT'

theorem paramScope {bs : List Binding} {scope : Scope} (hbs : ∀ b ∈ bs, b.name.name ∈ R.names)
    (h : Parser.paramScope bs = .ok scope) :
    ∃ scope', Parser.paramScope (bs.map (Binding.rename R.new)) = .ok scope' ∧
      R.Scopes scope scope' := by
  unfold Parser.paramScope at h
  split at h
  · next S hS =>
    obtain rfl := Except.ok.inj h
    have hempty := Scopes.of_empty (R := R) (S := .empty) (T := .empty) rfl rfl
    obtain ⟨T, hT, hscopes⟩ := hempty.declareAll hbs hS
    exact ⟨T, by rw [Parser.paramScope, hT], hscopes⟩
  · cases h

end Renaming

/-! ### states -/

/-- `t` is `s` under other names, but for the variables in scope -/
structure Renames (σ : String → String) (ρ : Nat → String → String) (s t : State) : Prop where
  rest : t.rest = renameRow σ ρ s.rest
  stop : ∃ token ∈ s.rest, token.kind = .endOfFile
  functions : t.functions = s.functions
  depth : ∀ nesting, t.depth nesting = s.depth nesting

namespace Renames

variable {σ : String → String} {ρ : Nat → String → String} {s t : State}

theorem rest_ne_nil (h : Renames σ ρ s t) : s.rest ≠ [] := by
  obtain ⟨token, hmem, -⟩ := h.stop
  exact List.ne_nil_of_mem hmem

theorem rest_eq (h : Renames σ ρ s t) : s.rest = s.current :: s.advance.rest :=
  rest_eq_of_kind rfl h.rest_ne_nil

theorem new_rest (h : Renames σ ρ s t) : t.rest = s.current.rename σ s.ahead ::
    if s.current.kind = .keyword .functionWord then
      renameRow (ρ 0) (fun i => ρ (i + 1)) s.advance.rest
    else renameRow σ ρ s.advance.rest := by
  have hahead : s.ahead = nextKind s.advance.rest := by
    rw [State.ahead, h.rest_eq]
    cases s.advance.rest <;> rfl
  rw [h.rest, hahead]
  exact congrArg (renameRow σ ρ) h.rest_eq

theorem current (h : Renames σ ρ s t) : t.current = s.current.rename σ s.ahead := by
  rw [State.current, h.new_rest]

theorem span (h : Renames σ ρ s t) : t.current.span = s.current.span := by
  rw [h.current]
  rfl

theorem new_rest_ne_nil (h : Renames σ ρ s t) : t.rest ≠ [] := by
  rw [h.new_rest]
  exact List.cons_ne_nil _ _

theorem kind_iff (h : Renames σ ρ s t) {kind : TokenKind}
    (hkind : ∀ name, kind ≠ .identifier name) : t.current.kind = kind ↔ s.current.kind = kind := by
  rw [h.current]
  exact TokenKind.rename_eq_iff hkind

theorem sees (h : Renames σ ρ s t) {kind : TokenKind} (hkind : ∀ name, kind ≠ .identifier name) :
    t.sees kind = s.sees kind := by
  rw [sees_eq h.rest_ne_nil, sees_eq h.new_rest_ne_nil, Bool.eq_iff_iff, beq_iff_eq, beq_iff_eq]
  exact h.kind_iff hkind

/-- the end of the file is not the token that has been read -/
theorem stop_advance (h : Renames σ ρ s t) (hend : s.current.kind ≠ .endOfFile) :
    ∃ token ∈ s.advance.rest, token.kind = .endOfFile := by
  obtain ⟨stop, hmem, hstop⟩ := h.stop
  rw [h.rest_eq] at hmem
  obtain rfl | hmem := List.mem_cons.1 hmem
  · exact absurd hstop hend
  · exact ⟨stop, hmem, hstop⟩

theorem advance (h : Renames σ ρ s t) (hfunction : s.current.kind ≠ .keyword .functionWord)
    (hend : s.current.kind ≠ .endOfFile) : Renames σ ρ s.advance t.advance := by
  refine ⟨?_, h.stop_advance hend, by simpa using h.functions, by simpa using h.depth⟩
  rw [advance_rest t, h.new_rest, List.tail_cons, if_neg hfunction]

/-- behind the first word of a function its own renaming is in force -/
theorem advance_function (h : Renames σ ρ s t) (hk : s.current.kind = .keyword .functionWord) :
    Renames (ρ 0) (fun i => ρ (i + 1)) s.advance t.advance := by
  refine ⟨?_, h.stop_advance (by simp [hk]), by simpa using h.functions, by simpa using h.depth⟩
  rw [advance_rest t, h.new_rest, List.tail_cons, if_pos hk]

end Renames

/-- `t` is `s` under the names of a renaming -/
structure Renaming.Relates (R : Renaming) (ρ : Nat → String → String) (s t : State) : Prop
    extends Renames R.new ρ s t where
  scope : R.Scopes s.scope t.scope

namespace Renaming.Relates

variable {R : Renaming} {ρ : Nat → String → String} {s s₁ t : State}

theorem advance (h : R.Relates ρ s t) (hfunction : s.current.kind ≠ .keyword .functionWord)
    (hend : s.current.kind ≠ .endOfFile) : R.Relates ρ s.advance t.advance :=
  ⟨h.toRenames.advance hfunction hend, by simpa using h.scope⟩

/-- a token that is no name and starts no function stays what it is -/
theorem fixed (h : R.Relates ρ s t) {kind : TokenKind} (hk : s.current.kind = kind)
    (hname : ∀ name, kind ≠ .identifier name) (hfunction : kind ≠ .keyword .functionWord)
    (hend : kind ≠ .endOfFile) : t.current.kind = kind ∧ R.Relates ρ s.advance t.advance :=
  ⟨(h.kind_iff hname).2 hk, h.advance (hk ▸ hfunction) (hk ▸ hend)⟩

theorem symbol (h : R.Relates ρ s t) {sign : Symbol} (hs : s.sees (.symbol sign) = true) :
    t.sees (.symbol sign) = true ∧ R.Relates ρ s.advance t.advance := by
  have hk := kind_of_sees hs (by simp)
  exact ⟨(h.sees (by simp)).trans hs, h.advance (by simp [hk]) (by simp [hk])⟩

theorem keyword (h : R.Relates ρ s t) {word : Keyword} (hs : s.sees (.keyword word) = true)
    (hword : word ≠ .functionWord) :
    t.sees (.keyword word) = true ∧ R.Relates ρ s.advance t.advance := by
  have hk := kind_of_sees hs (by simp)
  exact ⟨(h.sees (by simp)).trans hs, h.advance (by simp [hk, hword]) (by simp [hk])⟩

/-- the type of a binding or a function -/
theorem typeName (h : R.Relates ρ s t) {type : DataType}
    (hk : s.current.kind = .keyword type.keyword) :
    t.current.kind = .keyword type.keyword ∧ R.Relates ρ s.advance t.advance :=
  h.fixed hk (by simp) (by cases type <;> simp [DataType.keyword]) (by simp)

theorem advance_name (h : R.Relates ρ s t) {name : String}
    (hk : s.current.kind = .identifier name) : R.Relates ρ s.advance t.advance :=
  h.advance (by simp [hk]) (by simp [hk])

/-- a name in front of a parenthesis stays -/
theorem calleeName (h : R.Relates ρ s t) {name : Ident}
    (hk : s.current = ⟨.identifier name.name, name.span⟩)
    (ho : s.advance.sees (.symbol .leftParen) = true) :
    t.current = ⟨.identifier name.name, name.span⟩ ∧ R.Relates ρ s.advance t.advance := by
  have hnext := h.advance_name (congrArg Token.kind hk)
  have hahead := (ahead_eq hnext.rest_ne_nil).trans (kind_of_sees ho (by simp))
  refine ⟨?_, hnext⟩
  rw [h.current, hahead, hk, Token.rename, TokenKind.rename_callee]

/-- and every other one is that of a variable -/
theorem variableName (h : R.Relates ρ s t) {name : String} (hk : s.current.kind = .identifier name)
    (hnext : s.advance.current.kind ≠ .symbol .leftParen) :
    t.current.kind = .identifier (R.new name) ∧ R.Relates ρ s.advance t.advance := by
  have h₁ := h.advance_name hk
  rw [← ahead_eq h₁.rest_ne_nil] at hnext
  refine ⟨?_, h₁⟩
  rw [h.current, Token.rename, hk, TokenKind.rename_variable hnext]

theorem declaredName (h : R.Relates ρ s t) {name : Ident}
    (hk : s.current = ⟨.identifier name.name, name.span⟩)
    (hnext : s.advance.current.kind ≠ .symbol .leftParen) :
    t.current = ⟨.identifier (R.new name.name), name.span⟩ ∧
      R.Relates ρ s.advance t.advance := by
  obtain ⟨hkind, h₁⟩ := h.variableName (congrArg Token.kind hk) hnext
  have hspan : t.current.span = name.span := h.span.trans (congrArg Token.span hk)
  exact ⟨by rw [← hkind, ← hspan], h₁⟩

theorem lookup (h : R.Relates ρ s t) {name : String} {type : DataType}
    (hv : s.scope.lookup name = some type) : t.scope.lookup (R.new name) = some type :=
  (h.scope.lookup name (h.scope.known name (by simp [hv]))).trans hv

theorem admits (h : R.Relates ρ s t) {nesting : Nesting} {limit : Option Nat}
    (hs : s.Admits nesting limit) : t.Admits nesting limit := by
  intro n hn
  rw [h.depth]
  exact hs n hn

theorem enter (h : R.Relates ρ s t) (nesting : Nesting) :
    R.Relates ρ (s.enter nesting) (t.enter nesting) :=
  ⟨⟨by simpa using h.rest, by simpa using h.stop, by simpa using h.functions,
    fun other => by simp [h.depth]⟩, by simpa using h.scope⟩

theorem leave (h : R.Relates ρ s t) (nesting : Nesting) :
    R.Relates ρ (s.leave nesting) (t.leave nesting) :=
  ⟨⟨by simpa using h.rest, by simpa using h.stop, by simpa using h.functions,
    fun other => by simp [h.depth]⟩, by simpa using h.scope⟩

theorem withScope {S T : Scope} (h : R.Relates ρ s t) (hscope : R.Scopes S T) :
    R.Relates ρ (s.withScope S) (t.withScope T) :=
  ⟨⟨h.rest, h.stop, h.functions, by simpa using h.depth⟩, hscope⟩

theorem writtenType {written : Option DataType} (h : R.Relates ρ s t)
    (hw : writtenType s = .done written s₁) :
    ∃ t₁, Parser.writtenType t = .done written t₁ ∧ R.Relates ρ s₁ t₁ := by
  obtain ⟨hc, rfl, rfl⟩ | ⟨hc, type, rfl, hk, rfl⟩ := writtenType_done.1 hw
  · exact ⟨t, writtenType_done.2 (.inl ⟨(h.sees (by simp)).trans hc, rfl, rfl⟩), h⟩
  · obtain ⟨hc, h₀⟩ := h.symbol hc
    obtain ⟨hk, h₁⟩ := h₀.typeName hk
    exact ⟨_, writtenType_done.2 (.inr ⟨hc, type, rfl, hk, rfl⟩), h₁⟩

end Renaming.Relates

/-! ### readings under other names -/

namespace Nonterminal

/-- a part of a program under other names -/
@[simp] def rename (σ : String → String) : (n : Nonterminal) → n.Value → n.Value
  | expr _, e => Expr.rename σ e
  | param, b => Binding.rename σ b
  | row n, as | items n, as => List.map (n.rename σ) as
  | statement, s | conditional, s => Stmt.rename σ s
  | statements, ss => List.map (Stmt.rename σ) ss
  | block, b | alternate, b => (List.map (Stmt.rename σ) b.1, b.2)
  | function, f => FunctionDecl.rename σ f
  | functions, fs => List.map (FunctionDecl.rename σ) fs

/-- the parts of one function -/
def Inner : Nonterminal → Prop
  | row n | items n => n.Inner
  | function | functions => False
  | _ => True

/-- what may follow a part whose last token can be a name -/
def Apart : Nonterminal → TokenKind → Prop
  | expr _, k | row _, k | items _, k => k ≠ .symbol .leftParen
  | _, _ => True

theorem apart_of_ne {n : Nonterminal} {k : TokenKind} (h : k ≠ .symbol .leftParen) :
    n.Apart k := by
  cases n <;> first | exact h | trivial

end Nonterminal

/-- what has been read is read in the same way under other names -/
def Renamed (limits : Limits) (n : Nonterminal) (s : State) (a : n.Value) (s' : State) : Prop :=
  ∀ ⦃R : Renaming⦄ ⦃ρ t⦄, R.Relates ρ s t → n.Apart s'.current.kind →
    (∀ b ∈ n.declared a, b.name.name ∈ R.names) →
      ∃ t', Reads limits n t (n.rename R.new a) t' ∧ R.Relates ρ s' t'

namespace Renamed

section
variable {limits : Limits} {n : Nonterminal} {s s' s₁ s₂ : State}
  {e left right value : Expr} {type : DataType} {l : Chain}

/-- a part is read up to a symbol behind it, and the symbol with it -/
theorem up_to {R : Renaming} {ρ : Nat → String → String} {t : State} {a : n.Value} {sign : Symbol}
    (h : Renamed limits n s a s') (hst : R.Relates ρ s t)
    (hdeclared : ∀ b ∈ n.declared a, b.name.name ∈ R.names)
    (hs : s'.sees (.symbol sign) = true) (hsign : sign ≠ .leftParen) :
    ∃ t', Reads limits n t (n.rename R.new a) t' ∧ t'.sees (.symbol sign) = true ∧
      t'.current.span = s'.current.span ∧ R.Relates ρ s'.advance t'.advance := by
  have hnext : s'.current.kind ≠ .symbol .leftParen := by
    rw [kind_of_sees hs (by simp)]
    simpa using hsign
  obtain ⟨t', hread, hst'⟩ := h hst (Nonterminal.apart_of_ne hnext) hdeclared
  obtain ⟨hs, hst''⟩ := hst'.symbol hs
  exact ⟨t', hread, hs, hst'.span, hst''⟩

/-! ### expressions -/

theorem number {lexeme : String} (hk : s.current.kind = .number lexeme)
    (he : Expr.ofLexeme lexeme s.current.span = .ok e) :
    Renamed limits (.expr .primary) s e s.advance := by
  intro R ρ t hst _ _
  obtain ⟨hk, hst'⟩ := hst.fixed hk (by simp) (by simp) (by simp)
  rw [← hst.span] at he
  obtain ⟨number, type, rfl, -⟩ := Literal.of_ofLexeme he
  exact ⟨_, .number hk he, hst'⟩

theorem var {name : String} (hk : s.current.kind = .identifier name)
    (hv : s.scope.lookup name = some type) :
    Renamed limits (.expr .primary) s (Expr.var name type s.current.span) s.advance := by
  intro R ρ t hst hnext _
  obtain ⟨hk, hst'⟩ := hst.variableName hk hnext
  rw [← hst.span]
  exact ⟨_, .var hk (hst.lookup hv), hst'⟩

theorem call {callee : Ident} {args : List Expr}
    (hk : s.current = ⟨.identifier callee.name, callee.span⟩)
    (ho : s.advance.sees (.symbol .leftParen) = true)
    (h : Renamed limits (.items (.expr .expression)) s.advance.advance args s')
    (hc : s'.sees (.symbol .rightParen) = true)
    (ht : Signature.callType (s'.advance.functions.get? callee.name) callee args = .ok type) :
    Renamed limits (.expr .primary) s
      (Expr.call callee args type (callee.span.merge s'.current.span)) s'.advance := by
  intro R ρ t hst _ _
  obtain ⟨hk, hst₁⟩ := hst.calleeName hk ho
  obtain ⟨ho, hst₂⟩ := hst₁.symbol ho
  obtain ⟨t', hread, hc, hspan, hst'⟩ :=
    h.up_to hst₂ (by simp [Nonterminal.declared]) hc (by simp)
  rw [← hst'.functions, ← Signature.callType_rename R.new] at ht
  rw [← hspan]
  refine ⟨_, ?_, hst'⟩
  simp only [Nonterminal.rename, Expr.rename, Expr.argsRename_eq_map]
  exact .call hk ho hread hc ht

theorem group (hk : s.current.kind = .symbol .leftParen)
    (h : Renamed limits (.expr .expression) s.advance e s')
    (hc : s'.sees (.symbol .rightParen) = true) :
    Renamed limits (.expr .primary) s (e.withSpan (s.current.span.merge s'.current.span))
      s'.advance := by
  intro R ρ t hst _ hdeclared
  obtain ⟨hk, hst₁⟩ := hst.fixed hk (by simp) (by simp) (by simp)
  obtain ⟨t', hread, hc, hspan, hst'⟩ := h.up_to hst₁ hdeclared hc (by simp)
  rw [← hst.span, ← hspan]
  refine ⟨_, ?_, hst'⟩
  rw [Nonterminal.rename, Expr.rename_withSpan]
  exact .group hk hread hc

theorem neg (hm : s.sees (.symbol .minus) = true)
    (h : Renamed limits (.expr .primary) s.advance e s') :
    Renamed limits (.expr .unary) s (Expr.neg e e.type (s.current.span.merge e.span)) s' := by
  intro R ρ t hst hnext hdeclared
  obtain ⟨hm, hst₁⟩ := hst.symbol hm
  obtain ⟨t', hread, hst'⟩ := h hst₁ hnext hdeclared
  rw [← hst.span]
  refine ⟨t', ?_, hst'⟩
  rw [Nonterminal.rename, Expr.rename, ← Expr.type_rename R.new, ← Expr.span_rename R.new]
  exact .neg hm hread

theorem binary {op : BinaryOp} (hop : op.chain = l)
    (h : Renamed limits (.expr (.chain l)) s left s₁) (hk : s₁.current.kind = .symbol op.symbol)
    (h' : Renamed limits (.expr l.operand) s₁.advance right s')
    (he : l.build op s₁.current.span left right = .ok e) :
    Renamed limits (.expr (.chain l)) s e s' := by
  intro R ρ t hst hnext hdeclared
  have hsymbol : op.symbol ≠ .leftParen := by cases op <;> simp [BinaryOp.symbol]
  obtain ⟨t₁, hread, hst₁⟩ := h hst (Nonterminal.apart_of_ne (by simpa [hk] using hsymbol))
    hdeclared
  rw [← hst₁.span] at he
  obtain ⟨hk, hst₂⟩ := hst₁.fixed hk (by simp) (by simp) (by simp)
  obtain ⟨t', hread', hst'⟩ := h' hst₂ hnext hdeclared
  exact ⟨t', .binary hop hread hk hread' (Chain.build_rename he), hst'⟩

theorem assign {name : String} {span : Span} (hg : s.sees (.symbol .leftParen) = false)
    (h : Renamed limits (.expr (.chain .comparison)) s (Expr.var name type span) s₁)
    (ha : s₁.sees (.symbol .assign) = true)
    (h' : Renamed limits (.expr .expression) s₁.advance value s') (htype : value.type = type) :
    Renamed limits (.expr .assignment) s
      (Expr.assign ⟨name, span⟩ value type (span.merge value.span)) s' := by
  intro R ρ t hst hnext hdeclared
  obtain ⟨t₁, hread, ha, -, hst₁⟩ := h.up_to hst hdeclared ha (by simp)
  obtain ⟨t', hread', hst'⟩ := h' hst₁ hnext hdeclared
  rw [← hst.sees (by simp)] at hg
  refine ⟨t', ?_, hst'⟩
  rw [Nonterminal.rename, Expr.rename, ← Expr.span_rename R.new value]
  exact .assign hg hread ha hread' ((Expr.type_rename ..).trans htype)

theorem expression (hd : s.Admits .expression limits.expressions)
    (h : Renamed limits (.expr .assignment) (s.enter .expression) e s') :
    Renamed limits (.expr .expression) s e (s'.leave .expression) := by
  intro R ρ t hst hnext hdeclared
  rw [leave_current] at hnext
  obtain ⟨t', hread, hst'⟩ := h (hst.enter _) hnext hdeclared
  exact ⟨_, .expression (hst.admits hd) hread, hst'.leave _⟩

/-! ### rows -/

theorem single {a : n.Value} (h : Renamed limits n s a s') : Renamed limits (.row n) s [a] s' := by
  intro R ρ t hst hnext hdeclared
  obtain ⟨t', hread, hst'⟩ := h hst (Nonterminal.apart_of_ne hnext)
    (by simpa [Nonterminal.declared] using hdeclared)
  exact ⟨t', .single hread, hst'⟩

theorem cons {a : n.Value} {as : List n.Value} (h : Renamed limits n s a s₁)
    (hc : s₁.sees (.symbol .comma) = true) (hs : Renamed limits (.row n) s₁.advance as s') :
    Renamed limits (.row n) s (a :: as) s' := by
  intro R ρ t hst hnext hdeclared
  simp only [Nonterminal.declared, List.flatMap_cons, List.forall_mem_append] at hdeclared
  obtain ⟨t₁, hread, hc, -, hst₁⟩ := h.up_to hst hdeclared.1 hc (by simp)
  obtain ⟨t', hreads, hst'⟩ := hs hst₁ hnext hdeclared.2
  exact ⟨t', .cons hread hc hreads, hst'⟩

/-! ### statements -/

/-- a colon or an equals sign follows the name of a variable -/
theorem behind_name {written : Option DataType} (hnote : writtenType s = .done written s₁)
    (ha : s₁.sees (.symbol .assign) = true) : s.current.kind ≠ .symbol .leftParen := by
  obtain ⟨-, -, rfl⟩ | ⟨hc, -⟩ := writtenType_done.1 hnote
  · simp [kind_of_sees ha (by simp)]
  · simp [kind_of_sees hc (by simp)]

theorem declaration {kind : VarKind} {written : Option DataType} {init : Expr} {name : Ident}
    (hk : s.current.kind = .keyword kind.keyword)
    (hname : s.advance.current = ⟨.identifier name.name, name.span⟩)
    (hnew : s.scope.lookup name.name = none)
    (hnote : writtenType s.advance.advance = .done written s₁)
    (ha : s₁.sees (.symbol .assign) = true)
    (h : Renamed limits (.expr .expression) s₁.advance init s₂)
    (ht : declaredType name.name written init = .ok type)
    (hsemi : s₂.sees (.symbol .semicolon) = true) :
    Renamed limits .statement s
      (Stmt.declaration kind name type init kind.isConst (s.current.span.merge s₂.current.span))
      (s₂.advance.withScope (s₂.scope.declare name.name type)) := by
  intro R ρ t hst _ hdeclared
  have hmem : name.name ∈ R.names := hdeclared ⟨name, type⟩ (List.mem_singleton.2 rfl)
  have hword : kind.keyword ≠ .functionWord := by cases kind <;> simp [VarKind.keyword]
  obtain ⟨hk, hst₀⟩ := hst.fixed hk (by simp) (by simpa using hword) (by simp)
  obtain ⟨hname, hst₁⟩ := hst₀.declaredName hname (behind_name hnote ha)
  rw [← hst.scope.lookup _ hmem] at hnew
  obtain ⟨t₁, hnote, hst₂⟩ := hst₁.writtenType hnote
  obtain ⟨ha, hst₃⟩ := hst₂.symbol ha
  obtain ⟨t₂, hread, hsemi, hspan, hst'⟩ := h.up_to hst₃ (List.forall_mem_nil _) hsemi (by simp)
  have hscopes := hst'.scope.declare hmem type
  rw [advance_scope, advance_scope] at hscopes
  rw [← hst.span, ← hspan]
  refine ⟨_, ?_, hst'.withScope hscopes⟩
  rw [Nonterminal.rename, Stmt.rename]
  exact .declaration hk hname hnew hnote ha hread (declaredType_rename ht) hsemi

theorem ret (hk : s.current.kind = .keyword .returnWord)
    (h : Renamed limits (.expr .expression) s.advance e s')
    (hsemi : s'.sees (.symbol .semicolon) = true) :
    Renamed limits .statement s (Stmt.ret e (s.current.span.merge s'.current.span))
      s'.advance := by
  intro R ρ t hst _ _
  obtain ⟨hk, hst₁⟩ := hst.fixed hk (by simp) (by simp) (by simp)
  obtain ⟨t', hread, hsemi, hspan, hst'⟩ := h.up_to hst₁ nofun hsemi (by simp)
  rw [← hst.span, ← hspan]
  exact ⟨_, .ret hk hread hsemi, hst'⟩

theorem expressionStmt (h : Renamed limits (.expr .expression) s e s')
    (hsemi : s'.sees (.symbol .semicolon) = true) :
    Renamed limits .statement s (Stmt.expression e (e.span.merge s'.current.span))
      s'.advance := by
  intro R ρ t hst _ _
  obtain ⟨t', hread, hsemi, hspan, hst'⟩ := h.up_to hst nofun hsemi (by simp)
  rw [← hspan]
  refine ⟨_, ?_, hst'⟩
  rw [Nonterminal.rename, Stmt.rename, ← Expr.span_rename R.new e]
  exact .expressionStmt hread hsemi

theorem moreStatements {a : Stmt} {as : List Stmt} (h : Renamed limits .statement s a s₁)
    (hs : Renamed limits .statements s₁ as s') : Renamed limits .statements s (a :: as) s' := by
  intro R ρ t hst _ hdeclared
  simp only [Nonterminal.declared, Stmt.branchDeclarations, List.forall_mem_append] at hdeclared
  obtain ⟨t₁, hread, hst₁⟩ := h hst trivial hdeclared.1
  obtain ⟨t', hreads, hst'⟩ := hs hst₁ trivial hdeclared.2
  exact ⟨t', .moreStatements hread hreads, hst'⟩

theorem block {ss : List Stmt} (ho : s.sees (.symbol .leftBrace) = true)
    (h : Renamed limits .statements s.advance ss s')
    (hc : s'.sees (.symbol .rightBrace) = true) :
    Renamed limits .block s (ss, s.current.span.merge s'.current.span) s'.advance := by
  intro R ρ t hst _ hdeclared
  obtain ⟨ho, hst₁⟩ := hst.symbol ho
  obtain ⟨t', hread, hst'⟩ := h hst₁ trivial hdeclared
  obtain ⟨hc, hst''⟩ := hst'.symbol hc
  rw [← hst.span, ← hst'.span]
  exact ⟨_, .block ho hread hc, hst''⟩

/-! ### conditionals -/

/-- the head of a conditional, up to its first branch -/
theorem head {R : Renaming} {ρ : Nat → String → String} {t : State}
    (hk : s.current.kind = .keyword .ifWord)
    (ho : (s.enter .conditional).advance.sees (.symbol .leftParen) = true)
    (h : Renamed limits (.expr .expression) (s.enter .conditional).advance.advance e s₁)
    (hc : s₁.sees (.symbol .rightParen) = true) (hst : R.Relates ρ s t) :
    t.current.kind = .keyword .ifWord ∧
      (t.enter .conditional).advance.sees (.symbol .leftParen) = true ∧
      ∃ t₁, Reads limits (.expr .expression) (t.enter .conditional).advance.advance
          (e.rename R.new) t₁ ∧
        t₁.sees (.symbol .rightParen) = true ∧ R.Relates ρ s₁.advance t₁.advance := by
  rw [← enter_current s .conditional] at hk
  obtain ⟨hk, hst₀⟩ := (hst.enter .conditional).fixed hk (by simp) (by simp) (by simp)
  obtain ⟨ho, hst₁⟩ := hst₀.symbol ho
  obtain ⟨t₁, hread, hc, -, hst₂⟩ := h.up_to hst₁ nofun hc (by simp)
  rw [enter_current] at hk
  exact ⟨hk, ho, t₁, hread, hc, hst₂⟩

theorem conditional {ss : List Stmt} {stop : Span} (hd : s.Admits .conditional limits.conditionals)
    (hk : s.current.kind = .keyword .ifWord)
    (ho : (s.enter .conditional).advance.sees (.symbol .leftParen) = true)
    (h : Renamed limits (.expr .expression) (s.enter .conditional).advance.advance e s₁)
    (hc : s₁.sees (.symbol .rightParen) = true) (ht : e.type = .int)
    (hb : Renamed limits .block s₁.advance (ss, stop) s') :
    Renamed limits .conditional s (Stmt.conditional e ss none (s.current.span.merge stop))
      (s'.leave .conditional) := by
  intro R ρ t hst _ hdeclared
  simp only [Nonterminal.declared, Stmt.declarations, Stmt.alternateDeclarations,
    List.append_nil] at hdeclared
  obtain ⟨hk, ho, t₁, hread, hc, hst₁⟩ := head hk ho h hc hst
  obtain ⟨t', hblock, hst'⟩ := hb hst₁ trivial hdeclared
  rw [← hst.span]
  refine ⟨_, ?_, hst'.leave _⟩
  rw [Nonterminal.rename, Stmt.rename, Stmt.branchRename_eq_map]
  exact .conditional (hst.admits hd) hk ho hread hc ((Expr.type_rename ..).trans ht) hblock

theorem conditionalElse {ss ss' : List Stmt} {stop stop' : Span}
    (hd : s.Admits .conditional limits.conditionals) (hk : s.current.kind = .keyword .ifWord)
    (ho : (s.enter .conditional).advance.sees (.symbol .leftParen) = true)
    (h : Renamed limits (.expr .expression) (s.enter .conditional).advance.advance e s₁)
    (hc : s₁.sees (.symbol .rightParen) = true) (ht : e.type = .int)
    (hb : Renamed limits .block s₁.advance (ss, stop) s₂)
    (he : s₂.sees (.keyword .elseWord) = true)
    (ha : Renamed limits .alternate s₂.advance (ss', stop') s') :
    Renamed limits .conditional s
      (Stmt.conditional e ss (some ss') ((s.current.span.merge stop).merge stop'))
      (s'.leave .conditional) := by
  intro R ρ t hst _ hdeclared
  simp only [Nonterminal.declared, Stmt.declarations, Stmt.alternateDeclarations,
    List.forall_mem_append] at hdeclared
  obtain ⟨hk, ho, t₁, hread, hc, hst₁⟩ := head hk ho h hc hst
  obtain ⟨t₂, hblock, hst₂⟩ := hb hst₁ trivial hdeclared.1
  obtain ⟨he, hst₃⟩ := hst₂.keyword he (by simp)
  obtain ⟨t', hother, hst'⟩ := ha hst₃ trivial hdeclared.2
  rw [← hst.span]
  refine ⟨_, ?_, hst'.leave _⟩
  rw [Nonterminal.rename, Stmt.rename, Stmt.alternateRename, Stmt.branchRename_eq_map,
    Stmt.branchRename_eq_map]
  exact .conditionalElse (hst.admits hd) hk ho hread hc ((Expr.type_rename ..).trans ht) hblock
    he hother

theorem elseIf {a : Stmt} (h : Renamed limits .conditional s a s') :
    Renamed limits .alternate s ([a], a.span) s' := by
  intro R ρ t hst _ hdeclared
  obtain ⟨t', hread, hst'⟩ := h hst trivial
    (by simpa [Nonterminal.declared, Stmt.branchDeclarations] using hdeclared)
  refine ⟨t', ?_, hst'⟩
  rw [Nonterminal.rename, ← Stmt.span_rename R.new a]
  exact .elseIf hread

/-! ### parameters -/

theorem param {b : Binding} (hname : s.current = ⟨.identifier b.name.name, b.name.span⟩)
    (hc : s.advance.sees (.symbol .colon) = true)
    (ht : s.advance.advance.current.kind = .keyword b.type.keyword) :
    Renamed limits .param s b s.advance.advance.advance := by
  intro R ρ t hst _ _
  obtain ⟨hname, hst₁⟩ := hst.declaredName hname (by simp [kind_of_sees hc (by simp)])
  obtain ⟨hc, hst₂⟩ := hst₁.symbol hc
  obtain ⟨ht, hst₃⟩ := hst₂.typeName ht
  exact ⟨_, .param (b := b.rename R.new) hname hc ht, hst₃⟩

end

end Renamed

/-- **A part of a function is read in the same way under other names**, if the names of its
variables stay apart. -/
theorem Reads.renamed {limits : Limits} {n : Nonterminal} {s s' : State} {a : n.Value}
    (h : Reads limits n s a s') (hn : n.Inner) : Renamed limits n s a s' := by
  induction h with
  | number hk he => exact .number hk he
  | var hk hv => exact .var hk hv
  | call hk ho _ hc ht ih => exact .call hk ho (ih trivial) hc ht
  | group hk _ hc ih => exact .group hk (ih trivial) hc
  | neg hm _ ih => exact .neg hm (ih trivial)
  | binary hop _ hk _ he ih ih' => exact .binary hop (ih trivial) hk (ih' trivial) he
  | assign hg _ ha _ htype ih ih' => exact .assign hg (ih trivial) ha (ih' trivial) htype
  | expression hd _ ih => exact .expression hd (ih trivial)
  | single _ ih => exact .single (ih hn)
  | cons _ hc _ ih ihs => exact .cons (ih hn) hc (ihs hn)
  | declaration hk hname hnew hnote ha _ ht hsemi ih =>
    exact .declaration hk hname hnew hnote ha (ih trivial) ht hsemi
  | ret hk _ hsemi ih => exact .ret hk (ih trivial) hsemi
  | expressionStmt _ hsemi ih => exact .expressionStmt (ih trivial) hsemi
  | moreStatements _ _ ih ihs => exact .moreStatements (ih trivial) (ihs trivial)
  | block ho _ hc ih => exact .block ho (ih trivial) hc
  | conditional hd hk ho _ hc ht _ ih ihb =>
    exact .conditional hd hk ho (ih trivial) hc ht (ihb trivial)
  | conditionalElse hd hk ho _ hc ht _ he _ ih ihb iha =>
    exact .conditionalElse hd hk ho (ih trivial) hc ht (ihb trivial) he (iha trivial)
  | elseIf _ ih => exact .elseIf (ih trivial)
  | param hname hc ht => exact .param hname hc ht
  -- nothing is read
  | noItems => exact fun R ρ t hst _ _ => ⟨t, .noItems, hst⟩
  | noStatements => exact fun R ρ t hst _ _ => ⟨t, .noStatements, hst⟩
  -- the part is read as one of another kind
  | unsigned _ ih | operand _ ih | unassigned _ ih | branching _ ih | elseBlock _ ih =>
    intro R ρ t hst hnext hdeclared
    obtain ⟨t', hread, hst'⟩ := ih trivial hst hnext hdeclared
    exact ⟨t', by constructor; exact hread, hst'⟩
  | someItems _ ih =>
    intro R ρ t hst hnext hdeclared
    obtain ⟨t', hread, hst'⟩ := ih hn hst hnext hdeclared
    exact ⟨t', .someItems hread, hst'⟩
  | function | noFunctions | moreFunctions => exact absurd hn id

/-! ### functions -/

/-- a function leaves the variables in scope as they were around it -/
theorem Reads.env_of_function {limits : Limits} {s s' : State} {f : FunctionDecl}
    (h : Reads limits .function s f s') : s'.scope.lookup = s.scope.lookup :=
  congrArg Context.env h.typed.2

section
variable {limits : Limits} {σ : String → String} {ρ : Nat → String → String} {s s' t : State}

theorem Reads.renamed_function {f : FunctionDecl} (h : Reads limits .function s f s')
    (hst : Renames σ ρ s t) (hs : s.scope.lookup = Env.empty) (ht : t.scope.lookup = Env.empty)
    (hapart : KeepsApart (ρ 0) (f.variables.map (·.name.name))) :
    ∃ t', Reads limits .function t (f.rename (ρ 0)) t' ∧
      Renames (ρ 0) (fun i => ρ (i + 1)) s' t' := by
  let R : Renaming := ⟨f.variables.map (·.name.name), ρ 0, hapart⟩
  have hvariables : ∀ b ∈ f.variables, b.name.name ∈ R.names := fun b hb =>
    List.mem_map.2 ⟨b, hb, rfl⟩
  cases h with
  | @function _ s₁ params result scope body stop s' name hk hname ho hp hc hm htype hscope hb _
      hf =>
    have hparams : ∀ b ∈ params, b.name.name ∈ R.names := fun b hb =>
      hvariables b (by simp [FunctionDecl.variables_eq, hf, hb])
    have hbody : ∀ b ∈ Stmt.branchDeclarations body, b.name.name ∈ R.names := fun b hb =>
      hvariables b (by simp [FunctionDecl.variables_eq, hf, hb])
    have hst₀ : R.Relates (fun i => ρ (i + 1)) s.advance t.advance :=
      ⟨hst.advance_function (kind_of_sees hk (by simp)),
        .of_empty (by simpa using hs) (by simpa using ht)⟩
    obtain ⟨hname, hst₁⟩ := hst₀.calleeName hname ho
    obtain ⟨ho, hst₂⟩ := hst₁.symbol ho
    obtain ⟨t₁, hp, hc, -, hst₃⟩ := Renamed.up_to (hp.renamed trivial) hst₂
      (by simpa [Nonterminal.declared] using hparams) hc (by simp)
    obtain ⟨hm, hst₄⟩ := hst₃.symbol hm
    obtain ⟨htype, hst₅⟩ := hst₄.typeName htype
    obtain ⟨scope', hscope', hscopes⟩ := Renaming.paramScope hparams hscope
    obtain ⟨t', hb, hst'⟩ := hb.renamed trivial (hst₅.withScope hscopes) trivial hbody
    rw [← hst.sees (by simp)] at hk
    have hf' : f.rename (ρ 0) = ⟨name, params.map (Binding.rename (ρ 0)),
        (body.map (Stmt.rename (ρ 0))).filterMap Stmt.binding?, result,
        body.map (Stmt.rename (ρ 0)), t.current.span.merge stop⟩ := by
      rw [hf, FunctionDecl.rename, Stmt.bindings_rename, hst.span]
    refine ⟨_, .function hk hname ho hp hc hm htype hscope' hb hf', ?_⟩
    refine ⟨hst'.rest, hst'.stop, ?_, by simpa using hst'.depth⟩
    rw [withFunctions_functions, withFunctions_functions, hst'.functions,
      FunctionDecl.signature_rename]
    rfl

/-- **Functions are read in the same way under other names**, each with its own renaming. -/
theorem Reads.renamed_functions {fs : List FunctionDecl} (h : Reads limits .functions s fs s')
    (hst : Renames σ ρ s t) (hs : s.scope.lookup = Env.empty) (ht : t.scope.lookup = Env.empty)
    (hapart : ∀ k f, fs[k]? = some f → KeepsApart (ρ k) (f.variables.map (·.name.name))) :
    ∃ t' σ' ρ', Reads limits .functions t (fs.mapIdx fun i f => f.rename (ρ i)) t' ∧
      Renames σ' ρ' s' t' := by
  induction fs generalizing s t σ ρ with
  | nil =>
    cases h
    exact ⟨t, σ, ρ, .noFunctions, hst⟩
  | cons f fs ih =>
    cases h with
    | moreFunctions hf hfs =>
      obtain ⟨t₁, hf', hst₁⟩ := hf.renamed_function hst hs ht (hapart 0 f rfl)
      obtain ⟨t', σ', ρ', hfs', hst'⟩ := ih hfs hst₁ (hf.env_of_function.trans hs)
        (hf'.env_of_function.trans ht) fun k g hg => hapart (k + 1) g hg
      refine ⟨t', σ', ρ', ?_, hst'⟩
      rw [List.mapIdx_cons]
      exact .moreFunctions hf' hfs'

end

/-! ### programs -/

/-- a program under other names is accepted, in the same spans -/
theorem Program.ofTokens_rename {E C : Nat} {ρ : Nat → String → String} {tokens : List Token}
    {p : Program} (h : Program.ofTokens ⟨some E, some C⟩ tokens = .ok p)
    (hstop : ∃ token ∈ tokens, token.kind = .endOfFile)
    (hapart : ∀ k f, p.functions[k]? = some f →
      KeepsApart (ρ k) (f.variables.map (·.name.name))) :
    Program.ofTokens ⟨some E, some C⟩ (renameTokens ρ tokens) = .ok (p.rename ρ) := by
  obtain ⟨s, hrun, hspan⟩ := run_span h
  have hst : Renames id ρ (initial tokens) (initial (renameTokens ρ tokens)) :=
    ⟨rfl, hstop, rfl, fun _ => rfl⟩
  obtain ⟨t, σ, ρ', hread, hst'⟩ := (functions_sound _ _ hrun).renamed_functions hst rfl rfl hapart
  have hend : t.current.kind = .endOfFile := by
    have hsees := functions_stop hrun
    rw [sees_eq hst'.rest_ne_nil, beq_iff_eq] at hsees
    exact (hst'.kind_iff (by simp)).2 hsees
  rw [ofTokens_eq_of_reads hread hst'.new_rest_ne_nil hend, hst.span, hst'.span, ← hspan]
  rfl

/-- **Names of variables are arbitrary.**  If the variables of each function are given names that
stay apart, in every token of a variable, then the program is accepted as it was, and it is the old
one under these names.  In its text the parameters, the variables and the accesses to them have the
new names, and all else is as it was.  So the variables of different functions, and a variable and a
function that have the same name, have nothing to do with each other. -/
theorem SourceFile.ofTokens_renamed {file : SourceFile} {tokens : List Token} {p : Program}
    (htokens : file.tokens = .ok tokens) (hp : Program.ofTokens .standard tokens = .ok p)
    {ρ : Nat → String → String} (hapart : ∀ k f, p.functions[k]? = some f →
      KeepsApart (ρ k) (f.variables.map (·.name.name))) :
    Program.ofTokens .standard (renameTokens ρ tokens) = .ok (p.rename ρ) ∧
      ∀ options, (p.rename ρ).moduleText options = ((p.lower options).rename ρ).text := by
  obtain ⟨ts, stop, rfl, hstop, -⟩ := tokens_eq_snoc htokens
  refine ⟨Program.ofTokens_rename hp ⟨stop, by simp, hstop⟩ hapart, fun options => ?_⟩
  rw [Program.moduleText, Program.lower_rename]

namespace SourceFile

/-- variables that are called like the functions, and like variables of the other function -/
def namesakeFile : SourceFile := ⟨"namesakes",
  "function f(f: Int, a: Int): Int \x7b let b = a - f; return b; \x7d
function a(f: Double): Double \x7b
  if (1) \x7b let a = f(1, 2) * 0.5; f = a; \x7d
  return f;
\x7d"⟩

/-- the names change places, in each function in another way -/
def namesakeNames : Nat → String → String
  | 0, "f" => "a"
  | 0, "a" => "b"
  | 0, "b" => "f"
  | 1, "f" => "a"
  | 1, "a" => "f"
  | _, name => name

theorem namesakeFile_renamed : ∃ tokens p, namesakeFile.tokens = .ok tokens ∧
    Program.ofTokens .standard tokens = .ok p ∧
    Program.ofTokens .standard (renameTokens namesakeNames tokens) =
      .ok (p.rename namesakeNames) ∧
    (∀ options, (p.rename namesakeNames).moduleText options =
      ((p.lower options).rename namesakeNames).text) ∧
    (p.rename namesakeNames).functions.map (fun f => (f.name.name, f.callees,
      f.variables.map (·.name.name))) = [("f", [], ["a", "b", "f"]), ("a", ["f"], ["a", "f"])] := by
  have hcheck : (namesakeFile.tokens.toOption.bind fun tokens =>
      (Program.ofTokens .standard tokens).toOption.map fun p =>
        (p.functions.map fun f => f.variables.map (·.name.name),
          (p.rename namesakeNames).functions.map fun f => (f.name.name, f.callees,
            f.variables.map (·.name.name)))) =
      some ([["f", "a", "b"], ["f", "a"]],
        [("f", [], ["a", "b", "f"]), ("a", ["f"], ["a", "f"])]) := by decide +kernel
  cases htokens : namesakeFile.tokens with
  | error fault =>
    rw [htokens] at hcheck
    cases hcheck
  | ok tokens =>
    rw [htokens, Except.toOption, Option.bind_some] at hcheck
    cases hp : Program.ofTokens .standard tokens with
    | error fault =>
      rw [hp] at hcheck
      cases hcheck
    | ok p =>
      rw [hp] at hcheck
      obtain ⟨hnames, hrenamed⟩ := Prod.mk.inj (Option.some.inj hcheck)
      have hapart : ∀ k f, p.functions[k]? = some f →
          KeepsApart (namesakeNames k) (f.variables.map (·.name.name)) := by
        intro k f hf
        have hk : [["f", "a", "b"], ["f", "a"]][k]? = some (f.variables.map (·.name.name)) := by
          rw [← hnames, List.getElem?_map, hf, Option.map_some]
        rcases k with _ | _ | k
        · exact Option.some.inj hk ▸ by decide
        · exact Option.some.inj hk ▸ by decide
        · cases hk
      obtain ⟨haccepted, htext⟩ := ofTokens_renamed htokens hp hapart
      exact ⟨tokens, p, rfl, hp, haccepted, htext, hrenamed⟩

end SourceFile

end Wattle
