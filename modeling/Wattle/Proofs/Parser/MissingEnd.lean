import Wattle.Proofs.Parser.Locality

/-!
# A missing end of the file

Tokens without an end of the file are read as with one behind them, but for one case.  Behind the
last token the tests for a kind see the end of the file, while the cursor still shows the last
token.  The two are told apart only where an expression has to start there: every other last token
is refused as the end of the file would be, with the same code, but an opening parenthesis is taken
again and again, until the limit on the nesting is reached (`Program.ofTokens_ended`).

`Same` relates the two outcomes, and `Alike` the two runs of a parser, with a lemma for each
parser.  What a parser may rely on is where the tokens can be used up: an expression is not started
behind a number or a name (`Ready`), and does not end behind an operator (`Closed`).
-/

namespace Wattle

open Wattle.Parser

/-- the last tokens of expressions -/
def TokenKind.closes : TokenKind → Bool
  | number _ | identifier _ | symbol .rightParen => true
  | _ => false

/-- the tokens that are expressions by themselves -/
def TokenKind.isAtom : TokenKind → Bool
  | number _ | identifier _ => true
  | _ => false

theorem Chain.op?_of_closes {l : Chain} {k : TokenKind} (h : k.closes = true) : l.op? k = none := by
  cases hop : l.op? k with
  | none => rfl
  | some op =>
    rw [(Chain.of_op? hop).2] at h
    cases op <;> cases h

namespace Parser

open State

/-! ### the end of the file behind the tokens -/

namespace State

/-- the state with the end of the file behind its tokens -/
def ended (span : Span) (s : State) : State := s.withRest (s.rest ++ [⟨.endOfFile, span⟩])

variable {span : Span} {s : State}

theorem ended_sees (kind : TokenKind) : (s.ended span).sees kind = s.sees kind := by
  cases hs : s.rest with
  | nil => simp [State.sees, ended, withRest, hs, Bool.beq_comm]
  | cons t rest => simp [State.sees, ended, withRest, hs]

theorem ended_ahead : (s.ended span).ahead = s.ahead := by
  match hs : s.rest with
  | [] | [_] | _ :: _ :: _ => simp [State.ahead, ended, withRest, hs]

theorem ended_current (hr : s.rest ≠ []) : (s.ended span).current = s.current := by
  cases hs : s.rest with
  | nil => exact absurd hs hr
  | cons t rest => simp [State.current, ended, withRest, hs]

theorem ended_current_end (hr : s.rest = []) : (s.ended span).current = ⟨.endOfFile, span⟩ := by
  simp [State.current, ended, withRest, hr]

theorem current_end (hr : s.rest = []) : s.current = s.last := by
  simp [State.current, hr]

theorem ended_advance (hr : s.rest ≠ []) : (s.ended span).advance = s.advance.ended span := by
  cases hs : s.rest with
  | nil => exact absurd hs hr
  | cons t rest => simp [State.advance, ended, withRest, hs]

theorem advance_end (hr : s.rest = []) : s.advance = s := by
  simp [State.advance, hr]

theorem advance_last (hr : s.rest ≠ []) : s.advance.last = s.current := by
  cases hs : s.rest with
  | nil => exact absurd hs hr
  | cons t rest => simp [State.advance, State.current, hs]

@[simp] theorem enter_last (s : State) (nesting : Nesting) : (s.enter nesting).last = s.last := by
  cases nesting <;> rfl

@[simp] theorem leave_last (s : State) (nesting : Nesting) : (s.leave nesting).last = s.last := by
  cases nesting <;> rfl

theorem ended_enter (nesting : Nesting) :
    (s.ended span).enter nesting = (s.enter nesting).ended span := by
  cases nesting <;> rfl

theorem ended_leave (nesting : Nesting) :
    (s.ended span).leave nesting = (s.leave nesting).ended span := by
  cases nesting <;> rfl

/-- a state in a row of tokens whose last one is `z` -/
structure Stream (z : Token) (s : State) : Prop where
  final : (s.last :: s.rest).getLast? = some z
  plain : ∀ t ∈ s.rest, t.kind ≠ .endOfFile

variable {z : Token} {s' : State}

theorem Stream.congr (h : Stream z s) (hr : s'.rest = s.rest) (hl : s'.last = s.last) :
    Stream z s' :=
  ⟨by rw [hr, hl, h.final], by rw [hr]; exact h.plain⟩

theorem Stream.advance (h : Stream z s) : Stream z s.advance := by
  cases hs : s.rest with
  | nil => rwa [advance_end hs]
  | cons t rest =>
    obtain ⟨hfinal, hplain⟩ := h
    rw [hs] at hfinal hplain
    rw [List.getLast?_cons_cons] at hfinal
    have hadvance : s.advance = { s with rest := rest, last := t } := by simp [State.advance, hs]
    rw [hadvance]
    exact ⟨hfinal, fun u hu => hplain u (List.mem_cons_of_mem _ hu)⟩

theorem Stream.last (h : Stream z s) (hr : s.rest = []) : s.last = z := by
  simpa [hr] using h.final

theorem Stream.current (h : Stream z s) (hr : s.rest ≠ []) : s.current.kind ≠ .endOfFile := by
  cases hs : s.rest with
  | nil => exact absurd hs hr
  | cons t rest => simpa [State.current, hs] using h.plain t (by simp [hs])

end State

/-! ### outcomes and runs -/

/-- no expression can be read: the nesting is too deep, or there are no more steps -/
def Hopeless {α : Type} (x : Outcome α) : Prop :=
  x = .outOfSteps ∨ ∃ fault s, x = .failed fault s ∧ fault.cause.code = 103

/-- the outcomes without and with the end of the file behind the tokens; `z` is the last token -/
inductive Same (span : Span) (z : Token) {α : Type} (post : α → State → Prop) :
    Outcome α → Outcome α → Prop
  | done {a s} (hs : Stream z s) (h : post a s) :
      Same span z post (.done a s) (.done a (s.ended span))
  | failed {f g s t} (hcode : f.cause.code = g.cause.code)
      (hz : g.cause = .expectedExpression .endOfFile → z.kind ≠ .symbol .leftParen) :
      Same span z post (.failed f s) (.failed g t)
  /-- behind an opening parenthesis -/
  | stuck {x t} (hz : z.kind = .symbol .leftParen) (hx : Hopeless x) :
      Same span z post x (.failed ⟨.expectedExpression .endOfFile, span⟩ t)
  | outOfSteps : Same span z post .outOfSteps .outOfSteps

/-- the runs of a parser without and with the end of the file behind the tokens -/
def Alike (span : Span) (z : Token) {α : Type} (s : State) (p : Parser α)
    (post : α → State → Prop) : Prop :=
  Stream z s → Same span z post (p s) (p (s.ended span))

/-- nothing is said of the end -/
abbrev Anyhow {α : Type} : α → State → Prop := fun _ _ => True

/-- the tokens are not used up behind an operator -/
def Closed {α : Type} : α → State → Prop := fun _ s => s.rest = [] → s.last.kind.closes = true

/-- the tokens are not used up behind a number or a name -/
def Ready (s : State) : Prop := s.rest = [] → s.last.kind.isAtom = false

theorem ready_of_rest {s : State} (hr : s.rest ≠ []) : Ready s := fun h => absurd h hr

theorem ready_advance {s : State} (hr : s.rest ≠ []) (hk : s.current.kind.isAtom = false) :
    Ready s.advance := fun _ => by rwa [advance_last hr]

theorem closed_advance {α : Type} {a : α} {s : State} (hr : s.rest ≠ [])
    (hk : s.current.kind.closes = true) : Closed a s.advance := fun _ => by rwa [advance_last hr]

variable {α β : Type} {span : Span} {z : Token} {s : State} {post mid : α → State → Prop}
  {post' : β → State → Prop}

theorem Hopeless.bind {p : Parser α} {f : α → Parser β} (h : Hopeless (p s)) :
    Hopeless ((p >>= f) s) := by
  rw [bind_apply]
  obtain h | ⟨fault, t, h, hcode⟩ := h
  · rw [h]
    exact .inl rfl
  · rw [h]
    exact .inr ⟨fault, t, rfl, hcode⟩

theorem Hopeless.mapState {g : State → State} {x : Outcome α} (h : Hopeless x) :
    Hopeless (x.mapState g) := by
  obtain rfl | ⟨fault, t, rfl, hcode⟩ := h
  · exact .inl rfl
  · exact .inr ⟨fault, g t, rfl, hcode⟩

theorem Same.mapState {g : State → State} {x y : Outcome α} (hrest : ∀ t, (g t).rest = t.rest)
    (hlast : ∀ t, (g t).last = t.last) (hended : ∀ t, g (t.ended span) = (g t).ended span)
    (hpost : ∀ a t, post a t → post a (g t)) (h : Same span z post x y) :
    Same span z post (x.mapState g) (y.mapState g) := by
  cases h with
  | @done a t ht ha =>
    simp only [Outcome.mapState, hended]
    exact .done (ht.congr (hrest t) (hlast t)) (hpost a t ha)
  | failed hcode hz => exact .failed hcode hz
  | stuck hz hx => exact .stuck hz hx.mapState
  | outOfSteps => exact .outOfSteps

/-- where the tokens are used up, an opening parenthesis starts an expression in itself -/
theorem primary_hopeless {steps : Nat} {inner : Parser Expr} (hr : s.rest = [])
    (hk : s.last.kind = .symbol .leftParen) (h : Hopeless (inner s)) :
    Hopeless (primary steps inner s) := by
  simp only [primary, current_bind, current_end hr, hk, group, advance_bind, advance_end hr]
  exact h.bind

theorem assignment_hopeless {steps : Nat} {inner : Parser Expr} (hr : s.rest = [])
    (hk : s.last.kind = .symbol .leftParen) (h : Hopeless (inner s)) :
    Hopeless (assignment steps inner s) := by
  have hminus : s.sees (.symbol .minus) = false := by simp [State.sees, hr]
  have hunary : Hopeless (unary steps inner s) := by
    simp only [unary, sees_bind, hminus, Bool.false_eq_true, if_false]
    exact primary_hopeless hr hk h
  have hproduct : Hopeless (product steps inner s) := hunary.bind
  have hsum : Hopeless (sum steps inner s) := hproduct.bind
  have hcomparison : Hopeless (comparison steps inner s) := hsum.bind
  rw [assignment, sees_bind]
  exact hcomparison.bind

/-- the limit on the nesting ends this, if not the steps -/
theorem expression_hopeless (k n : Nat) (hr : s.rest = []) (hk : s.last.kind = .symbol .leftParen) :
    Hopeless (expression (some k) n s) := by
  induction n generalizing s with
  | zero => exact .inl rfl
  | succ n ih =>
    rw [expression, nested]
    split
    · exact .inr ⟨_, s, rfl, rfl⟩
    · have hin := ih (s := s.enter .expression) (by rwa [enter_rest]) (by rwa [enter_last])
      exact (assignment_hopeless (by rwa [enter_rest]) (by rwa [enter_last]) hin).mapState

/-! ### decisions -/

/-- what decides without reading does not find an expression missing -/
def Settles (x : Except Fault α) : Prop :=
  ∀ fault, x = .error fault → fault.cause ≠ .expectedExpression .endOfFile

theorem settles_ok (a : α) : Settles (.ok a) := fun _ h => by cases h

theorem settles_error {fault : Fault} (h : fault.cause ≠ .expectedExpression .endOfFile) :
    Settles (.error fault : Except Fault α) := by
  rintro _ ⟨⟩
  exact h

theorem settles_ofLexeme (lexeme : String) (sp : Span) : Settles (Expr.ofLexeme lexeme sp) := by
  unfold Expr.ofLexeme
  split <;> split
  · exact settles_ok _
  · exact settles_error (by simp)
  · exact settles_ok _
  · exact settles_error (by simp)

theorem mismatch?_cause {callee : String} {params : List DataType} {args : List Expr}
    {fault : Fault} {index : Nat} (h : Signature.mismatch? callee index params args = some fault) :
    fault.cause ≠ .expectedExpression .endOfFile := by
  induction params generalizing index args with
  | nil => simp [Signature.mismatch?] at h
  | cons expected params ih =>
    cases args with
    | nil => simp [Signature.mismatch?] at h
    | cons arg args =>
      rw [Signature.mismatch?] at h
      split at h
      · exact ih h
      · cases h
        simp

theorem settles_callType (signature : Option Signature) (callee : Ident) (args : List Expr) :
    Settles (Signature.callType signature callee args) := by
  unfold Signature.callType
  split
  · exact settles_ok _
  · split
    · rename_i fault h
      refine settles_error ?_
      unfold Signature.fault? at h
      split at h
      · cases h
        simp
      · exact mismatch?_cause h
    · exact settles_ok _

theorem settles_build (l : Chain) (op : BinaryOp) (sign : Span) (left right : Expr) :
    Settles (l.build op sign left right) := by
  cases l with
  | comparison =>
    change Settles (BinaryOp.compare op sign left right)
    unfold BinaryOp.compare
    split
    · exact settles_ok _
    · exact settles_error (by simp)
  | sum | product => exact settles_ok _

theorem settles_declaredType (name : String) (written : Option DataType) (value : Expr) :
    Settles (declaredType name written value) := by
  unfold declaredType
  split
  · exact settles_ok _
  · split
    · exact settles_ok _
    · exact settles_error (by simp)

theorem settles_paramScope (params : List Binding) : Settles (paramScope params) := by
  unfold paramScope
  split
  · exact settles_ok _
  · exact settles_error (by simp)

namespace Alike

/-! ### parsers in a row -/

theorem pure {a : α} (h : post a s) : Alike span z s (Pure.pure a) post := fun hs => .done hs h

theorem mono {p : Parser α} (hp : Alike span z s p mid) (h : ∀ a t, mid a t → post a t) :
    Alike span z s p post := by
  intro hs
  have hsame := hp hs
  generalize p s = x at hsame ⊢
  generalize p (s.ended span) = y at hsame ⊢
  cases hsame with
  | done ht ha => exact .done ht (h _ _ ha)
  | failed hcode hz => exact .failed hcode hz
  | stuck hz hx => exact .stuck hz hx
  | outOfSteps => exact .outOfSteps

theorem bind {p : Parser α} {f : α → Parser β} (hp : Alike span z s p mid)
    (hf : ∀ a t, mid a t → Alike span z t (f a) post') : Alike span z s (p >>= f) post' := by
  intro hs
  have hsame := hp hs
  have hhopeless : Hopeless (p s) → Hopeless ((p >>= f) s) := .bind
  rw [bind_apply] at hhopeless ⊢
  rw [bind_apply]
  generalize p s = x at hsame hhopeless ⊢
  generalize p (s.ended span) = y at hsame ⊢
  cases hsame with
  | done ht ha => exact hf _ _ ha ht
  | failed hcode hz => exact .failed hcode hz
  | stuck hz hx => exact .stuck hz (hhopeless hx)
  | outOfSteps => exact .outOfSteps

theorem sees_then {kind : TokenKind} {f : Bool → Parser β}
    (hf : Alike span z s (f (s.sees kind)) post') : Alike span z s (sees kind >>= f) post' := by
  intro hs
  rw [sees_bind, sees_bind, ended_sees]
  exact hf hs

theorem current_then {f : Token → Parser β} (hr : s.rest ≠ [])
    (hf : s.current.kind ≠ .endOfFile → Alike span z s (f s.current) post') :
    Alike span z s (current >>= f) post' := by
  intro hs
  rw [current_bind, current_bind, ended_current hr]
  exact hf (hs.current hr) hs

theorem take_then {f : Token → Parser β} (hr : s.rest ≠ [])
    (hf : Alike span z s.advance (f s.current) post') :
    Alike span z s (Parser.advance >>= f) post' := by
  intro hs
  rw [advance_bind, advance_bind, ended_current hr, ended_advance hr]
  exact hf hs.advance

theorem lookup_then {name : String} {f : Option DataType → Parser β}
    (hf : Alike span z s (f (s.scope.lookup name)) post') :
    Alike span z s (lookup name >>= f) post' := hf

theorem signature?_then {name : String} {f : Option Signature → Parser β}
    (hf : Alike span z s (f (s.functions.get? name)) post') :
    Alike span z s (signature? name >>= f) post' := hf

theorem declare_then {name : String} {type : DataType} {f : Unit → Parser β}
    (hf : Alike span z (s.withScope (s.scope.declare name type)) (f ()) post') :
    Alike span z s (declare name type >>= f) post' := fun hs => hf (hs.congr rfl rfl)

theorem register_then {name : String} {signature : Signature} {f : Unit → Parser β}
    (hf : Alike span z (s.withFunctions (s.functions.register name signature)) (f ()) post') :
    Alike span z s (register name signature >>= f) post' := fun hs => hf (hs.congr rfl rfl)

theorem fail {fault : Fault} (h : fault.cause ≠ .expectedExpression .endOfFile) :
    Alike span z s (Parser.fail fault : Parser α) post :=
  fun _ => .failed rfl fun h' => absurd h' h

theorem failHere {cause : Cause} (h : cause ≠ .expectedExpression .endOfFile) :
    Alike span z s (Parser.failHere cause : Parser α) post :=
  fun _ => .failed rfl fun h' => absurd h' h

theorem ofExcept {x : Except Fault α} (hx : Settles x) (hpost : ∀ a, post a s) :
    Alike span z s (Parser.ofExcept x) post := by
  cases x with
  | ok a => exact pure (hpost a)
  | error fault => exact fail (hx fault rfl)

theorem ofExcept_then {x : Except Fault α} {f : α → Parser β} (hx : Settles x)
    (hf : ∀ a, x = .ok a → Alike span z s (f a) post') :
    Alike span z s (Parser.ofExcept x >>= f) post' := by
  cases x with
  | ok a => exact hf a rfl
  | error fault => exact fun _ => .failed rfl fun h => absurd h (hx fault rfl)

theorem eat_then {kind : TokenKind} {f : Bool → Parser β} (hk : kind ≠ .endOfFile)
    (hyes : s.rest ≠ [] → s.current.kind = kind → Alike span z s.advance (f true) post')
    (hno : Alike span z s (f false) post') : Alike span z s (eat kind >>= f) post' := by
  have heat : Alike span z s (eat kind) fun a t =>
      if a then s.rest ≠ [] ∧ s.current.kind = kind ∧ t = s.advance else t = s := by
    refine sees_then ?_
    cases hs : s.sees kind with
    | true =>
      exact take_then (rest_of_sees hs hk)
        (pure ⟨rest_of_sees hs hk, kind_of_sees hs hk, rfl⟩)
    | false => exact pure rfl
  refine heat.bind fun a t ht => ?_
  cases a with
  | true =>
    obtain ⟨hr, hkind, rfl⟩ := ht
    exact hyes hr hkind
  | false =>
    obtain rfl : t = s := ht
    exact hno

theorem expect_then {kind : TokenKind} {f : Token → Parser β} (hk : kind ≠ .endOfFile)
    (hf : s.rest ≠ [] → s.current.kind = kind → Alike span z s.advance (f s.current) post') :
    Alike span z s (expect kind >>= f) post' := by
  have hexpect : Alike span z s (expect kind) fun a t =>
      s.rest ≠ [] ∧ s.current.kind = kind ∧ a = s.current ∧ t = s.advance := by
    refine sees_then ?_
    cases hs : s.sees kind with
    | true =>
      exact take_then (rest_of_sees hs hk)
        (pure ⟨rest_of_sees hs hk, kind_of_sees hs hk, rfl, rfl⟩)
    | false => exact fun _ => .failed rfl (by simp)
  refine hexpect.bind fun a t ht => ?_
  obtain ⟨hr, hkind, rfl, rfl⟩ := ht
  exact hf hr hkind

/-- a name cannot be the last token where one has to follow -/
theorem identifier_then {f : Ident → Parser β} (hready : Ready s)
    (hf : ∀ name, s.rest ≠ [] → s.current.kind = .identifier name →
      Alike span z s.advance (f ⟨name, s.current.span⟩) post') :
    Alike span z s (identifier >>= f) post' := by
  have hidentifier : Alike span z s identifier fun a t =>
      s.rest ≠ [] ∧ s.current = ⟨.identifier a.name, a.span⟩ ∧ t = s.advance := by
    by_cases hr : s.rest = []
    · intro _
      have hname : s.last.kind.isAtom = false := hready hr
      simp only [identifier, current_bind, ended_current_end hr, current_end hr]
      cases hk : s.last.kind with
      | identifier name => simp [hk, TokenKind.isAtom] at hname
      | _ => exact .failed rfl (by simp)
    · refine current_then hr fun _ => ?_
      cases hk : s.current.kind with
      | identifier name =>
        exact take_then hr (pure ⟨hr, by rw [← hk], rfl⟩)
      | _ => exact failHere (by simp)
  refine hidentifier.bind fun a t ht => ?_
  obtain ⟨hr, hcurrent, rfl⟩ := ht
  have := hf a.name hr (by rw [hcurrent])
  rwa [hcurrent] at this

/-- nor can the name of a type, behind a colon -/
theorem typeName (hcolon : s.rest = [] → s.last.kind = .symbol .colon) :
    Alike span z s typeName Anyhow := by
  by_cases hr : s.rest = []
  · intro _
    simp only [Parser.typeName, current_bind, ended_current_end hr, current_end hr, hcolon hr]
    exact .failed rfl (by simp)
  · refine current_then hr fun _ => ?_
    cases hk : s.current.kind with
    | keyword word =>
      cases word with
      | intWord | doubleWord => exact take_then hr (pure trivial)
      | _ => exact failHere (by simp)
    | _ => exact failHere (by simp)

/-! ### rows of items -/

theorem separated {item : Parser α} {n : Nat}
    (h : ∀ t, Ready t → Alike span z t item Anyhow) (hs : Ready s) :
    Alike span z s (separated item n) Anyhow := by
  induction n generalizing s with
  | zero => exact fun _ => .outOfSteps
  | succ n ih =>
    refine (h s hs).bind fun a t _ => eat_then (by simp) (fun hr hk => ?_) (pure trivial)
    exact (ih (ready_advance hr (by rw [hk]; rfl))).bind fun _ _ _ => pure trivial

theorem items {item : Parser α} {n : Nat} (h : ∀ t, Ready t → Alike span z t item Anyhow)
    (hs : Ready s) : Alike span z s (items item n) Anyhow := by
  refine sees_then ?_
  cases s.sees (.symbol .rightParen) with
  | true => exact pure trivial
  | false => exact separated h hs

/-! ### expressions -/

section
variable {steps : Nat} {inner : Parser Expr}

theorem number {lexeme : String} (hr : s.rest ≠ []) (hk : s.current.kind = .number lexeme) :
    Alike span z s (number lexeme) Closed :=
  take_then hr (ofExcept (settles_ofLexeme _ _) fun _ => closed_advance hr (by rw [hk]; rfl))

theorem var {name : String} (hr : s.rest ≠ []) (hk : s.current.kind = .identifier name) :
    Alike span z s (var name) Closed := by
  refine take_then hr (lookup_then ?_)
  cases s.advance.scope.lookup name with
  | none => exact fail (by simp)
  | some type => exact pure (closed_advance hr (by rw [hk]; rfl))

theorem chain {l : Chain} {operand : Parser Expr} {n : Nat} {left : Expr}
    (h : ∀ t, Ready t → Alike span z t operand Closed) (hs : Closed left s) :
    Alike span z s (chain l.op? l.build operand n left) Closed := by
  induction n generalizing s left with
  | zero => exact fun _ => .outOfSteps
  | succ n ih =>
    by_cases hr : s.rest = []
    · -- nothing goes on with a token that ends an expression, nor does the end of the file
      intro hstream
      have hlast := Chain.op?_of_closes (l := l) (hs hr)
      have hend : l.op? .endOfFile = none := by cases l <;> rfl
      simp only [Parser.chain, current_bind, ended_current_end hr, current_end hr, hlast, hend]
      exact pure hs hstream
    · refine current_then hr fun _ => ?_
      cases hop : l.op? s.current.kind with
      | none => exact pure hs
      | some op =>
        have hatom : s.current.kind.isAtom = false := by rw [(Chain.of_op? hop).2]; rfl
        refine take_then hr ((h _ (ready_advance hr hatom)).bind fun right t ht => ?_)
        exact ofExcept_then (settles_build _ _ _ _ _) fun e _ => ih ht

theorem level {l : Chain} (h : ∀ t, Ready t → Alike span z t (l.operand.parser steps inner) Closed)
    (hs : Ready s) : Alike span z s ((Level.chain l).parser steps inner) Closed := by
  rw [Level.parser_chain]
  exact (h s hs).bind fun left t ht => chain h ht

section
variable (hx : ∀ t, Ready t → Alike span z t inner Closed)
include hx

theorem call (hr : s.rest ≠ []) : Alike span z s (call steps inner) Closed := by
  refine identifier_then (ready_of_rest hr) fun _ _ _ => expect_then (by simp) fun ho hopen => ?_
  have hargs := items (n := steps) (fun t ht => (hx t ht).mono fun _ _ _ => trivial)
    (ready_advance ho (by rw [hopen]; rfl))
  refine hargs.bind fun args t _ => expect_then (by simp) fun hc hclose => signature?_then ?_
  refine ofExcept_then (settles_callType _ _ _) fun type _ => ?_
  exact pure (closed_advance hc (by rw [hclose]; rfl))

theorem group (hr : s.rest ≠ []) (hk : s.current.kind = .symbol .leftParen) :
    Alike span z s (group inner) Closed := by
  refine take_then hr ((hx _ (ready_advance hr (by rw [hk]; rfl))).bind fun e t _ => ?_)
  exact expect_then (by simp) fun hc hclose => pure (closed_advance hc (by rw [hclose]; rfl))

theorem assignTo (hr : s.rest ≠ []) (hk : s.current.kind = .symbol .assign) (grouped : Bool)
    (target : Expr) : Alike span z s (assignTo inner grouped target) Closed := by
  unfold Parser.assignTo
  split
  · refine take_then hr ((hx _ (ready_advance hr (by rw [hk]; rfl))).bind fun value t ht => ?_)
    split
    · exact pure ht
    · exact fail (by simp)
  · exact fail (by simp)

variable (hopen : ∀ t : State, t.rest = [] → t.last.kind = .symbol .leftParen → Hopeless (inner t))
include hopen

theorem primary (hs : Ready s) : Alike span z s (primary steps inner) Closed := by
  by_cases hr : s.rest = []
  · intro hstream
    have hlast := hstream.last hr
    have hatom := hs hr
    have hended : Parser.primary steps inner (s.ended span) =
        .failed ⟨.expectedExpression .endOfFile, span⟩ (s.ended span) := by
      simp [Parser.primary, Parser.failHere, ended_current_end hr]
    rw [hended]
    by_cases hk : s.last.kind = .symbol .leftParen
    · exact .stuck (hlast ▸ hk) (primary_hopeless hr hk (hopen s hr hk))
    · have hfailed : Parser.primary steps inner s =
          .failed ⟨.expectedExpression s.last.kind, s.last.span⟩ s := by
        simp only [Parser.primary, current_bind, current_end hr]
        cases hkind : s.last.kind with
        | number lexeme => simp [hkind, TokenKind.isAtom] at hatom
        | identifier name => simp [hkind, TokenKind.isAtom] at hatom
        | symbol sym => cases sym <;> simp_all [Parser.failHere, current_end hr]
        | _ => simp [Parser.failHere, current_end hr]
      rw [hfailed]
      exact .failed rfl fun _ => hlast ▸ hk
  · refine current_then hr fun hne => ?_
    cases hk : s.current.kind with
    | number lexeme => exact number hr hk
    | identifier name =>
      intro hstream
      simp only [ahead_bind, ended_ahead]
      split
      · exact call hx hr hstream
      · exact var hr hk hstream
    | symbol sym =>
      cases sym with
      | leftParen => exact group hx hr hk
      | _ => exact failHere (by simp)
    | endOfFile => exact absurd hk hne
    | _ => exact failHere (by simp)

theorem unary (hs : Ready s) : Alike span z s (unary steps inner) Closed := by
  refine sees_then ?_
  cases hm : s.sees (.symbol .minus) with
  | false => exact primary hx hopen hs
  | true =>
    have hr := rest_of_sees hm (by simp)
    have hk := kind_of_sees hm (by simp)
    refine take_then hr ((primary hx hopen (ready_advance hr (by rw [hk]; rfl))).bind ?_)
    exact fun _ _ h => pure h

theorem comparison (hs : Ready s) : Alike span z s (comparison steps inner) Closed := by
  have hproduct (t : State) (ht : Ready t) : Alike span z t (product steps inner) Closed :=
    level (l := .product) (fun t ht => unary hx hopen ht) ht
  have hsum (t : State) (ht : Ready t) : Alike span z t (sum steps inner) Closed :=
    level (l := .sum) hproduct ht
  exact level (l := .comparison) hsum hs

theorem assignment (hs : Ready s) : Alike span z s (assignment steps inner) Closed := by
  refine sees_then ((comparison hx hopen hs).bind fun left t ht => sees_then ?_)
  cases ha : t.sees (.symbol .assign) with
  | false => exact pure ht
  | true => exact assignTo hx (rest_of_sees ha (by simp)) (kind_of_sees ha (by simp)) _ left

end

end

/-! ### statements -/

theorem writtenType : Alike span z s writtenType Anyhow := by
  refine eat_then (by simp) (fun hr hk => ?_) (pure trivial)
  exact (typeName fun _ => by rw [advance_last hr, hk]).bind fun _ _ _ => pure trivial

theorem statements {stmt : Parser Stmt} {n : Nat}
    (h : ∀ t : State, t.rest ≠ [] → Alike span z t stmt Anyhow) :
    Alike span z s (statements stmt n) Anyhow := by
  induction n generalizing s with
  | zero => exact fun _ => .outOfSteps
  | succ n ih =>
    refine sees_then ?_
    cases s.sees (.symbol .rightBrace) with
    | true => exact pure trivial
    | false =>
      refine sees_then ?_
      cases he : s.sees .endOfFile with
      | true => exact pure trivial
      | false =>
        refine (h s (rest_of_not_end he)).bind fun first t _ => ?_
        exact ih.bind fun _ _ _ => pure trivial

theorem block {steps : Nat} {stmt : Parser Stmt}
    (h : ∀ t : State, t.rest ≠ [] → Alike span z t stmt Anyhow) :
    Alike span z s (block steps stmt) Anyhow := by
  refine expect_then (by simp) fun _ _ => (statements h).bind fun body t _ => ?_
  exact expect_then (by simp) fun _ _ => pure trivial

section
variable {steps : Nat} {inner : Parser Expr} {cond : Parser Stmt}
variable (hx : ∀ t, Ready t → Alike span z t inner Closed)
include hx

theorem declaration (hr : s.rest ≠ []) (hk : s.current.kind.isAtom = false) :
    Alike span z s (declaration inner) Anyhow := by
  refine take_then hr (identifier_then (ready_advance hr hk) fun name _ _ => lookup_then ?_)
  split
  · exact fail (by simp)
  refine writtenType.bind fun written t _ => expect_then (by simp) fun hr' hk' => ?_
  refine (hx _ (ready_advance hr' (by rw [hk']; rfl))).bind fun value t' _ => ?_
  refine ofExcept_then (settles_declaredType _ _ _) fun type _ => ?_
  exact expect_then (by simp) fun _ _ => declare_then (pure trivial)

theorem ret (hr : s.rest ≠ []) (hk : s.current.kind.isAtom = false) :
    Alike span z s (ret inner) Anyhow := by
  refine take_then hr ((hx _ (ready_advance hr hk)).bind fun e t _ => ?_)
  exact expect_then (by simp) fun _ _ => pure trivial

theorem expressionStmt (hs : Ready s) : Alike span z s (expressionStmt inner) Anyhow :=
  (hx s hs).bind fun _ _ _ => expect_then (by simp) fun _ _ => pure trivial

variable (hc : ∀ t : State, t.rest ≠ [] → t.current.kind = .keyword .ifWord →
  Alike span z t cond Anyhow)
include hc

theorem statement (hr : s.rest ≠ []) : Alike span z s (statement inner cond) Anyhow := by
  refine current_then hr fun _ => ?_
  cases hk : s.current.kind with
  | keyword word =>
    have hatom : s.current.kind.isAtom = false := by rw [hk]; rfl
    cases word with
    | letWord | constWord => exact declaration hx hr hatom
    | returnWord => exact ret hx hr hatom
    | ifWord => exact hc s hr hk
    | _ => exact expressionStmt hx (ready_of_rest hr)
  | _ => exact expressionStmt hx (ready_of_rest hr)

theorem alternate : Alike span z s (alternate steps inner cond) Anyhow := by
  refine sees_then ?_
  cases hif : s.sees (.keyword .ifWord) with
  | true =>
    have hcond := hc s (rest_of_sees hif (by simp)) (kind_of_sees hif (by simp))
    exact hcond.bind fun _ _ _ => pure trivial
  | false => exact block fun t ht => statement hx hc ht

theorem conditionalBody (hr : s.rest ≠ []) :
    Alike span z s (conditionalBody steps inner cond) Anyhow := by
  refine take_then hr (expect_then (by simp) fun hr' hk' => ?_)
  refine (hx _ (ready_advance hr' (by rw [hk']; rfl))).bind fun condition t _ => ?_
  refine expect_then (by simp) fun _ _ => ?_
  split
  · refine (block fun t ht => statement hx hc ht).bind fun consequent t' _ => ?_
    refine eat_then (by simp) (fun _ _ => ?_) (pure trivial)
    exact (alternate hx hc).bind fun _ _ _ => pure trivial
  · exact fail (by simp)

end

/-! ### nested parts -/

theorem nested {nesting : Nesting} {limit : Option Nat} {p : Parser α}
    (h : Alike span z (s.enter nesting) p post)
    (hpost : ∀ a t, post a t → post a (t.leave nesting)) :
    Alike span z s (nested nesting limit p) post := by
  intro hs
  have hopen : Same span z post ((p (s.enter nesting)).mapState (·.leave nesting))
      ((p ((s.ended span).enter nesting)).mapState (·.leave nesting)) := by
    rw [ended_enter]
    exact (h (hs.congr (enter_rest ..) (enter_last ..))).mapState (leave_rest · nesting)
      (leave_last · nesting) (fun t => ended_leave nesting) hpost
  cases limit with
  | none => exact hopen
  | some n =>
    have hdepth : (s.ended span).depth nesting = s.depth nesting := withRest_depth ..
    simp only [Parser.nested, hdepth]
    split
    · exact .failed rfl (by simp)
    · exact hopen

theorem expression (k n : Nat) (hs : Ready s) :
    Alike span z s (expression (some k) n) Closed := by
  induction n generalizing s with
  | zero => exact fun _ => .outOfSteps
  | succ n ih =>
    refine nested (assignment (fun t ht => ih ht) (fun t hr hk => expression_hopeless k n hr hk) ?_)
      fun a t ht => ?_
    · simpa [Ready] using hs
    · simpa [Closed] using ht

theorem conditional {k : Nat} {limit : Option Nat} (n : Nat) (hr : s.rest ≠ []) :
    Alike span z s (conditional ⟨some k, limit⟩ n) Anyhow := by
  induction n generalizing s with
  | zero => exact fun _ => .outOfSteps
  | succ n ih =>
    exact nested (conditionalBody (fun t ht => expression k n ht) (fun t ht _ => ih ht)
      (by rwa [enter_rest])) fun _ _ _ => trivial

/-! ### functions and programs -/

theorem param (hs : Ready s) : Alike span z s param Anyhow := by
  refine identifier_then hs fun name _ _ => eat_then (by simp) (fun hr hk => ?_) ?_
  · exact (typeName fun _ => by rw [advance_last hr, hk]).bind fun _ _ _ => pure trivial
  · exact fun _ => .failed rfl (by simp)

theorem returnType {name : String} : Alike span z s (returnType name) Anyhow := by
  refine eat_then (by simp) (fun hr hk => typeName fun _ => by rw [advance_last hr, hk]) ?_
  exact fun _ => .failed rfl (by simp)

theorem inScope {scope : Scope} {p : Parser α} (h : Alike span z (s.withScope scope) p Anyhow) :
    Alike span z s (inScope scope p) Anyhow := fun hs =>
  (h (hs.congr rfl rfl)).mapState (fun _ => rfl) (fun _ => rfl) (fun _ => rfl) fun _ _ _ => trivial

theorem functionTail {steps : Nat} {stmt : Parser Stmt} {word : Token}
    (h : ∀ t : State, t.rest ≠ [] → Alike span z t stmt Anyhow) (hs : Ready s) :
    Alike span z s (functionTail steps stmt word) Anyhow := by
  refine identifier_then hs fun name _ _ => ?_
  refine expect_then (by simp) fun ho hopen => ?_
  refine (items (fun t ht => param ht) (ready_advance ho (by rw [hopen]; rfl))).bind ?_
  refine fun params t _ => expect_then (by simp) fun _ _ => returnType.bind fun type t' _ => ?_
  refine ofExcept_then (settles_paramScope _) fun scope _ => ?_
  exact (inScope (block h)).bind fun body _ _ => pure trivial

theorem functionOf {steps : Nat} {stmt : Parser Stmt}
    (h : ∀ t : State, t.rest ≠ [] → Alike span z t stmt Anyhow)
    (hr : s.rest ≠ []) (hk : s.current.kind.isAtom = false) :
    Alike span z s (functionOf steps stmt) Anyhow :=
  take_then hr ((functionTail h (ready_advance hr hk)).bind fun _ _ _ =>
    register_then (pure trivial))

theorem functionsOf {function : Parser FunctionDecl} {n : Nat}
    (h : ∀ t : State, t.rest ≠ [] → t.current.kind = .keyword .functionWord →
      Alike span z t function Anyhow) : Alike span z s (functionsOf function n) Anyhow := by
  induction n generalizing s with
  | zero => exact fun _ => .outOfSteps
  | succ n ih =>
    refine sees_then ?_
    cases he : s.sees .endOfFile with
    | true => exact pure trivial
    | false =>
      refine sees_then ?_
      cases hk : s.sees (.keyword .functionWord) with
      | false => exact current_then (rest_of_not_end he) fun _ => failHere (by simp)
      | true =>
        refine (h s (rest_of_not_end he) (kind_of_sees hk (by simp))).bind fun first t _ => ?_
        exact ih.bind fun _ _ _ => pure trivial

/-- the functions of a program; its own span may be another one where there are no tokens -/
theorem functions (k n : Nat) (limit : Option Nat) :
    Alike span z s (Parser.functionsOf (function ⟨some k, limit⟩ n) n) Anyhow := by
  refine functionsOf fun t hr hk => ?_
  rw [function]
  exact functionOf (fun t ht => statement (fun u hu => expression k n hu)
    (fun u hu _ => conditional n hu) ht) hr (by rw [hk]; rfl)

end Alike

end Parser

/-! ### results -/

namespace Program

/-- the same functions, or faults with the same code -/
def Agree : Except Fault Program → Except Fault Program → Prop
  | .ok p, .ok q => p.functions = q.functions
  | .error f, .error g => f.cause.code = g.cause.code
  | _, _ => False

theorem not_agree {f g : Fault} (h : f.cause.code ≠ g.cause.code) :
    ¬ Agree (.error f) (.error g) := h

/-- what the reading of the functions says of the program -/
inductive Decides : Parser.Outcome (List FunctionDecl) → Except Fault Program → Prop
  | ok (p : Program) (s : State) : Decides (.done p.functions s) (.ok p)
  | error (fault : Fault) (s : State) : Decides (.failed fault s) (.error fault)

theorem decides_of_result {limits : Limits} {n : Nat} {tokens : List Token}
    {r : Except Fault Program} (h : (Program.run limits n tokens).result? = some r) :
    Decides (functionsOf (function limits n) n (.initial tokens)) r := by
  rw [Program.run, program, programOf, current_bind, bind_apply] at h
  cases hf : functionsOf (function limits n) n (.initial tokens) with
  | done fs s =>
    rw [hf] at h
    obtain rfl := Option.some.inj h
    exact .ok ⟨fs, _⟩ s
  | failed fault s =>
    rw [hf] at h
    obtain rfl := Option.some.inj h
    exact .error fault s
  | outOfSteps =>
    rw [hf] at h
    cases h

theorem agree_iff {span : Span} {z : Token} {x y : Parser.Outcome (List FunctionDecl)}
    {r r' : Except Fault Program} (h : Same span z Anyhow x y) (hx : Decides x r)
    (hy : Decides y r') :
    Agree r r' ↔ ¬ (z.kind = .symbol .leftParen ∧
      r' = .error ⟨.expectedExpression .endOfFile, span⟩) := by
  cases h with
  | done hs _ =>
    cases hx with
    | ok p s =>
      generalize hfs : p.functions = fs at hy
      cases hy with
      | ok q t => simp [Agree, hfs]
  | failed hcode hz =>
    cases hx
    cases hy
    refine ⟨fun _ ⟨hk, hr⟩ => hz ?_ hk, fun _ => hcode⟩
    rw [Except.error.inj hr]
  | stuck hz hstuck =>
    cases hy
    refine ⟨fun hagree _ => ?_, fun hnot => absurd ⟨hz, rfl⟩ hnot⟩
    obtain rfl | ⟨fault, s, rfl, hcode⟩ := hstuck
    · cases hx
    · cases hx
      have h101 : fault.cause.code = 101 := hagree
      omega
  | outOfSteps => cases hx

theorem final_iff {ts : List Token} {z : Token}
    (hz : (Token.eof .origin :: ts).getLast? = some z) :
    z.kind = .symbol .leftParen ↔ ts.getLast?.map Token.kind = some (.symbol .leftParen) := by
  cases ts with
  | nil =>
    obtain rfl : Token.eof .origin = z := Option.some.inj hz
    simp [Token.eof]
  | cons t ts =>
    rw [List.getLast?_cons_cons] at hz
    rw [hz, Option.map_some, Option.some.injEq]

/-- Without an end of the file, tokens are read as with one behind them, unless an expression has
to start there and the last token is an opening parenthesis. -/
theorem ofTokens_ended {ts : List Token} {e : Token} (hts : ∀ t ∈ ts, t.kind ≠ .endOfFile)
    (he : e.kind = .endOfFile) :
    Agree (ofTokens .standard ts) (ofTokens .standard (ts ++ [e])) ↔
      ¬ (ts.getLast?.map Token.kind = some (.symbol .leftParen) ∧
        ofTokens .standard (ts ++ [e]) = .error ⟨.expectedExpression .endOfFile, e.span⟩) := by
  obtain ⟨kind, span⟩ := e
  obtain rfl : kind = .endOfFile := he
  obtain ⟨z, hz⟩ : ∃ z, (Token.eof .origin :: ts).getLast? = some z :=
    ⟨_, List.getLast?_eq_some_getLast (List.cons_ne_nil _ _)⟩
  -- as many steps for both, and enough of them
  obtain ⟨n, hn, hn'⟩ : ∃ n, stepBound .standard ts.length ≤ n ∧
      stepBound .standard (ts ++ [(⟨.endOfFile, span⟩ : Token)]).length ≤ n :=
    ⟨_, Nat.le_max_left .., Nat.le_max_right ..⟩
  have hsame : Same span z Anyhow (functionsOf (function .standard n) n (.initial ts))
      (functionsOf (function .standard n) n (.initial (ts ++ [⟨.endOfFile, span⟩]))) :=
    Alike.functions 64 n (some 64) ⟨hz, hts⟩
  rw [← final_iff hz]
  exact agree_iff hsame
    (decides_of_result (result?_run (ends_standard _) (run_finishes (ends_standard _) hn)))
    (decides_of_result (result?_run (ends_standard _) (run_finishes (ends_standard _) hn')))

/-- a function with nothing behind the brace but an opening parenthesis -/
def unfinished : List Token :=
  row [.keyword .functionWord, .identifier "f", .symbol .leftParen, .symbol .rightParen,
    .symbol .colon, .keyword .intWord, .symbol .leftBrace, .symbol .leftParen]

/-- without the end of the file the nesting is too deep, with it an expression is missing -/
theorem ofTokens_unfinished :
    (∀ t ∈ unfinished, t.kind ≠ .endOfFile) ∧
      ofTokens .standard unfinished =
        .error ⟨.nestingTooDeep .expression 64, .point ⟨1, 8⟩⟩ ∧
      ofTokens .standard (unfinished ++ [.eof ⟨1, 9⟩]) =
        .error ⟨.expectedExpression .endOfFile, .point ⟨1, 9⟩⟩ ∧
      ¬ Agree (ofTokens .standard unfinished)
        (ofTokens .standard (unfinished ++ [.eof ⟨1, 9⟩])) := by
  have hdeep : ofTokens .standard unfinished =
      .error ⟨.nestingTooDeep .expression 64, .point ⟨1, 8⟩⟩ :=
    eq_error_of_fault? (by decide +kernel)
  have hmissing : ofTokens .standard (unfinished ++ [.eof ⟨1, 9⟩]) =
      .error ⟨.expectedExpression .endOfFile, .point ⟨1, 9⟩⟩ :=
    eq_error_of_fault? (by decide +kernel)
  refine ⟨by decide, hdeep, hmissing, ?_⟩
  rw [hdeep, hmissing]
  exact not_agree (by decide)

/-- a function that is finished -/
def finished : List Token :=
  row [.keyword .functionWord, .identifier "f", .symbol .leftParen, .symbol .rightParen,
    .symbol .colon, .keyword .intWord, .symbol .leftBrace, .keyword .returnWord, .number "1",
    .symbol .semicolon, .symbol .rightBrace]

theorem ofTokens_ended_finished :
    (∀ t ∈ finished, t.kind ≠ .endOfFile) ∧ (Token.eof ⟨1, 12⟩).kind = .endOfFile ∧
      Agree (ofTokens .standard finished) (ofTokens .standard (finished ++ [.eof ⟨1, 12⟩])) := by
  have hts : ∀ t ∈ finished, t.kind ≠ .endOfFile := by decide +kernel
  refine ⟨hts, rfl, (ofTokens_ended hts rfl).2 fun h => ?_⟩
  have hlast : finished.getLast?.map Token.kind = some (.symbol .rightBrace) := by decide +kernel
  rw [hlast] at h
  cases h.1

end Program

end Wattle
