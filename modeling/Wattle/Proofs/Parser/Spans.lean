import Wattle.Proofs.Spans
import Wattle.Report

/-!
# Reading under other spans

The parsers decide nothing by spans: with other spans in the tokens they end in the same way, with
the other spans in what they give (`Commutes`, one lemma for each parser).  Spans that are all
made equal show that texts with the same kinds of tokens have the same module and the same program
up to spans, or the same fault up to its place (`SourceFile.compile_agree`).
-/

namespace Wattle

variable {α β γ δ : Type}

/-! ### tokens, faults and states -/

def Token.mapSpan (g : SpanMap) (t : Token) : Token := ⟨t.kind, g t.span⟩

@[simp] theorem Token.kind_mapSpan (g : SpanMap) (t : Token) : (t.mapSpan g).kind = t.kind := rfl

@[simp] theorem Token.span_mapSpan (g : SpanMap) (t : Token) : (t.mapSpan g).span = g t.span := rfl

def Fault.mapSpan (g : SpanMap) (fault : Fault) : Fault := ⟨fault.cause, g fault.span⟩

/-- what has been decided, under other spans -/
def SpanMap.result (g : SpanMap) (f : α → β) : Except Fault α → Except Fault β
  | .ok a => .ok (f a)
  | .error fault => .error (fault.mapSpan g)

@[simp] theorem SpanMap.result_ok (g : SpanMap) (f : α → β) (a : α) :
    g.result f (.ok a) = .ok (f a) := rfl

@[simp] theorem SpanMap.result_error (g : SpanMap) (f : α → β) (fault : Fault) :
    g.result f (.error fault) = .error (fault.mapSpan g) := rfl

namespace Parser

def State.mapSpan (g : SpanMap) (s : State) : State :=
  { s with rest := s.rest.map (Token.mapSpan g), last := s.last.mapSpan g }

def Outcome.mapSpan (g : SpanMap) (f : α → β) : Outcome α → Outcome β
  | done a s => done (f a) (s.mapSpan g)
  | failed fault s => failed (fault.mapSpan g) (s.mapSpan g)
  | outOfSteps => outOfSteps

namespace State

section
variable (g : SpanMap) (s : State)

@[simp] theorem current_mapSpan : (s.mapSpan g).current = s.current.mapSpan g := by
  unfold current mapSpan
  cases s.rest <;> rfl

@[simp] theorem sees_mapSpan (kind : TokenKind) : (s.mapSpan g).sees kind = s.sees kind := by
  unfold sees mapSpan
  cases s.rest <;> rfl

@[simp] theorem ahead_mapSpan : (s.mapSpan g).ahead = s.ahead := by
  unfold ahead mapSpan
  match s.rest with
  | [] | [_] | _ :: _ :: _ => rfl

@[simp] theorem advance_mapSpan : (s.mapSpan g).advance = s.advance.mapSpan g := by
  obtain ⟨rest, last, scope, functions, expressions, conditionals⟩ := s
  cases rest <;> rfl

@[simp] theorem depth_mapSpan (nesting : Nesting) :
    (s.mapSpan g).depth nesting = s.depth nesting := by
  cases nesting <;> rfl

@[simp] theorem enter_mapSpan (nesting : Nesting) :
    (s.mapSpan g).enter nesting = (s.enter nesting).mapSpan g := by
  cases nesting <;> rfl

@[simp] theorem leave_mapSpan (nesting : Nesting) :
    (s.mapSpan g).leave nesting = (s.leave nesting).mapSpan g := by
  cases nesting <;> rfl

end

end State

/-! ### combinators -/

/-- under other spans, `p'` ends as `p` does -/
def Commutes (g : SpanMap) (f : α → β) (p : Parser α) (p' : Parser β) : Prop :=
  ∀ s, p' (s.mapSpan g) = (p s).mapSpan g f

namespace Commutes

variable {g : SpanMap} {f : α → β} {f' : γ → δ}

theorem pure (a : α) : Commutes g f (pure a) (pure (f a)) := fun _ => rfl

theorem pure_of_eq {a : α} {b : β} (h : f a = b) : Commutes g f (Pure.pure a) (Pure.pure b) :=
  h ▸ pure a

theorem bind {p : Parser α} {p' : Parser β} {k : α → Parser γ} {k' : β → Parser δ}
    (hp : Commutes g f p p') (hk : ∀ a, Commutes g f' (k a) (k' (f a))) :
    Commutes g f' (p >>= k) (p' >>= k') := by
  intro s
  rw [bind_apply, bind_apply, hp s]
  cases p s with
  | done a s' => exact hk a s'
  | failed fault s' => rfl
  | outOfSteps => rfl

theorem ite {c : Prop} [Decidable c] {p q : Parser α} {p' q' : Parser β}
    (hp : Commutes g f p p') (hq : Commutes g f q q') :
    Commutes g f (if c then p else q) (if c then p' else q') := by
  split
  · exact hp
  · exact hq

theorem current : Commutes g (Token.mapSpan g) current current := fun s => by
  simp [Parser.current, Outcome.mapSpan]

theorem sees (kind : TokenKind) : Commutes g id (sees kind) (sees kind) := fun s => by
  simp [Parser.sees, Outcome.mapSpan]

theorem ahead : Commutes g id ahead ahead := fun s => by
  simp [Parser.ahead, Outcome.mapSpan]

theorem advance : Commutes g (Token.mapSpan g) advance advance := fun s => by
  simp [Parser.advance, Outcome.mapSpan]

theorem fail (fault : Fault) : Commutes g f (fail fault) (fail (fault.mapSpan g)) := fun _ => rfl

theorem failHere (cause : Cause) : Commutes g f (failHere cause) (failHere cause) := fun s => by
  simp [Parser.failHere, Outcome.mapSpan, Fault.mapSpan, Token.mapSpan]

theorem outOfSteps : Commutes g f outOfSteps outOfSteps := fun _ => rfl

theorem ofExcept (x : Except Fault α) : Commutes g f (ofExcept x) (ofExcept (g.result f x)) := by
  cases x with
  | ok a => exact .pure a
  | error fault => exact .fail fault

theorem lookup (name : String) : Commutes g id (lookup name) (lookup name) := fun _ => rfl

theorem declare (name : String) (type : DataType) :
    Commutes g id (declare name type) (declare name type) := fun _ => rfl

theorem signature? (name : String) : Commutes g id (signature? name) (signature? name) :=
  fun _ => rfl

theorem register (name : String) (signature : Signature) :
    Commutes g id (register name signature) (register name signature) := fun _ => rfl

theorem mapState {x : Outcome α} {y : Outcome β} {t : State → State}
    (ht : ∀ s, t (s.mapSpan g) = (t s).mapSpan g) (h : y = x.mapSpan g f) :
    y.mapState t = (x.mapState t).mapSpan g f := by
  subst h
  cases x with
  | done a s => exact congrArg (Outcome.done (f a)) (ht s)
  | failed fault s => exact congrArg (Outcome.failed (fault.mapSpan g)) (ht s)
  | outOfSteps => rfl

theorem inScope (scope : Scope) {p : Parser α} {p' : Parser β} (h : Commutes g f p p') :
    Commutes g f (inScope scope p) (inScope scope p') :=
  fun s => mapState (fun _ => rfl) (h { s with scope := scope })

theorem nested (nesting : Nesting) (limit : Option Nat) {p : Parser α} {p' : Parser β}
    (h : Commutes g f p p') : Commutes g f (nested nesting limit p) (nested nesting limit p') := by
  intro s
  have hopen : (p' ((s.mapSpan g).enter nesting)).mapState (·.leave nesting) =
      ((p (s.enter nesting)).mapState (·.leave nesting)).mapSpan g f := by
    rw [State.enter_mapSpan]
    exact mapState (fun s => State.leave_mapSpan g s nesting) (h _)
  unfold Parser.nested
  cases limit with
  | none => exact hopen
  | some n =>
    rw [State.depth_mapSpan]
    dsimp only
    split
    · exact failHere _ s
    · exact hopen

/-! ### basic parsers -/

theorem eat (kind : TokenKind) : Commutes g id (eat kind) (eat kind) := by
  refine bind (sees kind) fun b => ite ?_ (pure false)
  exact bind advance fun _ => pure true

theorem expect (kind : TokenKind) : Commutes g (Token.mapSpan g) (expect kind) (expect kind) :=
  bind (sees kind) fun _ => ite advance (bind current fun _ => failHere _)

theorem identifier : Commutes g (Ident.mapSpan g) identifier identifier := by
  refine bind current fun t => ?_
  obtain ⟨kind, span⟩ := t
  cases kind with
  | identifier name => exact bind advance fun t => pure (Ident.mk name t.span)
  | _ => exact failHere _

theorem typeName : Commutes g id typeName typeName := by
  refine bind current fun t => ?_
  obtain ⟨kind, span⟩ := t
  cases kind with
  | keyword word =>
    cases word with
    | intWord => exact bind advance fun _ => pure DataType.int
    | doubleWord => exact bind advance fun _ => pure DataType.double
    | _ => exact failHere _
  | _ => exact failHere _

theorem separated {item : Parser α} {item' : Parser β} (h : Commutes g f item item') (n : Nat) :
    Commutes g (List.map f) (separated item n) (separated item' n) := by
  induction n with
  | zero => exact outOfSteps
  | succ n ih =>
    refine bind h fun a => bind (eat _) fun b => ite ?_ (pure [a])
    exact bind ih fun as => pure (a :: as)

theorem items {item : Parser α} {item' : Parser β} (h : Commutes g f item item') (n : Nat) :
    Commutes g (List.map f) (items item n) (items item' n) :=
  bind (sees _) fun _ => ite (pure []) (separated h n)

end Commutes

end Parser

/-! ### deciding types -/

section
variable (g : SpanMap)

theorem Expr.ofLexeme_mapSpan (lexeme : String) (span : Span) :
    ofLexeme lexeme (g span) = g.result (mapSpan g) (ofLexeme lexeme span) := by
  unfold ofLexeme
  split
  · cases Double.ofText? lexeme <;> rfl
  · cases word? lexeme <;> rfl

theorem Signature.mismatch?_mapSpan (callee : String) (i : Nat) (params : List DataType)
    (args : List Expr) : mismatch? callee i params (args.map (Expr.mapSpan g)) =
      (mismatch? callee i params args).map (Fault.mapSpan g) := by
  induction params generalizing args i with
  | nil => cases args <;> rfl
  | cons t params ih =>
    cases args with
    | nil => rfl
    | cons e args =>
      simp only [List.map_cons, mismatch?, Expr.type_mapSpan, Expr.span_mapSpan]
      split
      · exact ih (i + 1) args
      · rfl

theorem Signature.callType_mapSpan (signature : Option Signature) (callee : Ident)
    (args : List Expr) : callType signature (callee.mapSpan g) (args.map (Expr.mapSpan g)) =
      g.result id (callType signature callee args) := by
  cases signature with
  | none => rfl
  | some signature =>
    have hfault : signature.fault? (callee.mapSpan g) (args.map (Expr.mapSpan g)) =
        (signature.fault? callee args).map (Fault.mapSpan g) := by
      simp only [fault?, List.length_map, mismatch?_mapSpan, Ident.name_mapSpan]
      split <;> rfl
    simp only [callType, hfault]
    cases signature.fault? callee args <;> rfl

/-- a way to build a node that passes other spans on -/
def BuildCommutes (build : BinaryOp → Span → Expr → Expr → Except Fault Expr) : Prop :=
  ∀ op sign left right, build op (g sign) (left.mapSpan g) (right.mapSpan g) =
    g.result (Expr.mapSpan g) (build op sign left right)

theorem BinaryOp.compare_mapSpan : BuildCommutes g compare := by
  intro op sign left right
  simp only [compare, Expr.type_mapSpan, Expr.span_mapSpan, ← SpanMap.apply_merge]
  split <;> rfl

theorem BinaryOp.compute_mapSpan : BuildCommutes g compute := by
  intro op sign left right
  simp only [compute, Expr.type_mapSpan, Expr.span_mapSpan, ← SpanMap.apply_merge]
  rfl

theorem Parser.declaredType_mapSpan (name : String) (written : Option DataType) (value : Expr) :
    declaredType name written (value.mapSpan g) =
      g.result id (declaredType name written value) := by
  cases written with
  | none => simp [declaredType]
  | some declared =>
    simp only [declaredType, Expr.type_mapSpan, Expr.span_mapSpan]
    split <;> rfl

end

/-! ### expressions -/

namespace Parser.Commutes

section
variable {g : SpanMap} {steps : Nat} {inner : Parser Expr}

theorem number (lexeme : String) :
    Commutes g (Expr.mapSpan g) (number lexeme) (number lexeme) := by
  refine bind advance fun t => ?_
  have h := ofExcept (g := g) (f := Expr.mapSpan g) (Expr.ofLexeme lexeme t.span)
  rwa [← Expr.ofLexeme_mapSpan] at h

theorem var (name : String) : Commutes g (Expr.mapSpan g) (var name) (var name) := by
  refine bind advance fun t => bind (lookup name) fun type => ?_
  cases type with
  | some type => exact pure (Expr.var name type t.span)
  | none => exact fail ⟨.undefinedVariable name, t.span⟩

theorem call (hx : Commutes g (Expr.mapSpan g) inner inner) :
    Commutes g (Expr.mapSpan g) (call steps inner) (call steps inner) := by
  refine bind identifier fun callee => bind (expect _) fun _ => bind (items hx steps) fun args =>
    bind (expect _) fun close => bind (signature? callee.name) fun signature => ?_
  have htype := ofExcept (g := g) (f := id) (Signature.callType signature callee args)
  rw [← Signature.callType_mapSpan] at htype
  refine bind htype fun type => pure_of_eq ?_
  simp [Expr.mapSpan, Expr.argsMapSpan_eq_map]

theorem group (hx : Commutes g (Expr.mapSpan g) inner inner) :
    Commutes g (Expr.mapSpan g) (group inner) (group inner) := by
  refine bind advance fun start => bind hx fun e => bind (expect _) fun close => pure_of_eq ?_
  simp [Expr.mapSpan_withSpan]

theorem primary (hx : Commutes g (Expr.mapSpan g) inner inner) :
    Commutes g (Expr.mapSpan g) (primary steps inner) (primary steps inner) := by
  refine bind current fun t => ?_
  obtain ⟨kind, span⟩ := t
  cases kind with
  | number lexeme => exact number lexeme
  | identifier name => exact bind ahead fun _ => ite (call hx) (var name)
  | symbol sign =>
    cases sign with
    | leftParen => exact group hx
    | _ => exact failHere _
  | _ => exact failHere _

theorem unary (hx : Commutes g (Expr.mapSpan g) inner inner) :
    Commutes g (Expr.mapSpan g) (unary steps inner) (unary steps inner) := by
  refine bind (sees _) fun _ => ite ?_ (primary hx)
  refine bind advance fun sign => bind (primary hx) fun operand => pure_of_eq ?_
  simp [Expr.mapSpan]

theorem chain {op? : TokenKind → Option BinaryOp}
    {build : BinaryOp → Span → Expr → Expr → Except Fault Expr} {operand : Parser Expr}
    (hb : BuildCommutes g build) (ho : Commutes g (Expr.mapSpan g) operand operand) (n : Nat)
    (left : Expr) : Commutes g (Expr.mapSpan g) (chain op? build operand n left)
      (chain op? build operand n (left.mapSpan g)) := by
  induction n generalizing left with
  | zero => exact outOfSteps
  | succ n ih =>
    refine bind current fun t => ?_
    obtain ⟨kind, span⟩ := t
    simp only [Token.mapSpan]
    cases op? kind with
    | none => exact pure left
    | some op =>
      refine bind advance fun sign => bind ho fun right => ?_
      have hnode := ofExcept (g := g) (f := Expr.mapSpan g) (build op sign.span left right)
      rw [← hb op sign.span left right] at hnode
      exact bind hnode ih

theorem product (hx : Commutes g (Expr.mapSpan g) inner inner) :
    Commutes g (Expr.mapSpan g) (product steps inner) (product steps inner) :=
  bind (unary hx) (chain (BinaryOp.compute_mapSpan g) (unary hx) steps)

theorem sum (hx : Commutes g (Expr.mapSpan g) inner inner) :
    Commutes g (Expr.mapSpan g) (sum steps inner) (sum steps inner) :=
  bind (product hx) (chain (BinaryOp.compute_mapSpan g) (product hx) steps)

theorem comparison (hx : Commutes g (Expr.mapSpan g) inner inner) :
    Commutes g (Expr.mapSpan g) (comparison steps inner) (comparison steps inner) :=
  bind (sum hx) (chain (BinaryOp.compare_mapSpan g) (sum hx) steps)

theorem assignTo (hx : Commutes g (Expr.mapSpan g) inner inner) (grouped : Bool) (target : Expr) :
    Commutes g (Expr.mapSpan g) (assignTo inner grouped target)
      (assignTo inner grouped (target.mapSpan g)) := by
  have hfail (target : Expr) : Commutes g (Expr.mapSpan g)
      (Parser.fail ⟨.invalidAssignmentTarget, target.span⟩ : Parser Expr)
      (Parser.fail ⟨.invalidAssignmentTarget, (target.mapSpan g).span⟩) := by
    rw [Expr.span_mapSpan]
    exact fail _
  cases target with
  | var name type span =>
    cases grouped with
    | true => exact hfail (.var name type span)
    | false =>
      refine bind advance fun _ => bind hx fun value => ?_
      rw [Expr.type_mapSpan, Expr.span_mapSpan, ← SpanMap.apply_merge]
      exact ite (pure (Expr.assign ⟨name, span⟩ value type (span.merge value.span)))
        (fail ⟨.assignmentMismatch value.type name type, value.span⟩)
  | number value type span => exact hfail (.number value type span)
  | neg operand type span => exact hfail (.neg operand type span)
  | binary op left right type span => exact hfail (.binary op left right type span)
  | assign target value type span => exact hfail (.assign target value type span)
  | call callee args type span => exact hfail (.call callee args type span)

theorem assignment (hx : Commutes g (Expr.mapSpan g) inner inner) :
    Commutes g (Expr.mapSpan g) (assignment steps inner) (assignment steps inner) :=
  bind (sees _) fun grouped => bind (comparison hx) fun left => bind (sees _) fun _ =>
    ite (assignTo hx grouped left) (pure left)

theorem expression (limit : Option Nat) (n : Nat) :
    Commutes g (Expr.mapSpan g) (expression limit n) (expression limit n) := by
  induction n with
  | zero => exact outOfSteps
  | succ n ih => exact nested .expression limit (assignment ih)

end

/-! ### statements -/

section
variable {g : SpanMap} {steps : Nat} {inner : Parser Expr} {cond : Parser Stmt}

theorem writtenType : Commutes g id writtenType writtenType :=
  bind (eat _) fun _ => ite (bind typeName fun type => pure (some type)) (pure none)

theorem declaration (hx : Commutes g (Expr.mapSpan g) inner inner) :
    Commutes g (Stmt.mapSpan g) (declaration inner) (declaration inner) := by
  refine bind advance fun word => bind identifier fun name => bind (lookup name.name) fun found =>
    ite (fail ⟨.variableRedeclared name.name, name.span⟩) ?_
  refine bind writtenType fun written => bind (expect _) fun _ => bind hx fun value => ?_
  have htype := ofExcept (g := g) (f := id) (declaredType name.name written value)
  rw [← declaredType_mapSpan] at htype
  refine bind htype fun type => bind (expect _) fun stop => bind (declare name.name type) fun _ =>
    pure_of_eq ?_
  rw [Stmt.mapSpan, SpanMap.apply_merge]
  rfl

theorem ret (hx : Commutes g (Expr.mapSpan g) inner inner) :
    Commutes g (Stmt.mapSpan g) (ret inner) (ret inner) := by
  refine bind advance fun word => bind hx fun e => bind (expect _) fun stop => pure_of_eq ?_
  simp [Stmt.mapSpan]

theorem expressionStmt (hx : Commutes g (Expr.mapSpan g) inner inner) :
    Commutes g (Stmt.mapSpan g) (expressionStmt inner) (expressionStmt inner) := by
  refine bind hx fun e => bind (expect _) fun stop => pure_of_eq ?_
  simp [Stmt.mapSpan]

theorem statement (hx : Commutes g (Expr.mapSpan g) inner inner)
    (hc : Commutes g (Stmt.mapSpan g) cond cond) :
    Commutes g (Stmt.mapSpan g) (statement inner cond) (statement inner cond) := by
  refine bind current fun t => ?_
  obtain ⟨kind, span⟩ := t
  cases kind with
  | keyword word =>
    cases word with
    | letWord => exact declaration hx
    | constWord => exact declaration hx
    | returnWord => exact ret hx
    | ifWord => exact hc
    | _ => exact expressionStmt hx
  | _ => exact expressionStmt hx

theorem statements {stmt : Parser Stmt} (h : Commutes g (Stmt.mapSpan g) stmt stmt) (n : Nat) :
    Commutes g (List.map (Stmt.mapSpan g)) (statements stmt n) (statements stmt n) := by
  induction n with
  | zero => exact outOfSteps
  | succ n ih =>
    refine bind (sees _) fun _ => ite (pure []) (bind (sees _) fun _ => ite (pure []) ?_)
    exact bind h fun first => bind ih fun rest => pure (first :: rest)

/-- a block with its span -/
theorem block {stmt : Parser Stmt} (h : Commutes g (Stmt.mapSpan g) stmt stmt) :
    Commutes g (Prod.map (List.map (Stmt.mapSpan g)) g) (block steps stmt) (block steps stmt) := by
  refine bind (expect _) fun start => bind (statements h steps) fun body =>
    bind (expect _) fun stop => pure_of_eq ?_
  simp

theorem alternate (hx : Commutes g (Expr.mapSpan g) inner inner)
    (hc : Commutes g (Stmt.mapSpan g) cond cond) :
    Commutes g (Prod.map (List.map (Stmt.mapSpan g)) g) (alternate steps inner cond)
      (alternate steps inner cond) := by
  refine bind (sees _) fun _ => ite ?_ (block (statement hx hc))
  refine bind hc fun s => pure_of_eq ?_
  simp

theorem conditionalBody (hx : Commutes g (Expr.mapSpan g) inner inner)
    (hc : Commutes g (Stmt.mapSpan g) cond cond) :
    Commutes g (Stmt.mapSpan g) (conditionalBody steps inner cond)
      (conditionalBody steps inner cond) := by
  refine bind advance fun word => bind (expect _) fun _ => bind hx fun condition =>
    bind (expect _) fun _ => ?_
  have hfail : Commutes g (Stmt.mapSpan g)
      (Parser.fail ⟨.nonIntCondition condition.type, condition.span⟩)
      (Parser.fail ⟨.nonIntCondition condition.type, g condition.span⟩) := fail _
  rw [Expr.type_mapSpan, Expr.span_mapSpan]
  refine ite ?_ hfail
  refine bind (block (statement hx hc)) fun consequent => bind (eat _) fun _ => ite ?_ ?_
  · refine bind (alternate hx hc) fun other => pure_of_eq ?_
    simp [Stmt.mapSpan, Stmt.branchMapSpan_eq_map, Stmt.alternateMapSpan]
  · refine pure_of_eq ?_
    simp [Stmt.mapSpan, Stmt.branchMapSpan_eq_map, Stmt.alternateMapSpan]

theorem conditional (limits : Limits) (n : Nat) :
    Commutes g (Stmt.mapSpan g) (conditional limits n) (conditional limits n) := by
  induction n with
  | zero => exact outOfSteps
  | succ n ih => exact nested .conditional _ (conditionalBody (expression _ n) ih)

end

/-! ### programs -/

section
variable {g : SpanMap}

theorem param : Commutes g (Binding.mapSpan g) param param := by
  refine bind identifier fun name => bind (eat _) fun _ => ite ?_ ?_
  · exact bind typeName fun type => pure (Binding.mk name type)
  · exact bind current fun _ => failHere _

theorem returnType (name : String) : Commutes g id (returnType name) (returnType name) :=
  bind (eat _) fun _ => ite typeName (bind current fun _ => failHere _)

end

end Parser.Commutes

theorem Scope.declareAll_mapSpan (g : SpanMap) (s : Scope) (bs : List Binding) :
    s.declareAll (bs.map (Binding.mapSpan g)) =
      (s.declareAll bs).mapError (Ident.mapSpan g) := by
  induction bs generalizing s with
  | nil => rfl
  | cons b bs ih =>
    simp only [List.map_cons, declareAll, Binding.mapSpan, Ident.name_mapSpan]
    cases s.declare? b.name.name b.type with
    | none => rfl
    | some s' => exact ih s'

theorem Parser.paramScope_mapSpan (g : SpanMap) (bs : List Binding) :
    paramScope (bs.map (Binding.mapSpan g)) = g.result id (paramScope bs) := by
  unfold paramScope
  rw [Scope.declareAll_mapSpan]
  cases Scope.empty.declareAll bs <;> rfl

namespace Parser.Commutes

section
variable {g : SpanMap} (limits : Limits) (steps : Nat)

theorem functionTail {stmt : Parser Stmt} (h : Commutes g (Stmt.mapSpan g) stmt stmt)
    (word : Token) : Commutes g (FunctionDecl.mapSpan g) (functionTail steps stmt word)
      (functionTail steps stmt (word.mapSpan g)) := by
  refine bind identifier fun name => bind (expect _) fun _ =>
    bind (items param steps) fun params => bind (expect _) fun _ =>
    bind (returnType name.name) fun result => ?_
  have hscope := ofExcept (g := g) (f := id) (paramScope params)
  rw [← paramScope_mapSpan] at hscope
  refine bind hscope fun scope => bind (inScope scope (block h)) fun body => pure_of_eq ?_
  simp only [FunctionDecl.mapSpan, ← Stmt.bindings_mapSpan, SpanMap.apply_merge]
  rfl

theorem function :
    Commutes g (FunctionDecl.mapSpan g) (function limits steps) (function limits steps) := by
  have hstmt := statement (expression limits.expressions steps) (conditional (g := g) limits steps)
  refine bind advance fun word => bind (functionTail steps hstmt word) fun f => ?_
  rw [FunctionDecl.signature_mapSpan]
  exact bind (register _ _) fun _ => pure f

theorem functions (n : Nat) : Commutes g (List.map (FunctionDecl.mapSpan g))
    (functions limits steps n) (functions limits steps n) := by
  induction n with
  | zero => exact outOfSteps
  | succ n ih =>
    refine bind (sees _) fun _ => ite (pure []) (bind (sees _) fun _ => ite ?_ ?_)
    · exact bind (function limits steps) fun first => bind ih fun rest => pure (first :: rest)
    · exact bind current fun _ => failHere _

theorem program :
    Commutes g (Program.mapSpan g) (program limits steps) (program limits steps) := by
  refine bind current fun start => bind (functions limits steps steps) fun decls =>
    bind current fun stop => pure_of_eq ?_
  simp [Program.mapSpan]

end

end Parser.Commutes

/-! ### rows of tokens of the same kinds -/

theorem Parser.State.initial_erase (tokens : List Token) :
    (initial tokens).mapSpan .erase = initial (tokens.map (Token.mapSpan .erase)) := rfl

theorem Program.ofTokens_erase (limits : Limits) (tokens : List Token) :
    ofTokens limits (tokens.map (Token.mapSpan .erase)) =
      SpanMap.erase.result eraseSpans (ofTokens limits tokens) := by
  unfold ofTokens run
  rw [List.length_map, ← Parser.State.initial_erase, Parser.Commutes.program]
  cases Parser.program limits (Parser.stepBound limits tokens.length) (.initial tokens) <;> rfl

theorem Token.map_erase_eq {tokens tokens' : List Token}
    (h : tokens.map Token.kind = tokens'.map Token.kind) :
    tokens.map (Token.mapSpan .erase) = tokens'.map (Token.mapSpan .erase) := by
  have hplaced (ts : List Token) : ts.map (Token.mapSpan .erase) =
      (ts.map Token.kind).map fun kind => ⟨kind, .point .origin⟩ := by
    rw [List.map_map]
    rfl
  rw [hplaced, hplaced, h]

/-- both give values in a relation, or both fail with one code and one message -/
def SameResult (R : α → α → Prop) : Except Diagnostic α → Except Diagnostic α → Prop
  | .ok a, .ok b => R a b
  | .error d, .error d' => d.code = d'.code ∧ d.message = d'.message
  | _, _ => False

theorem SameResult.map {R : α → α → Prop} {S : β → β → Prop} {f : α → β}
    (hf : ∀ a b, R a b → S (f a) (f b)) :
    ∀ {x y : Except Diagnostic α}, SameResult R x y → SameResult S (x.map f) (y.map f)
  | .ok a, .ok b, h => hf a b h
  | .error _, .error _, h => h

/-- programs that differ in their spans only -/
def Program.SameUpToSpans (p q : Program) : Prop := p.eraseSpans = q.eraseSpans

theorem SameResult.of_erase (file file' : SourceFile) {x y : Except Fault Program}
    (h : SpanMap.erase.result Program.eraseSpans x = SpanMap.erase.result Program.eraseSpans y) :
    SameResult Program.SameUpToSpans (x.mapError file.diagnose) (y.mapError file'.diagnose) := by
  cases x with
  | ok p =>
    cases y with
    | ok q =>
      simp only [SpanMap.result_ok] at h
      exact Except.ok.inj h
    | error fault => cases h
  | error fault =>
    cases y with
    | ok q => cases h
    | error fault' =>
      simp only [SpanMap.result_error] at h
      have hcause : (fault.mapSpan .erase).cause = (fault'.mapSpan .erase).cause :=
        congrArg Fault.cause (Except.error.inj h)
      exact ⟨congrArg Cause.code hcause, congrArg Cause.message hcause⟩

/-- rows of the same kinds give one program up to spans, or one cause in two places -/
theorem Program.agree_ofTokens (limits : Limits) (file file' : SourceFile)
    {tokens tokens' : List Token} (h : tokens.map Token.kind = tokens'.map Token.kind) :
    SameResult SameUpToSpans ((ofTokens limits tokens).mapError file.diagnose)
      ((ofTokens limits tokens').mapError file'.diagnose) := by
  refine SameResult.of_erase file file' ?_
  rw [← ofTokens_erase, ← ofTokens_erase, Token.map_erase_eq h]

namespace SourceFile

theorem parse_of_tokens {file : SourceFile} {tokens : List Token} (h : file.tokens = .ok tokens) :
    file.parse = (Program.ofTokens .standard tokens).mapError file.diagnose := by
  unfold parse
  rw [h]
  dsimp only
  cases Program.ofTokens .standard tokens <;> rfl

theorem compile_eq (options : CompileOptions) (file : SourceFile) :
    file.compile options = file.parse.map fun p => ⟨p, p.moduleText options.codegen⟩ := by
  unfold compile
  cases file.parse <;> rfl

/-- **Layout does not matter.**  Two texts whose tokens are of the same kinds are compiled to one
module text and one program up to spans, or both fail with one code and one message; and so do any
two rows of tokens of the same kinds, whatever their spans and their files are. -/
theorem compile_agree (options : CompileOptions) (file file' : SourceFile)
    (tokens tokens' : List Token) (h : tokens.map Token.kind = tokens'.map Token.kind) :
    (file.tokens = .ok tokens → file'.tokens = .ok tokens' →
      SameResult (fun c c' => c.wat = c'.wat ∧ c.program.SameUpToSpans c'.program)
        (file.compile options) (file'.compile options)) ∧
    SameResult Program.SameUpToSpans ((Program.ofTokens .standard tokens).mapError file.diagnose)
      ((Program.ofTokens .standard tokens').mapError file'.diagnose) := by
  have hprograms := Program.agree_ofTokens .standard file file' h
  refine ⟨fun htokens htokens' => ?_, hprograms⟩
  rw [← parse_of_tokens htokens, ← parse_of_tokens htokens'] at hprograms
  rw [compile_eq, compile_eq]
  exact hprograms.map fun p q hpq => ⟨Program.moduleText_eq options.codegen hpq, hpq⟩

/-- whether the tokens of two texts are of the same kinds -/
def sameKinds (file file' : SourceFile) : Bool :=
  match file.tokens, file'.tokens with
  | .ok tokens, .ok tokens' => tokens.map Token.kind == tokens'.map Token.kind
  | _, _ => false

theorem tokens_of_sameKinds {file file' : SourceFile} (h : file.sameKinds file' = true) :
    ∃ tokens tokens', file.tokens = .ok tokens ∧ file'.tokens = .ok tokens' ∧
      tokens.map Token.kind = tokens'.map Token.kind := by
  unfold sameKinds at h
  split at h
  · next tokens tokens' htokens htokens' =>
    exact ⟨tokens, tokens', htokens, htokens', beq_iff_eq.1 h⟩
  · cases h

/-- a program in two layouts -/
def layoutFile : SourceFile := ⟨"a", "function f(a: Int): Int \x7b return a / 2; \x7d"⟩

def layoutFile' : SourceFile :=
  ⟨"b", "function // a function\n  f( a:Int ) :Int\x7b\r\n\treturn a/2;//half\n\x7d //"⟩

/-- a faulty program in two layouts -/
def layoutFault : SourceFile := ⟨"a", "function f(): Int \x7b return 1 < 0.5; \x7d"⟩

def layoutFault' : SourceFile := ⟨"b", "function f():Int\x7breturn\n1<\n\n0.5 ;\x7d"⟩

theorem compile_agree_example :
    layoutFile.sameKinds layoutFile' = true ∧ layoutFault.sameKinds layoutFault' = true ∧
      SameResult (fun c c' => c.wat = c'.wat ∧ c.program.SameUpToSpans c'.program)
        (layoutFile.compile ⟨.strict⟩) (layoutFile'.compile ⟨.strict⟩) ∧
      SameResult (fun c c' => c.wat = c'.wat ∧ c.program.SameUpToSpans c'.program)
        (layoutFault.compile ⟨.strict⟩) (layoutFault'.compile ⟨.strict⟩) := by
  have hok : layoutFile.sameKinds layoutFile' = true := by decide +kernel
  have hfault : layoutFault.sameKinds layoutFault' = true := by decide +kernel
  obtain ⟨tokens₁, tokens₁', h₁, h₁', hkinds₁⟩ := tokens_of_sameKinds hok
  obtain ⟨tokens₂, tokens₂', h₂, h₂', hkinds₂⟩ := tokens_of_sameKinds hfault
  exact ⟨hok, hfault, (compile_agree _ _ _ _ _ hkinds₁).1 h₁ h₁',
    (compile_agree _ _ _ _ _ hkinds₂).1 h₂ h₂'⟩

end SourceFile

end Wattle
