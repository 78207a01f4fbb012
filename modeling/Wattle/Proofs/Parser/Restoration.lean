import Wattle.Proofs.Parser.Locality

/-!
# What a run leaves behind

Wherever a run ends, with a value or with a fault, it has closed what it has opened and knows the
functions that it knew before.  Expressions leave the scope alone, and statements only add names to
it.  Both are properties of runs that the parsers inherit from their parts (`inExprs_restores`,
`inStmts_restores`), so that nothing is shown here of the single parsers.  A function has a scope of
its own for its body, and its signature is registered behind the body and not before.

* `restores_expression`, `restores_conditional`   the parts that are nested, by induction on the
                                                  steps;
* `function_registers`                            functions;
* `run_restores`                                  all of them, said of the state that is reached,
                                                  and that one is reached with enough steps.
-/

namespace Wattle

open Wattle.Parser

/-! ### scopes and states -/

/-- what a part does to the scope: nothing, or it adds names -/
inductive ScopeUse where
  | kept
  | grown

/-- the scopes that a part may come to; a name that is taken keeps its type -/
def ScopeUse.Allows : ScopeUse → Scope → Scope → Prop
  | kept, S, T => T = S
  | grown, S, T => ∀ name type, S.lookup name = some type → T.lookup name = some type

namespace ScopeUse

variable {use : ScopeUse} {S T U : Scope}

theorem Allows.refl (use : ScopeUse) (S : Scope) : use.Allows S S := by
  cases use with
  | kept => rfl
  | grown => exact fun _ _ h => h

theorem Allows.trans (h : use.Allows S T) (h' : use.Allows T U) : use.Allows S U := by
  cases use with
  | kept => exact Eq.trans h' h
  | grown => exact fun name type hname => h' name type (h name type hname)

theorem Allows.of_kept (h : kept.Allows S T) : use.Allows S T := by
  obtain rfl : T = S := h
  exact .refl use T

/-- a declaration does not change the type of a name that is taken -/
theorem grown_declare (S : Scope) (name : String) (type : DataType) :
    grown.Allows S (S.declare name type) := by
  intro other found h
  rw [Scope.lookup_declare]
  split
  · next heq =>
    subst heq
    rw [h, Option.getD_some]
  · exact h

end ScopeUse

namespace Parser

/-- in `s'` as much is open as in `s`, the same functions are known, and the scope is one that the
part may come to -/
structure State.Restored (use : ScopeUse) (s s' : State) : Prop where
  depth : ∀ nesting, s'.depth nesting = s.depth nesting
  functions : s'.functions = s.functions
  scope : use.Allows s.scope s'.scope

namespace State

variable {use : ScopeUse} {s s' s'' : State}

theorem Restored.refl (use : ScopeUse) (s : State) : s.Restored use s :=
  ⟨fun _ => rfl, rfl, .refl use s.scope⟩

theorem Restored.trans (h : s.Restored use s') (h' : s'.Restored use s'') : s.Restored use s'' :=
  ⟨fun nesting => (h'.depth nesting).trans (h.depth nesting), h'.functions.trans h.functions,
    h.scope.trans h'.scope⟩

theorem Restored.of_kept (h : s.Restored .kept s') : s.Restored use s' :=
  ⟨h.depth, h.functions, h.scope.of_kept⟩

theorem restored_advance (use : ScopeUse) (s : State) : s.Restored use s.advance := by
  refine ⟨advance_depth s, advance_functions s, ?_⟩
  rw [advance_scope]
  exact .refl use s.scope

/-- what has been opened is closed behind a part that has closed its own -/
theorem Restored.leave {nesting : Nesting} (h : (s.enter nesting).Restored use s') :
    s.Restored use (s'.leave nesting) := by
  refine ⟨fun other => ?_, ?_, ?_⟩
  · rw [leave_depth, h.depth, enter_depth]
    split
    · exact Nat.add_sub_cancel ..
    · rfl
  · rw [leave_functions, h.functions, enter_functions]
  · have hscope := h.scope
    rw [enter_scope] at hscope
    rwa [leave_scope]

end State

/-! ### runs -/

/-- wherever a run of the parser ends, the state is restored -/
def Restores (use : ScopeUse) : RunProperty Unit := fun _ s p =>
  ∀ s', (p () s).state? = some s' → s.Restored use s'

section
variable {α : Type} {use : ScopeUse} {s : State} {p : Unit → Parser α}

theorem Restores.of_kept (h : Restores .kept α s p) : Restores use α s p :=
  fun s' hs => (h s' hs).of_kept

theorem Restores.inScope {scope : Scope} (h : Restores use α (s.withScope scope) p) :
    Restores .kept α s fun i => inScope scope (p i) := by
  intro s' hs
  obtain ⟨t, ht, rfl⟩ := Option.map_eq_some_iff.1 ((Outcome.state?_mapState ..).symm.trans hs)
  have hinside := h t ht
  refine ⟨fun nesting => ?_, hinside.functions, rfl⟩
  rw [← State.withScope_depth s nesting scope, ← hinside.depth nesting]
  exact State.withScope_depth ..

theorem Restores.nested {nesting : Nesting} {limit : Option Nat}
    (h : Restores use α (s.enter nesting) p) :
    Restores use α s fun i => nested nesting limit (p i) := by
  intro s' hs
  have hopen (hs : ((p () (s.enter nesting)).mapState (·.leave nesting)).state? = some s') :
      s.Restored use s' := by
    rw [Outcome.state?_mapState] at hs
    obtain ⟨t, ht, rfl⟩ := Option.map_eq_some_iff.1 hs
    exact (h t ht).leave
  cases limit with
  | none => exact hopen hs
  | some n =>
    by_cases hn : n ≤ s.depth nesting
    · simp only [Parser.nested, hn, if_true] at hs
      obtain rfl := Option.some.inj hs
      exact .refl use s
    · simp only [Parser.nested, hn, if_false] at hs
      exact hopen hs

end

theorem inExprs_restores (use : ScopeUse) : (Restores use).InExprs () where
  stays h s s' hs := by
    obtain rfl := Option.some.inj ((h.state? s).symm.trans hs)
    exact .refl use s
  advance s s' hs := by
    obtain rfl := Option.some.inj hs
    exact s.restored_advance use
  bind {_ _ s p f} hp hf s'' hs := by
    change ((p () >>= f ()) s).state? = some s'' at hs
    rw [bind_apply] at hs
    -- a fault in the first part ends the run, and otherwise the second part goes on from there
    cases h : p () s with
    | done a s' =>
      rw [h] at hs
      exact (hp.property s' (by rw [h]; rfl)).trans ((hf a s' h).property s'' hs)
    | failed fault s' =>
      rw [h] at hs
      exact hp.property s'' (by rw [h]; exact hs)
    | outOfSteps =>
      rw [h] at hs
      cases hs
  fork {_ s p q} hp hq s' hs := by
    change ((if s.ahead = .symbol .leftParen then p () else q ()) s).state? = some s' at hs
    split at hs
    · exact hp.property s' hs
    · exact hq.property s' hs

/-- a declaration adds a name -/
theorem inStmts_restores : (Restores .grown).InStmts () where
  toInExprs := inExprs_restores .grown
  declare s name type s' hs := by
    obtain rfl := Option.some.inj hs
    exact ⟨fun nesting => s.withScope_depth nesting _, rfl, ScopeUse.grown_declare _ _ _⟩

theorem loops_restores (use : ScopeUse) (n : Nat) : (Restores use).Loops () fun _ => n := by
  refine .of_stop (inExprs_restores use) (fun h s' hs => ?_) fun _ => Nat.le_refl n
  rw [h] at hs
  cases hs

/-! ### nested parts -/

theorem restores_expression (limit : Option Nat) (n : Nat) (s : State) :
    Restores .kept Expr s fun _ => expression limit n := by
  induction n generalizing s with
  | zero => exact fun _ h => nomatch h
  | succ n ih =>
    have hx : (Restores .kept).Inside () (s.enter .expression) fun _ => expression limit n :=
      fun t _ => RunProperty.holds_expression rfl (ih t)
    exact Restores.nested ((inExprs_restores .kept).assignment (loops_restores .kept n) hx
      (.refl _)).property

section
variable (limits : Limits) (n : Nat) (s : State)

theorem inside_restores (b : State) :
    (Restores .grown).Inside () b fun _ => expression limits.expressions n := fun t _ =>
  RunProperty.holds_expression rfl (restores_expression limits.expressions n t).of_kept

/-- the first token of a conditional may be any one, so that what follows is looked at by itself -/
theorem restores_conditional : Restores .grown Stmt s fun _ => conditional limits n := by
  induction n generalizing s with
  | zero => exact fun _ h => nomatch h
  | succ n ih =>
    let t : State := (s.enter .conditional).advance
    have hc : (Restores .grown).InsideIf () t.preceded fun _ => conditional limits n :=
      fun u _ hk => RunProperty.takes_conditional rfl hk (ih u)
    have htail := inStmts_restores.conditionalTail (loops_restores .grown n)
      (inside_restores limits n _) hc (State.goesOn_preceded_iff.2 (.refl t))
      (s.enter .conditional).current
    exact Restores.nested fun s' hs => (State.restored_advance ..).trans (htail.property s' hs)

theorem restores_statement : (Restores .grown).Takes () s fun _ =>
    statement (expression limits.expressions n) (conditional limits n) :=
  inStmts_restores.statement (inside_restores limits n s.preceded)
    (fun t _ hk => RunProperty.takes_conditional rfl hk (restores_conditional limits n t))
    (State.goesOn_preceded_iff.2 (.refl s))

theorem restores_block : (Restores .grown).Holds () s s fun _ =>
    block n (statement (expression limits.expressions n) (conditional limits n)) :=
  inStmts_restores.block (loops_restores .grown n) fun t _ => restores_statement limits n t

end

/-! ### functions -/

/-- in `s'` as much is open as in `s`, the scope is the same, and the signature of `f` is known in
front of the others -/
structure State.Registered (f : FunctionDecl) (s s' : State) : Prop where
  depth : ∀ nesting, s'.depth nesting = s.depth nesting
  scope : s'.scope = s.scope
  functions : s'.functions = s.functions.register f.name.name f.signature

theorem State.Restored.register {s s' : State} (h : s.Restored .kept s') (f : FunctionDecl) :
    s.Registered f (s'.withFunctions (s'.functions.register f.name.name f.signature)) :=
  ⟨fun nesting => (s'.withFunctions_depth nesting _).trans (h.depth nesting), h.scope,
    congrArg (·.register f.name.name f.signature) h.functions⟩

/-- the body is the only part that adds names, and has a scope of its own -/
theorem restores_functionTail (limits : Limits) (n : Nat) (s : State) (word : Token) :
    Restores .kept FunctionDecl s fun _ => functionTail n
      (statement (expression limits.expressions n) (conditional limits n)) word := by
  have H := inExprs_restores .kept
  refine (H.functionTail (loops_restores .kept n) (fun scope t _ => ?_) word).property
  have hblock := restores_block limits n (t.withScope scope)
  exact hblock.inScope hblock.property.inScope

/-- a run that ends with a function has registered it, and one that ends with a fault has restored
the state -/
theorem function_registers (limits : Limits) (n : Nat) (s : State) :
    (∀ f s', function limits n s = .done f s' → s.Registered f s') ∧
      ∀ fault s', function limits n s = .failed fault s' → s.Restored .kept s' := by
  have htail := restores_functionTail limits n s.advance s.current
  have hrestored {t : State} (ht : (functionTail n (statement (expression limits.expressions n)
      (conditional limits n)) s.current s.advance).state? = some t) : s.Restored .kept t :=
    (s.restored_advance .kept).trans (htail t ht)
  simp only [function, functionOf, advance_bind]
  rw [bind_apply]
  cases h : functionTail n (statement (expression limits.expressions n)
      (conditional limits n)) s.current s.advance with
  | done f t =>
    rw [h] at hrestored
    refine ⟨fun f' s' hf => ?_, fun fault s' hf => by cases hf⟩
    cases hf
    exact (hrestored rfl).register f
  | failed fault t =>
    rw [h] at hrestored
    refine ⟨fun f s' hf => (by cases hf), fun fault' s' hf => ?_⟩
    cases hf
    exact hrestored rfl
  | outOfSteps => exact ⟨fun f s' hf => (by cases hf), fun fault s' hf => (by cases hf)⟩

/-! ### all parts -/

section
variable (limits : Limits) (steps : Nat) (s s' : State)

/-- **What a run leaves behind.**  With enough steps a run of one of the parsers ends; conditionals
and functions are not read at the end of the file.  Wherever it ends, whether with a value or with a
fault, as many expressions and conditionals are open as before.  Expressions change neither the
scope nor the functions; conditionals, statements and blocks add names to the scope and keep the
types of those that are there.  A function leaves the scope as it was, and where it has been read
its signature is what its name stands for; otherwise the functions are as before. -/
theorem run_restores :
    (s.Enough limits steps →
      expression limits.expressions steps s ≠ .outOfSteps ∧
      statement (expression limits.expressions steps) (conditional limits steps) s ≠ .outOfSteps ∧
      block steps (statement (expression limits.expressions steps) (conditional limits steps)) s ≠
        .outOfSteps ∧
      (s.current.kind ≠ .endOfFile →
        conditional limits steps s ≠ .outOfSteps ∧ function limits steps s ≠ .outOfSteps)) ∧
    ((expression limits.expressions steps s).state? = some s' → s.Restored .kept s') ∧
    ((conditional limits steps s).state? = some s' → s.Restored .grown s') ∧
    ((statement (expression limits.expressions steps) (conditional limits steps) s).state? =
      some s' → s.Restored .grown s') ∧
    ((block steps (statement (expression limits.expressions steps) (conditional limits steps))
      s).state? = some s' → s.Restored .grown s') ∧
    (∀ fault, function limits steps s = .failed fault s' → s.Restored .kept s') ∧
    ∀ f, function limits steps s = .done f s' →
      (∀ nesting, s'.depth nesting = s.depth nesting) ∧ s'.scope = s.scope ∧
        ∀ name, s'.functions.get? name =
          if name = f.name.name then some ⟨f.params.map (·.type), f.returnType⟩
          else s.functions.get? name := by
  obtain ⟨hdone, hfailed⟩ := function_registers limits steps s
  refine ⟨fun h => ?_, restores_expression limits.expressions steps s s',
    restores_conditional limits steps s s', (restores_statement limits steps s).property s',
    (restores_block limits steps s).property s', fun fault h => hfailed fault s' h, fun f h => ?_⟩
  · exact ⟨expression_finishes h, statement_finishes h, block_finishes h,
      fun hk => ⟨conditional_finishes h hk, function_finishes h hk⟩⟩
  · obtain ⟨hdepth, hscope, hfunctions⟩ := hdone f s' h
    refine ⟨hdepth, hscope, fun name => ?_⟩
    rw [hfunctions, FunctionTable.get?_register]
    rfl

end

/-- behind a function `f` and inside of another one, which has a variable -/
def busy (kinds : List TokenKind) : State where
  rest := Program.row kinds
  last := .eof .origin
  scope := ⟨[("x", .double)]⟩
  functions := ⟨[("f", ⟨[], .double⟩)]⟩
  expressions := 3
  conditionals := 2

def unclosed : List TokenKind := [.symbol .leftParen, .identifier "x", .symbol .plus]

def redeclared : List TokenKind :=
  [.keyword .ifWord, .symbol .leftParen, .number "1", .symbol .rightParen, .symbol .leftBrace,
    .keyword .letWord, .identifier "y", .symbol .assign, .number "2", .symbol .semicolon,
    .keyword .letWord, .identifier "y"]

/-- one more function `f`, up to the value that it returns -/
def opening : List TokenKind :=
  [.keyword .functionWord, .identifier "f", .symbol .leftParen, .identifier "x", .symbol .colon,
    .keyword .intWord, .symbol .rightParen, .symbol .colon, .keyword .intWord, .symbol .leftBrace,
    .keyword .returnWord]

def closing : List TokenKind := [.identifier "x", .symbol .semicolon, .symbol .rightBrace]

theorem run_restores_busy :
    ((busy redeclared).Enough .standard 200 ∧
      statement (expression (some 64) 200) (conditional .standard 200) (busy redeclared) ≠
        .outOfSteps ∧ function .standard 200 (busy redeclared) ≠ .outOfSteps) ∧
    (∃ s', (expression (some 64) 200 (busy unclosed)).state? = some s' ∧
      (busy unclosed).Restored .kept s') ∧
    (∃ s', (conditional .standard 200 (busy redeclared)).state? = some s' ∧
      (busy redeclared).Restored .grown s') ∧
    (∃ s', (statement (expression (some 64) 200) (conditional .standard 200)
      (busy redeclared)).state? = some s' ∧ (busy redeclared).Restored .grown s') ∧
    (∃ s', (block 200 (statement (expression (some 64) 200) (conditional .standard 200))
      (busy (redeclared.drop 4))).state? = some s' ∧
        (busy (redeclared.drop 4)).Restored .grown s') ∧
    (∃ fault s', function .standard 200 (busy (opening ++ unclosed)) = .failed fault s' ∧
      (busy (opening ++ unclosed)).Restored .kept s') ∧
    ∃ f s', function .standard 200 (busy (opening ++ closing)) = .done f s' ∧
      s'.scope = ⟨[("x", .double)]⟩ ∧ s'.functions.get? "f" = some ⟨[.int], .int⟩ := by
  have henough : (busy redeclared).Enough .standard 200 := ⟨.inl ⟨rfl, rfl⟩, by decide +kernel⟩
  have ends {α : Type} {o : Outcome α} (h : o.state?.isSome = true) : ∃ s', o.state? = some s' :=
    Option.isSome_iff_exists.1 h
  obtain ⟨s₁, h₁⟩ := ends (o := expression (some 64) 200 (busy unclosed)) (by decide +kernel)
  obtain ⟨s₂, h₂⟩ := ends (o := conditional .standard 200 (busy redeclared)) (by decide +kernel)
  obtain ⟨s₃, h₃⟩ := ends (o := statement (expression (some 64) 200) (conditional .standard 200)
    (busy redeclared)) (by decide +kernel)
  obtain ⟨s₄, h₄⟩ := ends (o := block 200 (statement (expression (some 64) 200)
    (conditional .standard 200)) (busy (redeclared.drop 4))) (by decide +kernel)
  obtain ⟨-, hstatement, -, hword⟩ := (run_restores .standard 200 _ s₂).1 henough
  refine ⟨⟨henough, hstatement, (hword (by decide +kernel)).2⟩,
    ⟨s₁, h₁, (run_restores .standard 200 _ s₁).2.1 h₁⟩,
    ⟨s₂, h₂, (run_restores .standard 200 _ s₂).2.2.1 h₂⟩,
    ⟨s₃, h₃, (run_restores .standard 200 _ s₃).2.2.2.1 h₃⟩,
    ⟨s₄, h₄, (run_restores .standard 200 _ s₄).2.2.2.2.1 h₄⟩, ?_, ?_⟩
  · have hfailed : (function .standard 200 (busy (opening ++ unclosed))).result?.map
        Except.isOk = some false := by decide +kernel
    cases h : function .standard 200 (busy (opening ++ unclosed)) with
    | failed fault s' =>
      exact ⟨fault, s', rfl, (run_restores .standard 200 _ s').2.2.2.2.2.1 fault h⟩
    | done f s' | outOfSteps =>
      rw [h] at hfailed
      cases hfailed
  · have hdone : (function .standard 200 (busy (opening ++ closing))).result?.map (fun r =>
        r.toOption.map fun f => (f.name.name, f.signature)) =
          some (some ("f", ⟨[.int], .int⟩)) := by decide +kernel
    cases h : function .standard 200 (busy (opening ++ closing)) with
    | done f s' =>
      rw [h] at hdone
      obtain ⟨hname, hsignature⟩ := Prod.mk.inj (Option.some.inj (Option.some.inj hdone))
      obtain ⟨-, hscope, hfunctions⟩ := (run_restores .standard 200 _ s').2.2.2.2.2.2 f h
      refine ⟨f, s', rfl, hscope, ?_⟩
      rw [hfunctions, hname, if_pos rfl]
      exact congrArg some hsignature
    | failed fault s' | outOfSteps =>
      rw [h] at hdone
      cases hdone

end Parser

end Wattle
