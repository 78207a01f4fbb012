import Wattle.Parser.Program
import Wattle.Proofs.Grammar

/-!
# What a successful reading has done

The basic parsers that cannot fail are run where they stand in front of another one (`_bind`); for
each of the others: when it ends with a value, and in which state (`_done`).  The composed parsers
are taken apart with these lemmas.
-/

namespace Wattle.Parser

variable {α β : Type} {s s' s'' : State}

/-! ### states -/

namespace State

/-- the state with other variables in scope -/
def withScope (s : State) (scope : Scope) : State := { s with scope := scope }

/-- the state with other functions declared -/
def withFunctions (s : State) (functions : FunctionTable) : State :=
  { s with functions := functions }

section
variable (s : State) (nesting other : Nesting) (scope : Scope) (functions : FunctionTable)

@[simp] theorem advance_rest : s.advance.rest = s.rest.tail := by
  unfold advance
  cases h : s.rest with
  | nil => simp [h]
  | cons t rest => rfl

theorem advance_suffix : s.advance.rest <:+ s.rest := by
  rw [advance_rest]
  exact List.tail_suffix _

@[simp] theorem advance_scope : s.advance.scope = s.scope := by
  unfold advance; split <;> rfl

@[simp] theorem advance_functions : s.advance.functions = s.functions := by
  unfold advance; split <;> rfl

@[simp] theorem advance_depth : s.advance.depth nesting = s.depth nesting := by
  unfold advance; split <;> rfl

@[simp] theorem enter_rest : (s.enter nesting).rest = s.rest := by cases nesting <;> rfl
@[simp] theorem enter_scope : (s.enter nesting).scope = s.scope := by cases nesting <;> rfl

@[simp] theorem enter_functions : (s.enter nesting).functions = s.functions := by
  cases nesting <;> rfl

@[simp] theorem enter_depth : (s.enter nesting).depth other =
    if nesting = other then s.depth other + 1 else s.depth other := by
  cases nesting <;> cases other <;> rfl

@[simp] theorem enter_current : (s.enter nesting).current = s.current := by cases nesting <;> rfl

@[simp] theorem leave_rest : (s.leave nesting).rest = s.rest := by cases nesting <;> rfl
@[simp] theorem leave_scope : (s.leave nesting).scope = s.scope := by cases nesting <;> rfl

@[simp] theorem leave_functions : (s.leave nesting).functions = s.functions := by
  cases nesting <;> rfl

@[simp] theorem leave_depth : (s.leave nesting).depth other =
    if nesting = other then s.depth other - 1 else s.depth other := by
  cases nesting <;> cases other <;> rfl

@[simp] theorem withScope_rest : (s.withScope scope).rest = s.rest := rfl
@[simp] theorem withScope_scope : (s.withScope scope).scope = scope := rfl
@[simp] theorem withScope_functions : (s.withScope scope).functions = s.functions := rfl

@[simp] theorem withScope_depth : (s.withScope scope).depth nesting = s.depth nesting := by
  cases nesting <;> rfl

@[simp] theorem withFunctions_rest : (s.withFunctions functions).rest = s.rest := rfl
@[simp] theorem withFunctions_scope : (s.withFunctions functions).scope = s.scope := rfl

@[simp] theorem withFunctions_functions :
    (s.withFunctions functions).functions = functions := rfl

@[simp] theorem withFunctions_depth :
    (s.withFunctions functions).depth nesting = s.depth nesting := by
  cases nesting <;> rfl

end

/-- a token that is seen is the current one -/
theorem kind_of_sees {s : State} {kind : TokenKind} (h : s.sees kind = true)
    (hk : kind ≠ .endOfFile) : s.current.kind = kind := by
  unfold sees at h
  unfold current
  split at h
  · exact absurd (beq_iff_eq.1 h) hk
  · exact beq_iff_eq.1 h

end State

/-! ### the monad -/

@[simp] theorem pure_done {a b : α} :
    (pure a : Parser α) s = .done b s' ↔ a = b ∧ s = s' := by
  rw [pure_apply, Outcome.done.injEq]

theorem bind_done {p : Parser α} {f : α → Parser β} {b : β} :
    (p >>= f) s = .done b s'' ↔ ∃ a s', p s = .done a s' ∧ f a s' = .done b s'' := by
  rw [bind_apply]
  cases p s with
  | done a t =>
    constructor
    · exact fun h => ⟨a, t, rfl, h⟩
    · rintro ⟨a', t', h, h'⟩
      cases h
      exact h'
  | failed e t => simp
  | outOfSteps => simp

@[simp] theorem ite_done {c : Prop} [Decidable c] {p q : Parser α} {a : α} :
    (if c then p else q) s = .done a s' ↔
      c ∧ p s = .done a s' ∨ ¬ c ∧ q s = .done a s' := by
  by_cases h : c <;> simp [h]

/-! ### the cursor -/

section
variable (f : Token → Parser β) (g : TokenKind → Parser β) (k : Bool → Parser β)

@[simp] theorem current_bind : (current >>= f) s = f s.current s := rfl
@[simp] theorem advance_bind : (advance >>= f) s = f s.current s.advance := rfl
@[simp] theorem ahead_bind : (ahead >>= g) s = g s.ahead s := rfl
@[simp] theorem sees_bind (kind : TokenKind) : (sees kind >>= k) s = k (s.sees kind) s := rfl

end

@[simp] theorem fail_done {fault : Fault} {a : α} : ¬ fail fault s = .done a s' := by
  simp [fail]

@[simp] theorem failHere_done {cause : Cause} {a : α} : ¬ failHere cause s = .done a s' := by
  simp [failHere]

@[simp] theorem outOfSteps_done {a : α} : ¬ outOfSteps s = .done a s' := by
  simp [outOfSteps]

@[simp] theorem ofExcept_done {x : Except Fault α} {a : α} :
    ofExcept x s = .done a s' ↔ x = .ok a ∧ s = s' := by
  cases x <;> simp [ofExcept]

theorem eat_done {kind : TokenKind} {b : Bool} :
    eat kind s = .done b s' ↔ s.sees kind = b ∧ (if b then s.advance else s) = s' := by
  cases h : s.sees kind <;> cases b <;> simp [eat, h]

@[simp] theorem expect_done {kind : TokenKind} {t : Token} :
    expect kind s = .done t s' ↔ s.sees kind = true ∧ s.current = t ∧ s.advance = s' := by
  cases h : s.sees kind <;> simp [expect, h, advance]

@[simp] theorem identifier_done {name : Ident} :
    identifier s = .done name s' ↔
      s.current = ⟨.identifier name.name, name.span⟩ ∧ s.advance = s' := by
  obtain ⟨name, span⟩ := name
  cases h : s.current with
  | mk kind span' => cases kind <;> simp [identifier, h, and_assoc]

@[simp] theorem typeName_done {type : DataType} :
    typeName s = .done type s' ↔ s.current.kind = .keyword type.keyword ∧ s.advance = s' := by
  cases h : s.current with
  | mk kind span =>
    cases kind with
    | keyword word => cases word <;> cases type <;> simp [typeName, h, DataType.keyword]
    | _ => simp [typeName, h]

theorem writtenType_done {written : Option DataType} :
    writtenType s = .done written s' ↔
      s.sees (.symbol .colon) = false ∧ written = none ∧ s = s' ∨
        s.sees (.symbol .colon) = true ∧ ∃ type, written = some type ∧
          s.advance.current.kind = .keyword type.keyword ∧ s.advance.advance = s' := by
  simp only [writtenType, bind_done, eat_done, ite_done, typeName_done, pure_done]
  cases hs : s.sees (.symbol .colon) <;> simp [and_comm, eq_comm, and_assoc]

/-! ### names and nesting -/

section
variable (f : Option DataType → Parser β) (g : Option Signature → Parser β) (k : Unit → Parser β)

@[simp] theorem lookup_bind (name : String) :
    (lookup name >>= f) s = f (s.scope.lookup name) s := rfl

@[simp] theorem declare_bind (name : String) (type : DataType) :
    (declare name type >>= k) s = k () (s.withScope (s.scope.declare name type)) := rfl

@[simp] theorem signature?_bind (name : String) :
    (signature? name >>= g) s = g (s.functions.get? name) s := rfl

@[simp] theorem register_bind (name : String) (signature : Signature) :
    (register name signature >>= k) s =
      k () (s.withFunctions (s.functions.register name signature)) := rfl

end

theorem mapState_done {x : Outcome α} {f : State → State} {a : α} :
    x.mapState f = .done a s' ↔ ∃ t, x = .done a t ∧ f t = s' := by
  cases x with
  | done b t => simp [Outcome.mapState, and_assoc, exists_and_left]
  | failed e t => simp [Outcome.mapState]
  | outOfSteps => simp [Outcome.mapState]

theorem inScope_done {scope : Scope} {p : Parser α} {a : α} :
    inScope scope p s = .done a s' ↔
      ∃ t, p (s.withScope scope) = .done a t ∧ t.withScope s.scope = s' :=
  mapState_done

/-- one level more may be opened -/
def State.Admits (s : State) (nesting : Nesting) (limit : Option Nat) : Prop :=
  ∀ n, limit = some n → s.depth nesting < n

theorem nested_done {nesting : Nesting} {limit : Option Nat} {p : Parser α} {a : α} :
    nested nesting limit p s = .done a s' ↔
      s.Admits nesting limit ∧
        ∃ t, p (s.enter nesting) = .done a t ∧ t.leave nesting = s' := by
  unfold nested State.Admits
  cases limit with
  | none => simp [mapState_done]
  | some n =>
    by_cases h : n ≤ s.depth nesting
    · simp [h, Nat.not_lt.2 h]
    · simp [h, mapState_done, Nat.lt_of_not_le h]

end Wattle.Parser
