import Wattle.Proofs.Parser.Descent

/-!
# Reading comes to an end

The parsers take their bound on the steps from outside; with enough steps they do not run out of
them.  A round of a loop takes a token, so that there are no more rounds than tokens.  A part that
is nested takes a token first, unless the tokens are used up: there the cursor stays at the last
token, and a part may start again at it without end.  It is then the limits on the nesting that end
the reading, so that tokens and levels are counted together (`State.room`), and without limits
the tokens have to contain the end of the file (`Ends`).
-/

namespace Wattle

open Wattle.Parser

/-- the limit on one kind of nesting -/
def Limits.of (limits : Limits) : Nesting → Option Nat
  | .expression => limits.expressions
  | .conditional => limits.conditionals

namespace Parser

open State

/-! ### loops -/

/-- with fewer tokens left than `bound`, the steps suffice -/
def Finishes (bound : Nat) : RunProperty Unit := fun _ s p =>
  s.rest.length < bound → p () s ≠ .outOfSteps

theorem mapState_ne_outOfSteps {α : Type} {f : State → State} {x : Outcome α}
    (h : x ≠ .outOfSteps) : x.mapState f ≠ .outOfSteps := by
  cases x with
  | outOfSteps => exact absurd rfl h
  | done | failed => simp [Outcome.mapState]

theorem hereditary_finishes (bound : Nat) : (Finishes bound).Hereditary () where
  stays h s _ hout := by cases h <;> cases hout
  advance s _ hout := by cases hout
  bind {_ _ s p f} hp hf hs := by
    change (p () >>= f ()) s ≠ .outOfSteps
    rw [bind_apply]
    cases h : p () s with
    | done a s' =>
      have hle := (hp.goes_of_done h).rest.length_le
      exact (hf a s' h).property (by omega)
    | failed fault s' => simp
    | outOfSteps => exact absurd h (hp.property hs)
  declare s name type _ hout := by cases hout
  register s name signature _ hout := by cases hout
  inScope h hs := mapState_ne_outOfSteps (h.property hs)
  fork {_ s p q} hp hq hs := by
    change (if s.ahead = .symbol .leftParen then p () else q ()) s ≠ .outOfSteps
    split
    · exact hp.property hs
    · exact hq.property hs

section
variable {n bound : Nat} {s s' : State}

theorem rest_of_not_end (h : s.sees .endOfFile = false) : s.rest ≠ [] := by
  intro hr
  simp [State.sees, hr] at h

/-- behind the last token, no operand is read off an operator -/
theorem operand_at_end {l : Chain} {op : BinaryOp} {inner : Parser Expr} {e : Expr}
    (hr : s.rest = []) (hk : s.current.kind = .symbol op.symbol) :
    l.operand.parser n inner s ≠ .done e s' := by
  have hunary (e : Expr) (s' : State) : unary n inner s ≠ .done e s' := by
    have hm : s.sees (.symbol .minus) = false := by simp [State.sees, hr]
    simp only [unary, sees_bind, hm, Bool.false_eq_true, if_false, primary, current_bind, hk]
    cases op <;> simp [BinaryOp.symbol]
  have hlevel {l : Chain} (h : ∀ e s', l.operand.parser n inner s ≠ .done e s') (e : Expr)
      (s' : State) : (Level.chain l).parser n inner s ≠ .done e s' := by
    rw [Level.parser_chain]
    intro hd
    obtain ⟨left, s₁, hleft, -⟩ := bind_done.1 hd
    exact h left s₁ hleft
  have hproduct := hlevel (l := .product) hunary
  cases l with
  | product => exact hunary e s'
  | sum => exact hproduct e s'
  | comparison => exact hlevel (l := .sum) hproduct e s'

/-- a loop has steps enough if each round leaves fewer tokens to the next; that it goes forward
does not depend on the number of rounds -/
theorem finishes_of_rounds {α β : Type} {b : State} (loop : Nat → β → Parser α) (x : β)
    (hgoes : anyRun.Holds () b b fun _ => loop bound x)
    (hround : ∀ m x s, b.Goes s →
      (∀ y s', s.Goes s' → s'.rest.length < s.rest.length →
        (Finishes bound).Holds () s' s' fun _ => loop m y) →
      (Finishes bound).Holds () s s fun _ => loop (m + 1) x) :
    (Finishes bound).Holds () b b fun _ => loop bound x := by
  have rounds (m : Nat) (x : β) (s : State) (hs : b.Goes s) (hm : s.rest.length < m) :
      (Finishes bound).Holds () s s fun _ => loop m x := by
    induction m generalizing x s with
    | zero => omega
    | succ m ih =>
      exact hround m x s hs fun y s' hs' hlt => ih y s' (hs.trans hs') (by omega)
  exact ⟨fun hb => (rounds bound x b (.refl b) hb).property hb, hgoes.place, hgoes.goes⟩

theorem loops_finishes (bound : Nat) : (Finishes bound).Loops () fun _ => bound := by
  have H := hereditary_finishes bound
  have any := loops_anyRun fun _ => bound
  constructor
  case separated =>
    intro α b item h
    refine finishes_of_rounds (fun m (_ : Unit) => separated (item ()) m) ()
      (any.separated fun s hs => (h s hs).anyRun) fun m _ s hs next => ?_
    refine H.separated_round (n := fun _ => m) (h s hs) fun s' hs' hc => next () _ ?_ ?_
    · exact hs'.trans (goes_advance (kind_ne_of_sees hc (by simp)))
    · have hle := hs'.rest.length_le
      have hpos := List.length_pos_iff.2 (rest_of_sees hc (by simp))
      rw [advance_rest, List.length_tail]
      omega
  case chain =>
    intro b l inner left h
    have hkind {k : TokenKind} {op : BinaryOp} (hop : l.op? k = some op) : k ≠ .endOfFile := by
      simp [(Chain.of_op? hop).2]
    refine finishes_of_rounds (chain l.op? l.build (l.operand.parser bound (inner ()))) left
      (any.chain fun s hs => (h s hs).anyRun) fun m left s hs next => ?_
    refine H.chain_round (n := fun _ => m) (fun op => hkind) (fun op hop => ?_) ?_
    · exact h _ (hs.trans (goes_advance (hkind hop)))
    · intro op hop right s' hd hs' e
      refine next e s' ((goes_advance (hkind hop)).trans hs') ?_
      have hle := hs'.rest.length_le
      rw [advance_rest, List.length_tail] at hle
      have hpos : 0 < s.rest.length := by
        rw [List.length_pos_iff]
        intro hr
        have hadvance : s.advance = s := by simp [State.advance, hr]
        rw [hadvance] at hd
        exact operand_at_end hr (Chain.of_op? hop).2 hd
      omega
  case statements =>
    intro b stmt h
    refine finishes_of_rounds (fun m (_ : Unit) => statements (stmt ()) m) ()
      (any.statements fun s hs => (h s hs).anyRun) fun m _ s hs next => ?_
    refine H.statements_round (n := fun _ => m) (h s hs) fun s' hs' he => ?_
    exact next () s' hs'.toGoes (hs'.fewer.resolve_right (rest_of_not_end he))
  case functions =>
    intro b function h
    refine finishes_of_rounds (fun m (_ : Unit) => functionsOf (function ()) m) ()
      (any.functions fun s hs hf => (h s hs hf).anyRun) fun m _ s hs next => ?_
    refine H.functions_round (n := fun _ => m) (h s hs) fun s' hs' he => ?_
    exact next () s' hs'.toGoes (hs'.fewer.resolve_right (rest_of_not_end he))

end

/-! ### nested parts -/

namespace State

/-- how many levels may still be opened -/
def room (limits : Limits) (s : State) : Nat :=
  limits.expressions.getD 0 - s.expressions + (limits.conditionals.getD 0 - s.conditionals)

/-- the reading is bound to end: by the limits on both kinds of nesting, or at the end of the
file -/
def Ends (limits : Limits) (s : State) : Prop :=
  limits.expressions.isSome ∧ limits.conditionals.isSome ∨ ∃ t ∈ s.rest, t.kind = .endOfFile

/-- the steps suffice to read a part: each level takes a token or a part of the room -/
structure Enough (limits : Limits) (n : Nat) (s : State) : Prop where
  ends : s.Ends limits
  steps : s.rest.length + s.room limits + 2 ≤ n

end State

section
variable {limits : Limits} {n : Nat} {s t : State} {nesting : Nesting}

theorem State.Ends.goes (h : s.Ends limits) (ht : s.Goes t) : t.Ends limits :=
  h.imp_right fun ⟨e, he, hk⟩ => ⟨e, ht.rest.mem he hk, hk⟩

/-- one step less suffices for the parts inside of a level that may be opened -/
theorem State.Enough.inside (h : s.Enough limits (n + 1))
    (ha : s.Admits nesting (limits.of nesting)) (ht : (s.enter nesting).GoesOn t) :
    t.Enough limits n := by
  refine ⟨by simpa [Ends] using h.ends.goes ht.toGoes.leave, ?_⟩
  have hrest : t.rest.length ≤ s.rest.length := by simpa using ht.rest.length_le
  have hx := ht.depth .expression
  have hc := ht.depth .conditional
  have hsteps := h.steps
  rw [enter_depth] at hx hc
  simp only [depth] at hx hc
  unfold room at hsteps ⊢
  obtain ⟨hsome, hsome'⟩ | ⟨e, he, -⟩ := h.ends
  · -- a part of the room is taken
    obtain ⟨x, hlx⟩ := Option.isSome_iff_exists.1 hsome
    obtain ⟨c, hlc⟩ := Option.isSome_iff_exists.1 hsome'
    rw [hlx, hlc, Option.getD_some, Option.getD_some] at hsteps ⊢
    cases nesting with
    | expression =>
      have hroom : s.expressions < x := ha x hlx
      simp only [reduceCtorEq, if_true, if_false] at hx hc
      omega
    | conditional =>
      have hroom : s.conditionals < c := ha c hlc
      simp only [reduceCtorEq, if_true, if_false] at hx hc
      omega
  · -- a token is taken
    have hlt : t.rest.length < s.rest.length := by
      obtain hlt | hnil := ht.fewer
      · simpa using hlt
      · rw [enter_rest] at hnil
        simp [hnil] at he
    cases nesting <;> simp only [reduceCtorEq, if_true, if_false] at hx hc <;> omega

theorem nested_ne_outOfSteps {α : Type} {limit : Option Nat} {p : Parser α}
    (h : s.Admits nesting limit → p (s.enter nesting) ≠ .outOfSteps) :
    nested nesting limit p s ≠ .outOfSteps := by
  unfold nested
  cases limit with
  | none => exact mapState_ne_outOfSteps (h fun _ hk => by cases hk)
  | some k =>
    by_cases hk : k ≤ s.depth nesting
    · simp [hk, failHere]
    · simp only [hk, if_false]
      refine mapState_ne_outOfSteps (h fun m hm => ?_)
      cases hm
      omega

theorem expression_finishes (h : s.Enough limits n) :
    expression limits.expressions n s ≠ .outOfSteps := by
  induction n generalizing s with
  | zero => exact absurd h.steps (by omega)
  | succ n ih =>
    change nested .expression (limits.of .expression) _ s ≠ _
    refine nested_ne_outOfSteps fun ha => ?_
    have hx : (Finishes n).Inside () (s.enter .expression) fun _ =>
        expression limits.expressions n := fun t ht =>
      RunProperty.holds_expression rfl fun _ => ih (h.inside ha ht)
    have hsteps := h.steps
    exact ((hereditary_finishes n).assignment (loops_finishes n) hx (.refl _)).property
      (by rw [enter_rest]; omega)

theorem conditional_finishes (h : s.Enough limits n) (hk : s.current.kind ≠ .endOfFile) :
    conditional limits n s ≠ .outOfSteps := by
  induction n generalizing s with
  | zero => exact absurd h.steps (by omega)
  | succ n ih =>
    change nested .conditional (limits.of .conditional) _ s ≠ _
    refine nested_ne_outOfSteps fun ha => ?_
    have hx : (Finishes n).Inside () (s.enter .conditional) fun _ =>
        expression limits.expressions n := fun t ht =>
      RunProperty.holds_expression rfl fun _ => expression_finishes (h.inside ha ht)
    have hc : (Finishes n).InsideIf () (s.enter .conditional) fun _ => conditional limits n :=
      fun t ht hif => RunProperty.takes_conditional rfl hif fun _ =>
        ih (h.inside ha ht) (by simp [hif])
    have hsteps := h.steps
    refine ((hereditary_finishes n).conditionalBody (loops_finishes n) hx hc ?_).property
      (by rw [enter_rest]; omega)
    rwa [enter_current]

theorem State.Enough.goes (h : s.Enough limits n) (ht : s.Goes t) : t.Enough limits n := by
  refine ⟨h.ends.goes ht, ?_⟩
  have hsteps := h.steps
  have hrest := ht.rest.length_le
  have hx : t.expressions = s.expressions := ht.depth .expression
  have hc : t.conditionals = s.conditionals := ht.depth .conditional
  unfold room at hsteps ⊢
  rw [hx, hc]
  omega

/-! ### statements, blocks and functions -/

theorem statement_takes (h : s.Enough limits n) (ht : s.Goes t) :
    (Finishes n).Takes () t fun _ =>
      statement (expression limits.expressions n) (conditional limits n) := by
  have hx : (Finishes n).Inside () s.preceded fun _ => expression limits.expressions n :=
    fun t ht => RunProperty.holds_expression rfl fun _ =>
      expression_finishes (h.goes (goesOn_preceded_iff.1 ht))
  have hc : (Finishes n).InsideIf () s.preceded fun _ => conditional limits n := fun t ht hif =>
    RunProperty.takes_conditional rfl hif fun _ =>
      conditional_finishes (h.goes (goesOn_preceded_iff.1 ht)) (by simp [hif])
  exact (hereditary_finishes n).statement hx hc (goesOn_preceded_iff.2 ht)

theorem statement_finishes (h : s.Enough limits n) :
    statement (expression limits.expressions n) (conditional limits n) s ≠ .outOfSteps := by
  have hsteps := h.steps
  exact (statement_takes h (.refl s)).property (by omega)

theorem block_finishes (h : s.Enough limits n) :
    block n (statement (expression limits.expressions n) (conditional limits n)) s ≠
      .outOfSteps := by
  have hsteps := h.steps
  exact ((hereditary_finishes n).block (loops_finishes n) fun _ => statement_takes h).property
    (by omega)

theorem function_finishes (h : s.Enough limits n) (hk : s.current.kind ≠ .endOfFile) :
    function limits n s ≠ .outOfSteps := by
  have hsteps := h.steps
  rw [function]
  exact ((hereditary_finishes n).functionOf (loops_finishes n)
    (fun _ ht => statement_takes h ht.toGoes) hk).property (by omega)

/-! ### programs -/

theorem program_finishes (h : s.Enough limits n) : program limits n s ≠ .outOfSteps := by
  have hsteps := h.steps
  rw [program, function]
  exact ((hereditary_finishes n).programOf (loops_finishes n)
    fun _ ht => statement_takes h ht.toGoes).property (by omega)

end

end Parser

/-- a row of tokens is read to the end, if the nesting is limited or the end of the file is among
the tokens -/
theorem Program.run_finishes {limits : Limits} {tokens : List Token} {steps : Nat}
    (h : (State.initial tokens).Ends limits) (hs : stepBound limits tokens.length ≤ steps) :
    Program.run limits steps tokens ≠ .outOfSteps := by
  have hx (limit : Option Nat) : limit.getD 0 ≤ limit.getD tokens.length := by
    cases limit <;> simp
  refine program_finishes ⟨h, ?_⟩
  have hle := hx limits.expressions
  have hle' := hx limits.conditionals
  simp only [stepBound] at hs
  simp only [State.room, State.initial, Nat.sub_zero]
  omega

end Wattle
