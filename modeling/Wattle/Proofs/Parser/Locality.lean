import Wattle.Proofs.Parser.Termination

/-!
# What a run depends on

A run that comes to an end depends on the tokens up to its cursor only: with other tokens behind
the one under the cursor, and with more steps, it ends in the same way (`Local`).  The parsers look
one token further in one place, where a variable is told from a call, and there both go on to that
token.  So the bound on the steps has no part in the result (`Program.run_of_le`), and the first
fault stays the first fault whatever follows it (`Program.ofTokens_of_take`).
-/

namespace Wattle

open Wattle.Parser

namespace Parser

open State

/-! ### other tokens behind the cursor -/

namespace State

/-- the state with other tokens left -/
def withRest (s : State) (rest : List Token) : State := { s with rest := rest }

/-- the cursor stands in front of the tokens `X`, so that `Y` may be in their place -/
def Before (X Y : List Token) (s : State) : Prop := X.length < s.rest.length ∨ X = [] ∧ Y = []

variable {X Y ts : List Token} {s s' : State}

theorem Before.of_goes (h : Before X Y s') (hs : s.Goes s') : Before X Y s :=
  h.imp_left fun hlt => Nat.lt_of_lt_of_le hlt hs.rest.length_le

theorem Before.of_advance (h : Before X Y s.advance) : Before X Y s :=
  h.imp_left fun hlt => by
    rw [advance_rest, List.length_tail] at hlt
    omega

@[simp] theorem withRest_depth (s : State) (rest : List Token) (nesting : Nesting) :
    (s.withRest rest).depth nesting = s.depth nesting := by
  cases nesting <;> rfl

theorem withRest_enter (s : State) (rest : List Token) (nesting : Nesting) :
    (s.withRest rest).enter nesting = (s.enter nesting).withRest rest := by
  cases nesting <;> rfl

theorem withRest_leave (s : State) (rest : List Token) (nesting : Nesting) :
    (s.withRest rest).leave nesting = (s.leave nesting).withRest rest := by
  cases nesting <;> rfl

theorem withRest_self (s : State) : s.withRest s.rest = s := rfl

theorem current_withRest (h : Before X Y s) (hs : s.rest = ts ++ X) :
    (s.withRest (ts ++ Y)).current = s.current := by
  obtain hlt | ⟨rfl, rfl⟩ := h
  · cases ts with
    | nil => simp [hs] at hlt
    | cons t ts => simp [current, withRest, hs]
  · rw [← hs, withRest_self]

theorem sees_withRest (h : Before X Y s) (hs : s.rest = ts ++ X) (kind : TokenKind) :
    (s.withRest (ts ++ Y)).sees kind = s.sees kind := by
  obtain hlt | ⟨rfl, rfl⟩ := h
  · cases ts with
    | nil => simp [hs] at hlt
    | cons t ts => simp [State.sees, withRest, hs]
  · rw [← hs, withRest_self]

theorem advance_withRest (h : Before X Y s.advance) (hs : s.rest = ts ++ X) :
    (s.withRest (ts ++ Y)).advance = s.advance.withRest (ts.tail ++ Y) ∧
      s.advance.rest = ts.tail ++ X := by
  cases ts with
  | nil =>
    obtain hlt | ⟨rfl, rfl⟩ := h
    · rw [advance_rest, hs, List.length_tail] at hlt
      simp at hlt
      omega
    · simp [advance, withRest, hs]
  | cons t ts => simp [advance, withRest, hs]

theorem ahead_withRest (h : Before X Y s.advance) (hs : s.rest = ts ++ X) :
    (s.withRest (ts ++ Y)).ahead = s.ahead := by
  obtain hlt | ⟨rfl, rfl⟩ := h
  · match ts with
    | [] =>
      rw [advance_rest, hs, List.length_tail] at hlt
      simp at hlt
      omega
    | [t] => simp [hs] at hlt
    | t :: t' :: ts => simp [State.ahead, withRest, hs]
  · rw [← hs, withRest_self]

end State

/-! ### runs -/

/-- where the first run ends in front of `X`, the second one, with `Y` instead, ends in the same
way -/
def Local (X Y : List Token) : RunProperty Bool := fun _ s p =>
  ∀ ts s', s.rest = ts ++ X → (p false s).state? = some s' → Before X Y s' →
    ∃ ts', s'.rest = ts' ++ X ∧
      p true (s.withRest (ts ++ Y)) = (p false s).mapState (·.withRest (ts' ++ Y))

section
variable {X Y ts : List Token}

theorem Stays.withRest {α : Type} {p : Parser α} (h : Stays p) {s : State} (hb : Before X Y s)
    (hs : s.rest = ts ++ X) :
    p (s.withRest (ts ++ Y)) = (p s).mapState (·.withRest (ts ++ Y)) := by
  have hcurrent := current_withRest hb hs
  have hsees := sees_withRest hb hs
  cases h with
  | current => simp [Parser.current, Outcome.mapState, hcurrent]
  | sees kind => simp [Parser.sees, Outcome.mapState, hsees]
  | failHere cause => simp [Parser.failHere, Outcome.mapState, hcurrent]
  | _ => rfl

theorem hereditary_local (X Y : List Token) : (Local X Y).Hereditary false where
  stays {_ p} h s ts s' hs hp hb := by
    obtain rfl : s = s' := Option.some.inj ((h.state? s).symm.trans hp)
    exact ⟨ts, hs, h.withRest hb hs⟩
  advance s ts s' hs hp hb := by
    obtain rfl : s.advance = s' := Option.some.inj hp
    obtain ⟨hadvance, hrest⟩ := advance_withRest hb hs
    refine ⟨ts.tail, hrest, ?_⟩
    simp [Parser.advance, hadvance, current_withRest hb.of_advance hs, Outcome.mapState]
  bind {_ _ s p f} hp hf ts s' hs hd hb := by
    change ((p false >>= f false) s).state? = some s' at hd
    change ∃ ts', _ ∧ (p true >>= f true) (s.withRest (ts ++ Y)) =
      ((p false >>= f false) s).mapState _
    rw [bind_apply] at hd
    rw [bind_apply, bind_apply]
    cases h : p false s with
    | done a t =>
      rw [h] at hd
      have ht := (hf a t h).goes s' hd
      obtain ⟨ts₁, ht₁, hq⟩ := hp.property ts t hs (by rw [h]; rfl) (hb.of_goes ht)
      rw [hq, h]
      exact (hf a t h).property ts₁ s' ht₁ hd hb
    | failed fault t =>
      rw [h] at hd
      obtain ⟨ts₁, ht₁, hq⟩ := hp.property ts s' hs (by rw [h]; exact hd) hb
      rw [hq, h]
      exact ⟨ts₁, ht₁, rfl⟩
    | outOfSteps =>
      rw [h] at hd
      cases hd
  declare s name type ts s' hs hd _ := by
    obtain rfl := Option.some.inj hd
    exact ⟨ts, hs, rfl⟩
  register s name signature ts s' hs hd _ := by
    obtain rfl := Option.some.inj hd
    exact ⟨ts, hs, rfl⟩
  inScope {_ s scope p} h ts s' hs hd hb := by
    obtain ⟨t, ht, rfl⟩ := Option.map_eq_some_iff.1 ((Outcome.state?_mapState ..).symm.trans hd)
    obtain ⟨ts', ht', hq⟩ := h.property ts t hs ht hb
    refine ⟨ts', ht', ?_⟩
    change (p true ((s.withScope scope).withRest (ts ++ Y))).mapState _ =
      ((p false (s.withScope scope)).mapState _).mapState _
    rw [hq]
    cases p false (s.withScope scope) <;> rfl
  fork {_ s p q} hp hq ts s' hs hd hb := by
    change ((if s.ahead = .symbol .leftParen then p false else q false) s).state? = some s' at hd
    change ∃ ts', _ ∧ (if (s.withRest (ts ++ Y)).ahead = .symbol .leftParen then p true
      else q true) (s.withRest (ts ++ Y)) =
        ((if s.ahead = .symbol .leftParen then p false else q false) s).mapState _
    -- both parts go on to the second token, so that it is not behind the cursor
    have hb' : Before X Y s.advance := by
      refine hb.of_goes ?_
      split at hd
      · exact hp.goes s' hd
      · exact hq.goes s' hd
    rw [ahead_withRest hb' hs]
    by_cases hk : s.ahead = .symbol .leftParen
    · simp only [hk, if_true] at hd ⊢
      exact hp.property ts s' hs hd hb
    · simp only [hk, if_false] at hd ⊢
      exact hq.property ts s' hs hd hb

theorem local_of_outOfSteps {α : Type} {s : State} {p : Bool → Parser α}
    (h : p false s = .outOfSteps) : Local X Y α s p := by
  intro ts s' _ hd _
  rw [h] at hd
  cases hd

variable {steps : Bool → Nat}

theorem le_of_steps (h : steps false ≤ steps true) (i : Bool) : steps false ≤ steps i := by
  cases i
  · exact Nat.le_refl _
  · exact h

theorem loops_local (X Y : List Token) (h : steps false ≤ steps true) :
    (Local X Y).Loops false steps :=
  .of_stop (hereditary_local X Y).toInExprs local_of_outOfSteps (le_of_steps h)

theorem nested_local {α : Type} {nesting : Nesting} {limit : Option Nat} {s : State}
    {p : Bool → Parser α} (h : Local X Y α (s.enter nesting) p) :
    Local X Y α s fun i => nested nesting limit (p i) := by
  intro ts s' hs hd hb
  have hopen (hd : ((p false (s.enter nesting)).mapState (·.leave nesting)).state? = some s') :
      ∃ ts', s'.rest = ts' ++ X ∧
        (p true ((s.withRest (ts ++ Y)).enter nesting)).mapState (·.leave nesting) =
          ((p false (s.enter nesting)).mapState (·.leave nesting)).mapState
            (·.withRest (ts' ++ Y)) := by
    obtain ⟨t, ht, rfl⟩ := Option.map_eq_some_iff.1 ((Outcome.state?_mapState ..).symm.trans hd)
    rw [leave_rest]
    obtain ⟨ts', ht', hq⟩ := h ts t (by rw [enter_rest, hs]) ht (by rwa [Before, leave_rest] at hb)
    refine ⟨ts', ht', ?_⟩
    rw [withRest_enter, hq]
    cases p false (s.enter nesting) <;> simp [Outcome.mapState, withRest_leave]
  cases limit with
  | none => exact hopen hd
  | some n =>
    simp only [nested, withRest_depth] at hd ⊢
    by_cases hn : n ≤ s.depth nesting
    · simp only [hn, if_true] at hd ⊢
      obtain rfl : s = s' := Option.some.inj hd
      exact ⟨ts, hs, Stays.withRest (.failHere _) hb hs⟩
    · simp only [hn, if_false] at hd ⊢
      exact hopen hd

/-! ### nested parts and programs -/

theorem expression_local (limit : Option Nat) (hsteps : steps false ≤ steps true) (s : State) :
    (Local X Y).Holds false s s fun i => expression limit (steps i) := by
  refine RunProperty.holds_expression rfl ?_
  refine RunProperty.Loops.countdown (o := false) (P := fun m => m false ≤ m true → ∀ s,
    Local X Y Expr s fun i => expression limit (m i)) ?_ ?_ (le_of_steps hsteps) hsteps s
  · exact fun m hm _ s => local_of_outOfSteps (by rw [hm]; rfl)
  · intro m ih hle s
    have hm : m false ≤ m true := Nat.le_of_succ_le_succ hle
    have hx : (Local X Y).Inside false (s.enter .expression) fun i => expression limit (m i) :=
      fun t _ => RunProperty.holds_expression rfl (ih hm t)
    exact nested_local
      ((hereditary_local X Y).assignment (loops_local X Y hm) hx (.refl _)).property

theorem conditional_local (limits : Limits) (hsteps : steps false ≤ steps true) {s : State}
    (hk : s.current.kind = .keyword .ifWord) :
    (Local X Y).Takes false s fun i => conditional limits (steps i) := by
  refine RunProperty.takes_conditional rfl hk ?_
  refine RunProperty.Loops.countdown (o := false) (P := fun m => m false ≤ m true → ∀ s : State,
    s.current.kind = .keyword .ifWord → Local X Y Stmt s fun i => conditional limits (m i))
    ?_ ?_ (le_of_steps hsteps) hsteps s hk
  · exact fun m hm _ s _ => local_of_outOfSteps (by rw [hm]; rfl)
  · intro m ih hle s hk
    have hm : m false ≤ m true := Nat.le_of_succ_le_succ hle
    have hx : (Local X Y).Inside false (s.enter .conditional) fun i =>
        expression limits.expressions (m i) := fun t _ => expression_local _ hm t
    have hc : (Local X Y).InsideIf false (s.enter .conditional) fun i => conditional limits (m i) :=
      fun t _ ht => RunProperty.takes_conditional rfl ht (ih hm t ht)
    exact nested_local ((hereditary_local X Y).conditionalBody (loops_local X Y hm) hx hc
      (by simp [hk])).property

theorem program_local (limits : Limits) (hsteps : steps false ≤ steps true) (s : State) :
    (Local X Y).Holds false s s fun i => program limits (steps i) := by
  simp only [program, function]
  exact (hereditary_local X Y).program (loops_local X Y hsteps)
    (fun t _ => expression_local _ hsteps t) fun t _ ht => conditional_local limits hsteps ht

end

end Parser

/-! ### results -/

namespace Parser.Outcome

variable {α : Type}

/-- what a run has come to, apart from the place -/
def result? : Outcome α → Option (Except Fault α)
  | done a _ => some (.ok a)
  | failed fault _ => some (.error fault)
  | outOfSteps => none

theorem result?_mapState (f : State → State) (o : Outcome α) :
    (o.mapState f).result? = o.result? := by
  cases o <;> rfl

theorem exists_state (o : Outcome α) (h : o ≠ .outOfSteps) : ∃ s, o.state? = some s := by
  cases o with
  | outOfSteps => exact absurd rfl h
  | done a s | failed fault s => exact ⟨s, rfl⟩

end Parser.Outcome

namespace Program

variable {limits : Limits} {steps steps' : Nat} {tokens tokens' : List Token}

/-- wherever the reading of tokens ends, it has not passed the end of the file -/
theorem run_leaves {s : State} (h : (Program.run limits steps tokens).state? = some s) :
    Leaves tokens s.rest := by
  have hlocal : (Local [] []).Holds false (.initial tokens) (.initial tokens) fun _ =>
      program limits steps := program_local limits (Nat.le_refl steps) _
  exact (hlocal.goes s h).rest

/-- a run with more steps, and with other tokens behind the cursor at its end, comes to the
same -/
theorem run_local (ts X Y : List Token) {s : State} (hle : steps ≤ steps')
    (h : (Program.run limits steps (ts ++ X)).state? = some s) (hb : State.Before X Y s) :
    ∃ ts', s.rest = ts' ++ X ∧ Program.run limits steps' (ts ++ Y) =
      (Program.run limits steps (ts ++ X)).mapState (·.withRest (ts' ++ Y)) := by
  have hlocal : (Local X Y).Holds false (.initial (ts ++ X)) (.initial (ts ++ X)) fun i =>
      program limits (if i then steps' else steps) := program_local limits hle _
  exact hlocal.property ts s rfl h hb

/-- more steps do not change the end of a run -/
theorem run_of_le (h : Program.run limits steps tokens ≠ .outOfSteps) (hle : steps ≤ steps') :
    Program.run limits steps' tokens = Program.run limits steps tokens := by
  obtain ⟨s, hs⟩ := Outcome.exists_state _ h
  obtain ⟨ts', hts', hrun⟩ := run_local tokens [] [] hle
    (by rwa [List.append_nil]) (.inr ⟨rfl, rfl⟩)
  rw [List.append_nil, ← hts'] at hrun
  rw [hrun]
  cases hr : Program.run limits steps tokens with
  | outOfSteps => rfl
  | done a t | failed fault t =>
    rw [hr] at hs
    obtain rfl : t = s := Option.some.inj hs
    rfl

/-- a run that ends has the result that is given for the tokens -/
theorem result?_run (he : (State.initial tokens).Ends limits)
    (h : Program.run limits steps tokens ≠ .outOfSteps) :
    (Program.run limits steps tokens).result? = some (Program.ofTokens limits tokens) := by
  have hfinishes := run_finishes he (Nat.le_refl _)
  have hsame : Program.run limits steps tokens =
      Program.run limits (stepBound limits tokens.length) tokens :=
    (run_of_le h (Nat.le_max_left ..)).symm.trans (run_of_le hfinishes (Nat.le_max_right ..))
  rw [hsame, Program.ofTokens]
  cases hr : Program.run limits (stepBound limits tokens.length) tokens with
  | outOfSteps => exact absurd hr hfinishes
  | done a s | failed fault s => rfl

theorem ends_standard (s : State) : s.Ends .standard := .inl ⟨rfl, rfl⟩

/-- Reading ends for any tokens, in a number of steps that is given by the number of tokens and
the two limits on the nesting, and more steps do not change its end. -/
theorem run_standard (tokens : List Token) :
    ∃ outcome : Parser.Outcome Program, outcome ≠ .outOfSteps ∧
      (∀ more, Program.run .standard (2 * tokens.length + 64 + 64 + 4 + more) tokens = outcome) ∧
      outcome.result? = some (Program.ofTokens .standard tokens) := by
  have hfinishes : Program.run .standard (stepBound .standard tokens.length) tokens ≠ .outOfSteps :=
    run_finishes (ends_standard _) (Nat.le_refl _)
  refine ⟨_, hfinishes, fun more => run_of_le hfinishes (Nat.le_add_right _ more), ?_⟩
  exact result?_run (ends_standard _) hfinishes

/-- Where the end of the file is among the tokens, the cursor does not pass it, and it does not
matter which tokens are behind the one at which the reading stops. -/
theorem ofTokens_of_take {tokens : List Token} (h : ∃ t ∈ tokens, t.kind = .endOfFile) :
    ∃ read s, (Program.run .standard (stepBound .standard tokens.length) tokens).state? = some s ∧
      tokens = read ++ s.rest ∧ s.rest ≠ [] ∧ (∀ t ∈ read, t.kind ≠ .endOfFile) ∧
      ∀ others, others.take (read.length + 1) = tokens.take (read.length + 1) →
        Program.ofTokens .standard others = Program.ofTokens .standard tokens := by
  have hfinishes : Program.run .standard (stepBound .standard tokens.length) tokens ≠ .outOfSteps :=
    run_finishes (ends_standard _) (Nat.le_refl _)
  obtain ⟨s, hs⟩ := Outcome.exists_state _ hfinishes
  obtain ⟨e, he, hk⟩ := h
  have hrest : s.rest ≠ [] := List.ne_nil_of_mem ((run_leaves hs).mem he hk)
  obtain ⟨read, hread, hne⟩ := run_leaves hs
  refine ⟨read, s, hs, hread, hrest, hne, fun others hothers => ?_⟩
  obtain ⟨t, X, hX⟩ := List.exists_cons_of_ne_nil hrest
  have htokens : tokens = (read ++ [t]) ++ X := by rw [hread, hX, List.append_assoc]; rfl
  obtain ⟨Y, rfl⟩ : ∃ Y, others = (read ++ [t]) ++ Y := by
    have hsplit := List.take_append_drop (read.length + 1) others
    rw [hothers, htokens, List.take_left' (by simp)] at hsplit
    exact ⟨_, hsplit.symm⟩
  -- with steps enough for both rows of tokens, the runs come to the same
  have hle := Nat.le_max_left (stepBound .standard tokens.length)
    (stepBound .standard (read ++ [t] ++ Y).length)
  have hle' := Nat.le_max_right (stepBound .standard tokens.length)
    (stepBound .standard (read ++ [t] ++ Y).length)
  have hbefore : State.Before X Y s := .inl (by rw [hX]; exact Nat.lt_succ_self _)
  obtain ⟨ts', -, hrun⟩ := run_local (read ++ [t]) X Y hle (by rwa [← htokens]) hbefore
  refine Option.some.inj ?_
  rw [← result?_run (ends_standard _) (run_finishes (ends_standard _) hle'), hrun,
    Outcome.result?_mapState, ← htokens]
  exact result?_run (ends_standard _) hfinishes

def fault? : Except Fault Program → Option Fault
  | .ok _ => none
  | .error fault => some fault

theorem eq_error_of_fault? {r : Except Fault Program} {fault : Fault} (h : fault? r = some fault) :
    r = .error fault := by
  cases r with
  | ok p => cases h
  | error other => rw [Option.some.inj h]

/-- the tokens of a text on one line, each one column wide -/
def row (kinds : List TokenKind) : List Token :=
  kinds.mapIdx fun i kind => ⟨kind, .point ⟨1, i + 1⟩⟩

/-- a number where the name of a function has to be -/
def unnamed : List Token := row [.keyword .functionWord, .number "1", .endOfFile]

/-- the reading stops at the number, so that the end of the file may be a semicolon -/
theorem ofTokens_of_take_unnamed :
    (∃ t ∈ unnamed, t.kind = .endOfFile) ∧
      Program.ofTokens .standard (row [.keyword .functionWord, .number "1", .symbol .semicolon]) =
        Program.ofTokens .standard unnamed := by
  have hend : ∃ t ∈ unnamed, t.kind = .endOfFile := by decide
  obtain ⟨read, s, hs, hread, -, -, hothers⟩ := ofTokens_of_take hend
  have hstop : (run .standard (stepBound .standard unnamed.length) unnamed).state?.map
      (·.rest.length) = some 2 := by decide +kernel
  rw [hs] at hstop
  have hrest : s.rest.length = 2 := Option.some.inj hstop
  have hlength : 3 = read.length + s.rest.length := by
    rw [← List.length_append, ← hread]
    rfl
  have hone : read.length = 1 := by omega
  exact ⟨hend, hothers _ (by rw [hone]; rfl)⟩

end Program

end Wattle
