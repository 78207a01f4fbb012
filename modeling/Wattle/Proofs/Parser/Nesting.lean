import Wattle.Proofs.Parser.Locality

/-!
# Limits on nesting

The reading without limits opens parts inside of parts: expressions and conditionals.  `Openings`
is the tree of these parts, and it is known by what happens when a part is not allowed to open: the
parsers of `expressionIn` and `conditionalIn` ask a `Watch` at each opening, with the parts that are
open there, and are the parsers without limits where it never stops them (`Program.Opens`).  So the
tokens determine what is open at the openings (`Program.Reaches`).  The limits are such a watch:
they stop the reading at the first part that is one too many, and change nothing if there is none.
Parts that stand one behind another are not inside of each other, and do not add up
(`Openings.height_append`).  All this is `Program.ofTokens_standard`.
-/

namespace Wattle

open Wattle.Parser

namespace Parser

open State

/-! ### open parts -/

/-- a part that is opened, with the state in front of it -/
structure Activation where
  nesting : Nesting
  start : State

/-- the number of open parts of one kind -/
def opened (nesting : Nesting) (stack : List Activation) : Nat :=
  stack.countP (·.nesting = nesting)

/-- parts one behind another, each with those inside of it -/
inductive Openings where
  | nil
  | cons (a : Activation) (inside behind : Openings)

namespace Openings

def append : Openings → Openings → Openings
  | nil, ps => ps
  | cons a inside behind, ps => cons a inside (behind.append ps)

/-- what is open at each opening, from the part that is opened outwards -/
def snapshots (around : List Activation) : Openings → List (List Activation)
  | nil => []
  | cons a inside behind =>
    (a :: around) :: (inside.snapshots (a :: around) ++ behind.snapshots around)

/-- the largest number of parts of one kind inside of each other -/
def height (nesting : Nesting) : Openings → Nat
  | nil => 0
  | cons a inside behind =>
    max (inside.height nesting + if a.nesting = nesting then 1 else 0) (behind.height nesting)

variable {around : List Activation} {ps qs : Openings} {nesting : Nesting} {n : Nat}

theorem snapshots_append (ps qs : Openings) :
    (ps.append qs).snapshots around = ps.snapshots around ++ qs.snapshots around := by
  induction ps with
  | nil => rfl
  | cons a inside behind _ ih => simp [append, snapshots, ih]

/-- parts one behind another do not add up -/
theorem height_append (ps qs : Openings) :
    (ps.append qs).height nesting = max (ps.height nesting) (qs.height nesting) := by
  induction ps with
  | nil => simp [append, height]
  | cons a inside behind _ ih => simp only [append, height, ih]; omega

theorem opened_cons (a : Activation) : opened nesting (a :: around) =
    opened nesting around + if a.nesting = nesting then 1 else 0 := by
  simp [opened, List.countP_cons]

/-- a row of parts is not higher than the highest of them, however long it is -/
theorem height_row_le {row : List Openings} (h : ∀ ps ∈ row, ps.height nesting ≤ n) :
    (row.foldr append nil).height nesting ≤ n := by
  induction row with
  | nil => exact Nat.zero_le n
  | cons ps row ih =>
    obtain ⟨hps, hrow⟩ := List.forall_mem_cons.1 h
    rw [List.foldr_cons, height_append]
    exact Nat.max_le.2 ⟨hps, ih hrow⟩

/-- the height is the largest number of parts that are open at once -/
theorem snapshots_le_iff (ps : Openings) (h : opened nesting around ≤ n) :
    (∀ stack ∈ ps.snapshots around, opened nesting stack ≤ n) ↔
      opened nesting around + ps.height nesting ≤ n := by
  induction ps generalizing around with
  | nil => simpa [snapshots, height] using h
  | cons a inside behind ihi ihb =>
    have hcons : opened nesting (a :: around) =
        opened nesting around + if a.nesting = nesting then 1 else 0 := opened_cons a
    simp only [snapshots, height, List.forall_mem_cons, List.forall_mem_append, ihb h]
    by_cases ha : opened nesting (a :: around) ≤ n
    · rw [ihi ha, hcons]
      omega
    · exact ⟨fun hall => absurd hall.1 ha, fun hle => by omega⟩

/-- what is around a part has been opened before -/
theorem exists_around {before after : List (List Activation)} {stack : List Activation}
    (h : ps.snapshots around = before ++ stack :: after) :
    ∃ a outer, stack = a :: outer ∧ (outer = around ∨ outer ∈ before) := by
  induction ps generalizing around before after with
  | nil => simp [snapshots] at h
  | cons a inside behind ihi ihb =>
    rw [snapshots] at h
    obtain ⟨rfl, hhead⟩ | ⟨before', rfl, h'⟩ := List.cons_eq_append_iff.1 h
    · obtain ⟨rfl, -⟩ := List.cons.inj hhead
      exact ⟨a, around, rfl, .inl rfl⟩
    · obtain ⟨before₁, rfl, hbehind⟩ | ⟨after', hinside, hafter⟩ := List.append_eq_append_iff.1 h'
      · obtain ⟨b, outer, rfl, hb⟩ := ihb hbehind
        exact ⟨b, outer, rfl, hb.imp_right fun hm => by simp [hm]⟩
      obtain ⟨rfl, hbehind⟩ | ⟨after₁, rfl, -⟩ := List.cons_eq_append_iff.1 hafter
      · have hfirst : behind.snapshots around = [] ++ stack :: after := hbehind
        obtain ⟨b, outer, rfl, hb⟩ := ihb hfirst
        exact ⟨b, outer, rfl, .inl (hb.resolve_right (by simp))⟩
      · obtain ⟨b, outer, rfl, hb⟩ := ihi hinside
        refine ⟨b, outer, rfl, .inr ?_⟩
        obtain rfl | hm := hb
        · simp
        · simp [hm]

end Openings

/-! ### watched parsers -/

/-- the fault that stops the reading where a part is opened, by the parts that are then open -/
abbrev Watch := List Activation → Option Fault

/-- opens a part, without a limit, if the watch does not stop it there -/
def watched {α : Type} (watch : Watch) (nesting : Nesting) (around : List Activation)
    (p : List Activation → Parser α) : Parser α := fun s =>
  match watch (⟨nesting, s⟩ :: around) with
  | some fault => .failed fault s
  | none => nested nesting none (p (⟨nesting, s⟩ :: around)) s

/-- the parser of an expression without limits, where `around` is open -/
def expressionIn (watch : Watch) : Nat → List Activation → Parser Expr
  | 0, _ => outOfSteps
  | n + 1, around => watched watch .expression around fun stack =>
      assignment n (expressionIn watch n stack)

def conditionalIn (watch : Watch) : Nat → List Activation → Parser Stmt
  | 0, _ => outOfSteps
  | n + 1, around => watched watch .conditional around fun stack =>
      conditionalBody n (expressionIn watch n stack) (conditionalIn watch n stack)

def programIn (watch : Watch) (steps : Nat) : Parser Program :=
  programOf steps (functionOf steps
    (statement (expressionIn watch steps []) (conditionalIn watch steps [])))

end Parser

/-- limits as a watch: the part that is one too many is stopped -/
def Limits.watch (limits : Limits) : Watch
  | [] => none
  | a :: around =>
    match limits.of a.nesting with
    | none => none
    | some n =>
      if n < opened a.nesting (a :: around) then
        some ⟨.nestingTooDeep a.nesting n, a.start.current.span⟩
      else none

namespace Parser

open State

/-! ### runs that are stopped -/

/-- the parsers that are compared: one for each watch, and one for each row of limits -/
abbrev Reading := Watch ⊕ Limits

namespace Reading

def watch : Reading → Watch
  | .inl watch => watch
  | .inr limits => limits.watch

/-- the reading that nothing stops -/
def free : Reading := .inl fun _ => none

def expression (steps : Nat) (around : List Activation) : Reading → Parser Expr
  | .inl watch => expressionIn watch steps around
  | .inr limits => Parser.expression limits.expressions steps

def conditional (steps : Nat) (around : List Activation) : Reading → Parser Stmt
  | .inl watch => conditionalIn watch steps around
  | .inr limits => Parser.conditional limits steps

end Reading

/-- with a fault in its way, `x` ends there; else it is the same as `y` -/
def Stopped {α : Type} (fault? : Option Fault) (x y : Outcome α) : Prop :=
  match fault? with
  | some fault => ∃ s, x = .failed fault s
  | none => x = y

namespace Stopped

variable {α β : Type} {fault? fault?' : Option Fault} {x y : Outcome α} {z : Outcome β}
  {f : Outcome α → Outcome β}

/-- what goes on behind `x` is stopped where `x` is, or where it goes on -/
theorem next (hf : ∀ fault s, ∃ s', f (.failed fault s) = .failed fault s')
    (h : Stopped fault? x y) (hz : Stopped fault?' (f y) z) :
    Stopped (fault?.or fault?') (f x) z := by
  cases fault? with
  | none =>
    obtain rfl : x = y := h
    exact hz
  | some fault =>
    obtain ⟨s, rfl⟩ := h
    exact hf fault s

theorem map (hf : ∀ fault s, ∃ s', f (.failed fault s) = .failed fault s')
    (h : Stopped fault? x y) : Stopped fault? (f x) (f y) := by
  have hy : Stopped none (f y) (f y) := rfl
  have hnext := h.next hf hy
  rwa [Option.or_none] at hnext

theorem mapState {g : State → State} (h : Stopped fault? x y) :
    Stopped fault? (x.mapState g) (y.mapState g) :=
  h.map fun _ s => ⟨g s, rfl⟩

end Stopped

theorem Stopped.result? {α : Type} {fault? : Option Fault} {x y : Outcome α} {r : Except Fault α}
    (h : Stopped fault? x y) (hy : y.result? = some r) :
    x.result? = some (fault?.elim r .error) := by
  cases fault? with
  | none =>
    obtain rfl : x = y := h
    exact hy
  | some fault =>
    obtain ⟨s, rfl⟩ := h
    rfl

/-- if the free reading ends, it has opened parts, and every other one ends at the first of them
where it is stopped, or like the free one -/
def Follows (around : List Activation) : RunProperty Reading := fun _ s p =>
  p .free s ≠ .outOfSteps → ∃ parts : Openings, ∀ i : Reading,
    Stopped ((parts.snapshots around).findSome? i.watch) (p i s) (p .free s)

section
variable {around : List Activation}

theorem follows_of_eq {α : Type} {s : State} {p : Reading → Parser α}
    (h : ∀ i, p i s = p .free s) : Follows around α s p :=
  fun _ => ⟨.nil, h⟩

theorem hereditary_follows (around : List Activation) : (Follows around).Hereditary .free where
  stays _ _ := follows_of_eq fun _ => rfl
  advance _ := follows_of_eq fun _ => rfl
  bind {α β s p f} hp hf hd := by
    let next (i : Reading) (x : Outcome α) : Outcome β := ((fun _ => x : Parser α) >>= f i) s
    have hnext (i : Reading) (fault : Fault) (t : State) :
        ∃ t', next i (.failed fault t) = .failed fault t' := ⟨t, rfl⟩
    change next .free (p .free s) ≠ .outOfSteps at hd
    change ∃ parts : Openings, ∀ i, Stopped ((parts.snapshots around).findSome? i.watch)
      (next i (p i s)) (next .free (p .free s))
    obtain ⟨parts, hparts⟩ := hp.property fun hout => hd (by rw [hout]; rfl)
    cases h : p .free s with
    | done a t =>
      rw [h] at hd hparts
      obtain ⟨behind, hbehind⟩ := (hf a t h).property hd
      refine ⟨parts.append behind, fun i => ?_⟩
      rw [Openings.snapshots_append, List.findSome?_append]
      exact (hparts i).next (hnext i) (hbehind i)
    | failed fault t =>
      rw [h] at hparts
      exact ⟨parts, fun i => (hparts i).map (hnext i)⟩
    | outOfSteps =>
      rw [h] at hd
      exact absurd rfl hd
  declare _ _ _ := follows_of_eq fun _ => rfl
  register _ _ _ := follows_of_eq fun _ => rfl
  inScope {_ s scope p} h hd := by
    change (p .free (s.withScope scope)).mapState _ ≠ .outOfSteps at hd
    obtain ⟨parts, hparts⟩ := h.property fun hout => hd (by rw [hout]; rfl)
    exact ⟨parts, fun i => (hparts i).mapState⟩
  fork {_ s p q} hp hq hd := by
    change (if s.ahead = .symbol .leftParen then p .free else q .free) s ≠ _ at hd
    change ∃ parts : Openings, ∀ i, Stopped ((parts.snapshots around).findSome? i.watch)
      ((if s.ahead = .symbol .leftParen then p i else q i) s)
      ((if s.ahead = .symbol .leftParen then p .free else q .free) s)
    split
    · rename_i hk
      simp only [hk, if_true] at hd
      exact hp.property hd
    · rename_i hk
      simp only [hk, if_false] at hd
      exact hq.property hd

theorem loops_follows (around : List Activation) (n : Nat) :
    (Follows around).Loops .free fun _ => n :=
  .of_stop (hereditary_follows around).toInExprs (fun hout hd => absurd hout hd)
    fun _ => Nat.le_refl n

end

/-! ### openings -/

/-- a part is opened, if the watch or the limits do not stop it -/
def Reading.open {α : Type} (nesting : Nesting) (around : List Activation)
    (body : List Activation → Reading → Parser α) : Reading → Parser α
  | .inl watch => watched watch nesting around fun stack => body stack (.inl watch)
  | .inr limits => fun s =>
    nested nesting (limits.of nesting) (body (⟨nesting, s⟩ :: around) (.inr limits)) s

/-- the levels that are counted in a state are those that are open -/
def Counts (around : List Activation) (s : State) : Prop :=
  ∀ nesting, s.depth nesting = opened nesting around

section
variable {α : Type} {nesting : Nesting} {around : List Activation} {s t : State}
  {body : List Activation → Reading → Parser α}

theorem Counts.inside (h : Counts around s) (ht : (s.enter nesting).Goes t) :
    Counts (⟨nesting, s⟩ :: around) t := by
  intro other
  rw [ht.depth, enter_depth, Openings.opened_cons, h]
  split <;> rfl

/-- the limits stop a part where they do as a watch -/
theorem open_eq (h : Counts around s) (i : Reading) :
    Reading.open nesting around body i s =
      match i.watch (⟨nesting, s⟩ :: around) with
      | some fault => .failed fault s
      | none => nested nesting none (body (⟨nesting, s⟩ :: around) i) s := by
  cases i with
  | inl watch => rfl
  | inr limits =>
    have hcount : opened nesting (⟨nesting, s⟩ :: around) = s.depth nesting + 1 := by
      rw [Openings.opened_cons, h, if_pos rfl]
    simp only [Reading.open, Reading.watch, Limits.watch, nested]
    cases limits.of nesting with
    | none => rfl
    | some n =>
      simp only [hcount, Nat.lt_succ_iff]
      split <;> rfl

theorem follows_open (h : Counts around s)
    (hbody : Follows (⟨nesting, s⟩ :: around) α (s.enter nesting)
      (body (⟨nesting, s⟩ :: around))) :
    Follows around α s (Reading.open nesting around body) := by
  intro hd
  have hfree : Reading.open nesting around body .free s =
      (body (⟨nesting, s⟩ :: around) .free (s.enter nesting)).mapState (·.leave nesting) := rfl
  obtain ⟨parts, hparts⟩ := hbody fun hout => hd (by rw [hfree, hout]; rfl)
  refine ⟨.cons ⟨nesting, s⟩ parts .nil, fun i => ?_⟩
  rw [open_eq h, hfree, Openings.snapshots, Openings.snapshots, List.append_nil,
    List.findSome?_cons]
  cases i.watch (⟨nesting, s⟩ :: around) with
  | some fault => exact ⟨s, rfl⟩
  | none => exact (hparts i).mapState

end

section
variable {around : List Activation} {s : State}

theorem expression_succ (n : Nat) (around : List Activation) :
    Reading.expression (n + 1) around = Reading.open .expression around fun stack i =>
      assignment n (Reading.expression n stack i) := by
  funext i
  cases i <;> rfl

theorem conditional_succ (n : Nat) (around : List Activation) :
    Reading.conditional (n + 1) around = Reading.open .conditional around fun stack i =>
      conditionalBody n (Reading.expression n stack i) (Reading.conditional n stack i) := by
  funext i
  cases i <;> rfl

/-- the free reading is the one without limits -/
theorem expression_free (n : Nat) (around : List Activation) :
    Reading.free.expression n around = expression none n := by
  induction n generalizing around with
  | zero => rfl
  | succ n ih =>
    funext s
    change nested .expression none (assignment n (Reading.free.expression n _)) s = _
    rw [ih]
    rfl

theorem conditional_free (n : Nat) (around : List Activation) :
    Reading.free.conditional n around = conditional .unlimited n := by
  induction n generalizing around with
  | zero => rfl
  | succ n ih =>
    funext s
    change nested .conditional none (conditionalBody n (Reading.free.expression n _)
      (Reading.free.conditional n _)) s = _
    rw [ih, expression_free]
    rfl

theorem expression_follows (n : Nat) (h : Counts around s) :
    (Follows around).Holds .free s s (Reading.expression n around) := by
  refine RunProperty.holds_expression (expression_free n around) ?_
  induction n generalizing around s with
  | zero => exact fun hout => absurd rfl hout
  | succ n ih =>
    have hx : (Follows (⟨.expression, s⟩ :: around)).Inside .free (s.enter .expression)
        (Reading.expression n (⟨.expression, s⟩ :: around)) := fun t ht =>
      RunProperty.holds_expression (expression_free n _) (ih (h.inside ht.toGoes))
    rw [expression_succ]
    exact follows_open h
      ((hereditary_follows _).assignment (loops_follows _ n) hx (.refl _)).property

theorem conditional_follows (n : Nat) (h : Counts around s)
    (hk : s.current.kind = .keyword .ifWord) :
    (Follows around).Takes .free s (Reading.conditional n around) := by
  refine RunProperty.takes_conditional (conditional_free n around) hk ?_
  induction n generalizing around s with
  | zero => exact fun hout => absurd rfl hout
  | succ n ih =>
    have hx : (Follows (⟨.conditional, s⟩ :: around)).Inside .free (s.enter .conditional)
        (Reading.expression n (⟨.conditional, s⟩ :: around)) := fun t ht =>
      expression_follows n (h.inside ht.toGoes)
    have hc : (Follows (⟨.conditional, s⟩ :: around)).InsideIf .free (s.enter .conditional)
        (Reading.conditional n (⟨.conditional, s⟩ :: around)) := fun t ht hif =>
      RunProperty.takes_conditional (conditional_free n _) hif (ih (h.inside ht.toGoes) hif)
    rw [conditional_succ]
    exact follows_open h ((hereditary_follows _).conditionalBody (loops_follows _ n) hx hc
      (by simp [hk])).property

end

/-! ### programs -/

def Reading.program (steps : Nat) (i : Reading) : Parser Program :=
  programOf steps (functionOf steps (statement (i.expression steps []) (i.conditional steps [])))

theorem program_free (n : Nat) : Reading.free.program n = program .unlimited n := by
  rw [Parser.program, function, Reading.program, expression_free, conditional_free]
  rfl

theorem program_limited (limits : Limits) (n : Nat) :
    Reading.program n (.inr limits) = program limits n := by
  rw [program, function]
  rfl

theorem program_follows (n : Nat) (tokens : List Token) :
    Follows [] Program (.initial tokens) (Reading.program n) := by
  have hcounts {t : State} (ht : (State.initial tokens).GoesOn t) : Counts [] t := fun nesting =>
    (ht.depth nesting).trans (by cases nesting <;> rfl)
  exact ((hereditary_follows []).program (loops_follows [] n)
    (fun t ht => expression_follows n (hcounts ht))
    (fun t ht hk => conditional_follows n (hcounts ht) hk)).property

end Parser

namespace Program

variable {tokens : List Token}

/-- the reading of tokens without limits, stopped by a watch -/
def watched (watch : Watch) (tokens : List Token) : Parser.Outcome Program :=
  programIn watch (stepBound .unlimited tokens.length) (.initial tokens)

/-- `parts` are opened when the tokens are read without limits: whatever watch there is, the
reading ends at the first opening that it stops, or as it does without one -/
def Opens (tokens : List Token) (parts : Openings) : Prop :=
  ∀ watch, (watched watch tokens).result? =
    some (((parts.snapshots []).findSome? watch).elim (ofTokens .unlimited tokens) .error)

/-- the reading without limits comes to a place where just these parts are open: a watch for them
alone stops it there -/
def Reaches (tokens : List Token) (stack : List Activation) : Prop :=
  ∀ watch fault, watch stack = some fault → (∀ other, other ≠ stack → watch other = none) →
    (watched watch tokens).result? = some (.error fault)

/-- what is open at the openings is known by the tokens -/
theorem Opens.mem_snapshots_iff {parts : Openings} (hparts : Opens tokens parts)
    (stack : List Activation) : stack ∈ parts.snapshots [] ↔ Reaches tokens stack := by
  constructor
  · intro hmem watch fault hstack hothers
    rw [hparts]
    cases h : (parts.snapshots []).findSome? watch with
    | none =>
      rw [List.findSome?_eq_none_iff.1 h stack hmem] at hstack
      cases hstack
    | some found =>
      obtain ⟨other, -, hother⟩ := List.exists_of_findSome?_eq_some h
      have heq : other = stack := Classical.byContradiction fun hne => by
        rw [hothers other hne] at hother
        cases hother
      rw [heq, hstack] at hother
      obtain rfl := Option.some.inj hother
      rfl
  · -- what is not open stops nothing, so that the result does not depend on the fault
    classical
    refine fun hall => Classical.byContradiction fun hmem => ?_
    have hfault (fault : Fault) : ofTokens .unlimited tokens = .error fault := by
      have hstop := hall (fun other => if other = stack then some fault else none) fault
        (if_pos rfl) fun other hne => if_neg hne
      have hnone : ((parts.snapshots []).findSome? fun other =>
          if other = stack then some fault else none) = none :=
        List.findSome?_eq_none_iff.2 fun other ho => if_neg fun (heq : other = stack) => by
          rw [heq] at ho
          exact hmem ho
      rw [hparts, hnone] at hstop
      exact Option.some.inj hstop
    have hsame := (hfault ⟨.invalidAssignmentTarget, .point .origin⟩).symm.trans
      (hfault ⟨.expectedType .endOfFile, .point .origin⟩)
    cases hsame

/-- the parts are there, and limits stop the reading as they do as a watch -/
theorem exists_opens (h : ∃ t ∈ tokens, t.kind = .endOfFile) :
    (∃ parts, Opens tokens parts) ∧ ∀ limits : Limits,
      (watched limits.watch tokens).result? = some (ofTokens limits tokens) := by
  have hends (limits : Limits) : (State.initial tokens).Ends limits := .inr h
  have hrun : Program.run .unlimited (stepBound .unlimited tokens.length) tokens ≠ .outOfSteps :=
    run_finishes (hends _) (Nat.le_refl _)
  rw [Program.run, ← program_free] at hrun
  obtain ⟨parts, hparts⟩ := program_follows _ tokens hrun
  have hresult (i : Reading) : (i.program (stepBound .unlimited tokens.length)
      (.initial tokens)).result? = some
        (((parts.snapshots []).findSome? i.watch).elim (ofTokens .unlimited tokens) .error) := by
    refine (hparts i).result? ?_
    rw [program_free] at hrun ⊢
    exact result?_run (hends _) hrun
  refine ⟨⟨parts, fun watch => hresult (.inl watch)⟩, fun limits => ?_⟩
  -- the limits themselves and the limits as a watch stop at the same part
  have hlimited := hresult (.inr limits)
  refine (hresult (.inl limits.watch)).trans (hlimited.symm.trans ?_)
  rw [program_limited] at hlimited ⊢
  refine result?_run (hends limits) fun hout => ?_
  change program limits _ (.initial tokens) = _ at hout
  rw [hout] at hlimited
  cases hlimited

theorem watch_standard (a : Activation) (outer : List Activation) :
    Limits.standard.watch (a :: outer) =
      if 64 < opened a.nesting (a :: outer) then
        some ⟨.nestingTooDeep a.nesting 64, a.start.current.span⟩
      else none := by
  obtain ⟨nesting, start⟩ := a
  cases nesting <;> rfl

theorem watch_standard_eq_none {stack : List Activation}
    (h : ∀ nesting, opened nesting stack ≤ 64) : Limits.standard.watch stack = none := by
  cases stack with
  | nil => rfl
  | cons a outer => rw [watch_standard, if_neg (Nat.not_lt.2 (h a.nesting))]

section
variable {parts : Openings}

/-- the limits stop the reading at the first opening that they stop as a watch -/
theorem ofTokens_of_opens (h : ∃ t ∈ tokens, t.kind = .endOfFile) (hparts : Opens tokens parts)
    (limits : Limits) :
    ofTokens limits tokens =
      ((parts.snapshots []).findSome? limits.watch).elim (ofTokens .unlimited tokens) .error :=
  Option.some.inj (((exists_opens h).2 limits).symm.trans (hparts limits.watch))

theorem ofTokens_of_opened_le (h : ∃ t ∈ tokens, t.kind = .endOfFile)
    (hparts : Opens tokens parts)
    (hall : ∀ stack ∈ parts.snapshots [], ∀ nesting, opened nesting stack ≤ 64) :
    ofTokens .standard tokens = ofTokens .unlimited tokens := by
  have hnone : (parts.snapshots []).findSome? Limits.standard.watch = none :=
    List.findSome?_eq_none_iff.2 fun stack hs => watch_standard_eq_none (hall stack hs)
  rw [ofTokens_of_opens h hparts, hnone, Option.elim_none]

/-- rows of any length do not come to a limit if the parts in them do not -/
theorem ofTokens_of_height_le (h : ∃ t ∈ tokens, t.kind = .endOfFile)
    (hparts : Opens tokens parts) (hle : ∀ nesting, parts.height nesting ≤ 64) :
    ofTokens .standard tokens = ofTokens .unlimited tokens := by
  refine ofTokens_of_opened_le h hparts fun stack hs nesting => ?_
  have hall : opened nesting [] + parts.height nesting ≤ 64 := by
    rw [opened, List.countP_nil, Nat.zero_add]
    exact hle nesting
  exact (Openings.snapshots_le_iff parts (Nat.zero_le 64)).2 hall stack hs

end

/-- The limits are exact, and do nothing else.  The tokens determine what is open at the openings
when they are read without limits.  If never more than 64 expressions and never more than 64
conditionals are open at once, the limits do not change the result; else the reading ends at the
first part that is one too many.  Parts one behind another do not add up: a row of them, of any
length, comes to no limit if none of them does. -/
theorem ofTokens_standard (h : ∃ t ∈ tokens, t.kind = .endOfFile) :
    (∃ parts, Opens tokens parts) ∧ ∀ parts, Opens tokens parts →
      (∀ stack, stack ∈ parts.snapshots [] ↔ Reaches tokens stack) ∧
      ((∀ stack ∈ parts.snapshots [], ∀ nesting, opened nesting stack ≤ 64) →
        ofTokens .standard tokens = ofTokens .unlimited tokens) ∧
      (∀ before stack after nesting, parts.snapshots [] = before ++ stack :: after →
        (∀ earlier ∈ before, ∀ other, opened other earlier ≤ 64) → 64 < opened nesting stack →
        ∃ a outer, stack = a :: outer ∧ a.nesting = nesting ∧
          ofTokens .standard tokens =
            .error ⟨.nestingTooDeep nesting 64, a.start.current.span⟩) ∧
      ∀ row : List Openings, parts = row.foldr .append .nil →
        (∀ ps ∈ row, ∀ nesting, ps.height nesting ≤ 64) →
        ofTokens .standard tokens = ofTokens .unlimited tokens := by
  refine ⟨(exists_opens h).1, fun parts hparts => ⟨hparts.mem_snapshots_iff,
    ofTokens_of_opened_le h hparts, ?_, fun row hrow hle => ofTokens_of_height_le h hparts
      fun nesting => hrow ▸ Openings.height_row_le fun ps hps => hle ps hps nesting⟩⟩
  intro before stack after nesting hsnapshots hbefore hmore
  obtain ⟨a, outer, rfl, houter⟩ := Openings.exists_around hsnapshots
  have hle : opened nesting outer ≤ 64 := by
    obtain rfl | hm := houter
    · exact Nat.zero_le _
    · exact hbefore outer hm nesting
  -- what is around the part is not too much, so that it is the part itself that is
  have hnesting : a.nesting = nesting := by
    rw [Openings.opened_cons] at hmore
    split at hmore
    · assumption
    · omega
  subst hnesting
  have hnone : before.findSome? Limits.standard.watch = none :=
    List.findSome?_eq_none_iff.2 fun stack hs => watch_standard_eq_none (hbefore stack hs)
  refine ⟨a, outer, rfl, rfl, ?_⟩
  rw [ofTokens_of_opens h hparts, hsnapshots, List.findSome?_append, hnone, Option.none_or,
    List.findSome?_cons, watch_standard, if_pos hmore]
  rfl

/-- a function that returns a number in so many pairs of parentheses -/
def deep (n : Nat) : List Token :=
  row ([.keyword .functionWord, .identifier "f", .symbol .leftParen, .symbol .rightParen,
    .symbol .colon, .keyword .intWord, .symbol .leftBrace, .keyword .returnWord] ++
    List.replicate n (.symbol .leftParen) ++ [.number "1"] ++
    List.replicate n (.symbol .rightParen) ++
    [.symbol .semicolon, .symbol .rightBrace, .endOfFile])

/-- the number in 64 pairs of parentheses is the 65th expression that is open -/
theorem ofTokens_standard_deep :
    (∃ t ∈ deep 64, t.kind = .endOfFile) ∧ ∃ parts, Opens (deep 64) parts ∧
      (∃ stack ∈ parts.snapshots [], ∃ nesting, 64 < opened nesting stack) ∧
      ofTokens .standard (deep 64) =
        .error ⟨.nestingTooDeep .expression 64, .point ⟨1, 73⟩⟩ := by
  have hend : ∃ t ∈ deep 64, t.kind = .endOfFile := by decide +kernel
  have hok : (ofTokens .unlimited (deep 64)).isOk = true := by decide +kernel
  have hstandard : ofTokens .standard (deep 64) =
      .error ⟨.nestingTooDeep .expression 64, .point ⟨1, 73⟩⟩ :=
    eq_error_of_fault? (by decide +kernel)
  obtain ⟨⟨parts, hparts⟩, hall⟩ := ofTokens_standard hend
  refine ⟨hend, parts, hparts, ?_, hstandard⟩
  -- without the limit the reading succeeds, so that there is a part that is one too many
  refine Classical.byContradiction fun hle => ?_
  have hsame := (hall parts hparts).2.1 fun stack hs nesting =>
    Nat.le_of_not_lt fun hlt => hle ⟨stack, hs, nesting, hlt⟩
  rw [← hsame, hstandard] at hok
  cases hok

end Program

end Wattle
