import Wattle.Proofs.Parser.Runs

/-!
# What parsers inherit from their parts

A `RunProperty` is said of the runs of some parsers from one state: of a single parser, or of a
family whose members differ in their limits, in the bound on their steps or in the parsers of their
parts.  If the basic parsers have it and the combinators keep it, and if the loops have it
(`Loops`), then every composed parser has it as soon as the parsers of its inner parts do.  So what
is said of all runs, whether they succeed or fail, is shown for the basic parsers only: for those of
expressions (`InExprs`), for the declaration of variables (`InStmts`), and for scopes and the
registration of functions (`Hereditary`).

One member of a family, with the index `o`, is followed on its way.  Wherever it ends, it has gone
forward in the tokens without passing the end of the file, and has closed what it has opened
(`State.Goes`).  That comes with every property (`Holds`), and tells what may be relied on where a
part is read: the inner expressions of an expression start behind its first token.
-/

namespace Wattle

open Wattle.Parser State

/-! ### going forward -/

/-- `b` is what is left of `a` behind some tokens, none of which ends the file -/
def Leaves (a b : List Token) : Prop :=
  ∃ ts, a = ts ++ b ∧ ∀ t ∈ ts, t.kind ≠ .endOfFile

namespace Leaves

variable {a b c : List Token}

theorem refl (a : List Token) : Leaves a a := ⟨[], rfl, by simp⟩

theorem trans (h : Leaves a b) (h' : Leaves b c) : Leaves a c := by
  obtain ⟨ts, rfl, hts⟩ := h
  obtain ⟨ts', rfl, hts'⟩ := h'
  refine ⟨ts ++ ts', by simp, fun t ht => ?_⟩
  obtain ht | ht := List.mem_append.1 ht
  · exact hts t ht
  · exact hts' t ht

theorem length_le (h : Leaves a b) : b.length ≤ a.length := by
  obtain ⟨ts, rfl, -⟩ := h
  simp

/-- an end of the file is not left behind -/
theorem mem {t : Token} (h : Leaves a b) (ht : t ∈ a) (hk : t.kind = .endOfFile) : t ∈ b := by
  obtain ⟨ts, rfl, hts⟩ := h
  obtain ht | ht := List.mem_append.1 ht
  · exact absurd hk (hts t ht)
  · exact ht

end Leaves

namespace Parser

/-- `s'` is where `s` is or behind it, and has as much open -/
structure State.Goes (s s' : State) : Prop where
  rest : Leaves s.rest s'.rest
  depth : ∀ nesting, s'.depth nesting = s.depth nesting

/-- `s'` is behind `s`, if there is anything behind it -/
structure State.GoesOn (s s' : State) : Prop extends s.Goes s' where
  fewer : s'.rest.length < s.rest.length ∨ s.rest = []

namespace State

variable {s s' s'' : State}

theorem Goes.refl (s : State) : s.Goes s := ⟨.refl _, fun _ => rfl⟩

theorem Goes.trans (h : s.Goes s') (h' : s'.Goes s'') : s.Goes s'' :=
  ⟨h.rest.trans h'.rest, fun nesting => (h'.depth nesting).trans (h.depth nesting)⟩

theorem goes_advance (h : s.current.kind ≠ .endOfFile) : s.Goes s.advance := by
  refine ⟨?_, fun nesting => advance_depth s nesting⟩
  cases hs : s.rest with
  | nil => exact ⟨[], by simp [hs], by simp⟩
  | cons t rest =>
    have ht : s.current = t := by simp [current, hs]
    exact ⟨[t], by simp [hs], by simpa [← ht] using h⟩

theorem goesOn_advance (h : s.Goes s') (hk : s'.current.kind ≠ .endOfFile) :
    s.GoesOn s'.advance := by
  refine ⟨h.trans (goes_advance hk), ?_⟩
  obtain ⟨ts, hs, -⟩ := h.rest
  cases hr : s'.rest with
  | nil =>
    cases ts with
    | nil => exact .inr (by simpa [hr] using hs)
    | cons t ts => exact .inl (by simp [hs, hr])
  | cons t rest => exact .inl (by simp [hs, hr]; omega)

theorem GoesOn.trans (h : s.GoesOn s') (h' : s'.Goes s'') : s.GoesOn s'' :=
  ⟨h.toGoes.trans h', h.fewer.imp_left (Nat.lt_of_le_of_lt h'.rest.length_le)⟩

theorem Goes.trans_goesOn (h : s.Goes s') (h' : s'.GoesOn s'') : s.GoesOn s'' := by
  refine ⟨h.trans h'.toGoes, ?_⟩
  have hle := h.rest.length_le
  have hle' := h'.rest.length_le
  obtain hlt | hnil := h'.fewer
  · exact .inl (by omega)
  · rw [hnil, List.length_nil] at hle'
    rw [← List.length_eq_zero_iff]
    omega

/-- a state with one more token in front -/
def preceded (s : State) : State :=
  { s with rest := ⟨.symbol .semicolon, s.last.span⟩ :: s.rest }

/-- what is behind that token is `s` or behind `s` -/
theorem goesOn_preceded_iff : s.preceded.GoesOn s' ↔ s.Goes s' := by
  constructor
  · rintro ⟨⟨⟨ts, hts, hkinds⟩, hdepth⟩, hfewer⟩
    refine ⟨?_, hdepth⟩
    cases ts with
    | nil =>
      obtain hlt | hnil := hfewer
      · rw [hts, List.nil_append] at hlt
        exact absurd hlt (Nat.lt_irrefl _)
      · cases hnil
    | cons first ts =>
      exact ⟨ts, (List.cons.inj hts).2, fun t ht => hkinds t (List.mem_cons_of_mem _ ht)⟩
  · intro h
    have hone : Leaves s.preceded.rest s.rest := ⟨[_], rfl, by simp⟩
    exact ⟨⟨hone.trans h.rest, h.depth⟩, .inl (Nat.lt_succ_of_le h.rest.length_le)⟩

theorem Goes.withScope (h : s.Goes s') (scope : Scope) : s.Goes (s'.withScope scope) :=
  ⟨h.rest, fun nesting => (withScope_depth ..).trans (h.depth nesting)⟩

theorem Goes.withFunctions (h : s.Goes s') (functions : FunctionTable) :
    s.Goes (s'.withFunctions functions) :=
  ⟨h.rest, fun nesting => (withFunctions_depth ..).trans (h.depth nesting)⟩

theorem Goes.of_withScope {scope : Scope} (h : (s.withScope scope).Goes s') : s.Goes s' :=
  ⟨h.rest, fun nesting => (h.depth nesting).trans (withScope_depth ..)⟩

/-- what has been opened is closed behind a part -/
theorem Goes.leave {nesting : Nesting} (h : (s.enter nesting).Goes s') :
    s.Goes (s'.leave nesting) := by
  refine ⟨by simpa using h.rest, fun other => ?_⟩
  rw [leave_depth, h.depth, enter_depth]
  split <;> simp

theorem kind_ne_of_sees {kind : TokenKind} (h : s.sees kind = true) (hk : kind ≠ .endOfFile) :
    s.current.kind ≠ .endOfFile := by
  rwa [kind_of_sees h hk]

end State

/-! ### where runs end -/

variable {α β : Type}

namespace Outcome

/-- the state that has been reached -/
def state? : Outcome α → Option State
  | done _ s | failed _ s => some s
  | outOfSteps => none

theorem state?_mapState (f : State → State) (o : Outcome α) :
    (o.mapState f).state? = o.state?.map f := by
  cases o <;> rfl

end Outcome

/-- where a run of `p` and then of others ends, if `p` goes forward and so do the others -/
theorem goes_bind {p : Parser α} {f : α → Parser β} {s u s' : State}
    (hp : ∀ t, (p s).state? = some t → u.Goes t)
    (hf : ∀ a t, p s = .done a t → ∀ t', (f a t).state? = some t' → t.Goes t')
    (h : ((p >>= f) s).state? = some s') : u.Goes s' := by
  rw [bind_apply] at h
  cases hps : p s with
  | done a t =>
    rw [hps] at h
    exact (hp t (by rw [hps]; rfl)).trans (hf a t hps s' h)
  | failed fault t =>
    rw [hps] at h
    obtain rfl : t = s' := Option.some.inj h
    exact hp t (by rw [hps]; rfl)
  | outOfSteps =>
    rw [hps] at h
    cases h

theorem goes_nested {nesting : Nesting} {limit : Option Nat} {p : Parser α} {s s' : State}
    (hp : ∀ t, (p (s.enter nesting)).state? = some t → (s.enter nesting).Goes t)
    (h : (nested nesting limit p s).state? = some s') : s.Goes s' := by
  have hopen (h : ((p (s.enter nesting)).mapState (·.leave nesting)).state? = some s') :
      s.Goes s' := by
    rw [Outcome.state?_mapState] at h
    obtain ⟨t, ht, rfl⟩ := Option.map_eq_some_iff.1 h
    exact (hp t ht).leave
  unfold nested at h
  split at h
  · split at h
    · obtain rfl : s = s' := Option.some.inj h
      exact .refl s
    · exact hopen h
  · exact hopen h

/-- the parsers that change nothing -/
inductive Stays : {γ : Type} → Parser γ → Prop
  | pure {γ : Type} (a : γ) : Stays (pure a)
  | current : Stays current
  | sees (kind : TokenKind) : Stays (sees kind)
  | lookup (name : String) : Stays (lookup name)
  | signature? (name : String) : Stays (signature? name)
  | fail {γ : Type} (fault : Fault) : Stays (fail fault : Parser γ)
  | failHere {γ : Type} (cause : Cause) : Stays (failHere cause : Parser γ)

theorem Stays.state? {p : Parser α} (h : Stays p) (s : State) : (p s).state? = some s := by
  cases h <;> rfl

/-! ### properties of runs -/

variable {ι : Type}

/-- what is said of the runs of the members of a family from one state -/
abbrev RunProperty (ι : Type) := (α : Type) → State → (ι → Parser α) → Prop

variable {R : RunProperty ι} {o : ι} {s s' u b : State}

/-- the property, and that the member `o` goes forward to `u` or to a state behind it -/
structure RunProperty.Holds (R : RunProperty ι) (o : ι) (s u : State) (p : ι → Parser α) :
    Prop where
  property : R α s p
  place : s.Goes u
  goes : ∀ s', (p o s).state? = some s' → u.Goes s'

/-- the same of a part that takes a token whenever it can be read -/
structure RunProperty.Takes (R : RunProperty ι) (o : ι) (s : State) (p : ι → Parser α) : Prop
    extends R.Holds o s s p where
  takes : ∀ a s', p o s = .done a s' → s.GoesOn s'

/-- the property holds of the basic parsers that expressions are made of, and the combinators keep
it -/
structure RunProperty.InExprs (R : RunProperty ι) (o : ι) : Prop where
  stays {α : Type} {p : Parser α} (h : Stays p) (s : State) : R α s fun _ => p
  advance (s : State) : R Token s fun _ => advance
  bind {α β : Type} {s : State} {p : ι → Parser α} {f : ι → α → Parser β}
    (hp : R.Holds o s s p)
    (hf : ∀ a s', p o s = .done a s' → R.Holds o s' s' fun i => f i a) :
    R β s fun i => p i >>= f i
  /-- the token behind the next one decides between parts that both take the next one -/
  fork {α : Type} {s : State} {p q : ι → Parser α} (hp : R.Holds o s s.advance p)
    (hq : R.Holds o s s.advance q) :
    R α s fun i => ahead >>= fun kind => if kind = .symbol .leftParen then p i else q i

/-- statements also declare variables -/
structure RunProperty.InStmts (R : RunProperty ι) (o : ι) : Prop extends R.InExprs o where
  declare (s : State) (name : String) (type : DataType) : R Unit s fun _ => declare name type

/-- functions have a scope of their own, and are registered -/
structure RunProperty.Hereditary (R : RunProperty ι) (o : ι) : Prop extends R.InStmts o where
  register (s : State) (name : String) (signature : Signature) :
    R Unit s fun _ => register name signature
  inScope {α : Type} {s : State} {scope : Scope} {p : ι → Parser α}
    (h : R.Holds o (s.withScope scope) (s.withScope scope) p) :
    R α s fun i => inScope scope (p i)

namespace RunProperty.Holds

theorem weaken {p : ι → Parser α} (h : R.Holds o s u p) : R.Holds o s s p :=
  ⟨h.property, .refl s, fun s' hs => h.place.trans (h.goes s' hs)⟩

theorem goes_of_done {p : ι → Parser α} (h : R.Holds o s u p) {a : α} (hd : p o s = .done a s') :
    u.Goes s' :=
  h.goes s' (by rw [hd]; rfl)

/-- what goes on behind a token takes it -/
theorem takes {p : ι → Parser α} (h : R.Holds o s s.advance p)
    (hk : s.current.kind ≠ .endOfFile) : R.Takes o s p :=
  ⟨h.weaken, fun _ _ hd => (goesOn_advance (.refl s) hk).trans (h.goes_of_done hd)⟩

end RunProperty.Holds

namespace RunProperty.InExprs

variable (H : R.InExprs o)
include H

/-! ### parsers in a row -/

theorem stay {p : Parser α} (h : Stays p) : R.Holds o s s fun _ => p :=
  ⟨H.stays h s, .refl s, fun _ hs => Option.some.inj ((h.state? s).symm.trans hs) ▸ .refl s⟩

theorem pure (a : α) : R.Holds o s s fun _ => Pure.pure a := H.stay (.pure a)

theorem andThen {p : ι → Parser α} {f : ι → α → Parser β} (hp : R.Holds o s u p)
    (hf : ∀ a s', p o s = .done a s' → R.Holds o s' s' fun i => f i a) :
    R.Holds o s u fun i => p i >>= f i :=
  ⟨H.bind hp.weaken hf, hp.place, fun _ h => goes_bind hp.goes (fun a t ht => (hf a t ht).goes) h⟩

/-- what follows a parser that has changed nothing -/
theorem stay_then {p : Parser α} {f : ι → α → Parser β} {a : α} (hp : Stays p)
    (h : p s = .done a s) (hf : R.Holds o s u fun i => f i a) :
    R.Holds o s u fun i => p >>= f i := by
  refine ⟨H.bind (H.stay hp) fun a' s' h' => ?_, hf.place, fun s' hs => hf.goes s' ?_⟩
  · rw [h] at h'
    cases h'
    exact hf.weaken
  · rw [bind_apply, h] at hs
    exact hs

theorem current_then {f : ι → Token → Parser β} (hf : R.Holds o s u fun i => f i s.current) :
    R.Holds o s u fun i => current >>= f i :=
  H.stay_then .current rfl hf

theorem current_takes {f : ι → Token → Parser β} (hf : R.Takes o s fun i => f i s.current) :
    R.Takes o s fun i => current >>= f i :=
  ⟨H.current_then hf.toHolds, hf.takes⟩

theorem sees_then {kind : TokenKind} {f : ι → Bool → Parser β}
    (hf : R.Holds o s u fun i => f i (s.sees kind)) :
    R.Holds o s u fun i => sees kind >>= f i :=
  H.stay_then (.sees kind) rfl hf

theorem lookup_then {name : String} {f : ι → Option DataType → Parser β}
    (hf : R.Holds o s u fun i => f i (s.scope.lookup name)) :
    R.Holds o s u fun i => lookup name >>= f i :=
  H.stay_then (.lookup name) rfl hf

theorem advance_then {f : ι → Token → Parser β} (hk : s.current.kind ≠ .endOfFile)
    (hf : R.Holds o s.advance s.advance fun i => f i s.current) :
    R.Holds o s s.advance fun i => Parser.advance >>= f i := by
  refine H.andThen ⟨H.advance s, goes_advance hk, fun s' hs => ?_⟩ fun a s' h => ?_
  · cases hs
    exact .refl _
  · cases h
    exact hf

theorem take_then {f : ι → Token → Parser β} (hk : s.current.kind ≠ .endOfFile)
    (hf : R.Holds o s.advance s.advance fun i => f i s.current) :
    R.Holds o s s fun i => Parser.advance >>= f i :=
  (H.advance_then hk hf).weaken

theorem ofExcept_then {x : Except Fault α} {f : ι → α → Parser β}
    (hf : ∀ a, x = .ok a → R.Holds o s s fun i => f i a) :
    R.Holds o s s fun i => ofExcept x >>= f i := by
  cases x with
  | ok a => exact H.stay_then (.pure a) rfl (hf a rfl)
  | error fault => exact H.andThen (H.stay (.fail fault)) fun _ _ h => by cases h

theorem ofExcept (x : Except Fault α) : R.Holds o s s fun _ => Parser.ofExcept x := by
  cases x with
  | ok a => exact H.pure a
  | error fault => exact H.stay (.fail fault)

/-- a token of the given kind is read if it is next -/
theorem eat_then {kind : TokenKind} {f : ι → Bool → Parser β} (hk : kind ≠ .endOfFile)
    (hyes : s.sees kind = true → R.Holds o s.advance s.advance fun i => f i true)
    (hno : s.sees kind = false → R.Holds o s s fun i => f i false) :
    R.Holds o s s fun i => eat kind >>= f i := by
  have heat : R.Holds o s s fun _ => eat kind := by
    refine H.sees_then ?_
    cases hs : s.sees kind with
    | true => exact H.take_then (kind_ne_of_sees hs hk) (H.pure true)
    | false => exact H.pure false
  refine H.andThen heat fun a s' h => ?_
  obtain ⟨hs, rfl⟩ := eat_done.1 h
  cases a with
  | true => exact hyes hs
  | false => exact hno hs

theorem expect_then {kind : TokenKind} {f : ι → Token → Parser β} (hk : kind ≠ .endOfFile)
    (hf : s.sees kind = true → R.Holds o s.advance s.advance fun i => f i s.current) :
    R.Holds o s s fun i => expect kind >>= f i := by
  have hexpect : R.Holds o s s fun _ => expect kind := by
    refine H.sees_then ?_
    cases hs : s.sees kind with
    | true => exact H.take_then (kind_ne_of_sees hs hk) (H.pure _)
    | false => exact H.current_then (H.stay (.failHere _))
  refine H.andThen hexpect fun a s' h => ?_
  obtain ⟨hs, rfl, rfl⟩ := expect_done.1 h
  exact hf hs

theorem identifier_at {f : ι → Ident → Parser β} {name : String}
    (hk : s.current.kind = .identifier name)
    (hf : R.Holds o s.advance s.advance fun i => f i ⟨name, s.current.span⟩) :
    R.Holds o s s.advance fun i => identifier >>= f i := by
  have hidentifier : R.Holds o s s.advance fun _ => identifier := by
    refine H.current_then ?_
    simp only [hk]
    exact H.advance_then (by simp [hk]) (H.pure _)
  refine H.andThen hidentifier fun a s' h => ?_
  obtain ⟨hs, rfl⟩ := identifier_done.1 h
  obtain rfl : name = a.name := by simpa [hs] using hk.symm
  simpa [hs] using hf

theorem identifier_then {f : ι → Ident → Parser β}
    (hf : ∀ name, s.current.kind = .identifier name →
      R.Holds o s.advance s.advance fun i => f i ⟨name, s.current.span⟩) :
    R.Holds o s s fun i => identifier >>= f i := by
  by_cases hk : ∃ name, s.current.kind = .identifier name
  · obtain ⟨name, hk⟩ := hk
    exact (H.identifier_at hk (hf name hk)).weaken
  · have hfails : R.Holds o s s fun _ => identifier := by
      refine H.current_then ?_
      cases hk' : s.current.kind with
      | identifier name => exact absurd ⟨name, hk'⟩ hk
      | _ => exact H.stay (.failHere _)
    refine H.andThen hfails fun a s' h => absurd ⟨a.name, ?_⟩ hk
    rw [(identifier_done.1 h).1]

theorem forkAt {p q : ι → Parser α} (hp : R.Holds o s s.advance p)
    (hq : R.Holds o s s.advance q) :
    R.Holds o s s.advance fun i =>
      ahead >>= fun kind => if kind = .symbol .leftParen then p i else q i := by
  refine ⟨H.fork hp hq, hp.place, fun s' h => ?_⟩
  rw [ahead_bind] at h
  split at h
  · exact hp.goes s' h
  · exact hq.goes s' h

theorem typeName : R.Holds o s s fun _ => typeName := by
  refine H.current_then ?_
  cases hk : s.current.kind with
  | keyword word =>
    cases word with
    | intWord | doubleWord => exact H.take_then (by simp [hk]) (H.pure _)
    | _ => exact H.stay (.failHere _)
  | _ => exact H.stay (.failHere _)

/-! ### rounds of loops -/

theorem separated_round {item : ι → Parser α} {n : ι → Nat} (hi : R.Holds o s s item)
    (hn : ∀ s', s.Goes s' → s'.sees (.symbol .comma) = true →
      R.Holds o s'.advance s'.advance fun i => separated (item i) (n i)) :
    R.Holds o s s fun i => separated (item i) (n i + 1) := by
  refine H.andThen hi fun a s' h => H.eat_then (by simp) (fun hs => ?_) fun _ => H.pure _
  exact H.andThen (hn s' (hi.goes_of_done h) hs) fun _ _ _ => H.pure _

theorem chain_round {op? : TokenKind → Option BinaryOp} {n : ι → Nat}
    {build : BinaryOp → Span → Expr → Expr → Except Fault Expr} {operand : ι → Parser Expr}
    {left : Expr} (hop : ∀ op, op? s.current.kind = some op → s.current.kind ≠ .endOfFile)
    (ho : ∀ op, op? s.current.kind = some op → R.Holds o s.advance s.advance operand)
    (hn : ∀ op, op? s.current.kind = some op → ∀ right s', operand o s.advance = .done right s' →
      s.advance.Goes s' → ∀ e, R.Holds o s' s' fun i => chain op? build (operand i) (n i) e) :
    R.Holds o s s fun i => chain op? build (operand i) (n i + 1) left := by
  refine H.current_then ?_
  cases h : op? s.current.kind with
  | none => exact H.pure left
  | some op =>
    refine H.take_then (hop op h) ?_
    refine H.andThen (ho op h) fun right s' hr => H.ofExcept_then fun e _ => ?_
    exact hn op h right s' hr ((ho op h).goes_of_done hr) e

theorem statements_round {stmt : ι → Parser Stmt} {n : ι → Nat} (hs : R.Takes o s stmt)
    (hn : ∀ s', s.GoesOn s' → s.sees .endOfFile = false →
      R.Holds o s' s' fun i => statements (stmt i) (n i)) :
    R.Holds o s s fun i => statements (stmt i) (n i + 1) := by
  refine H.sees_then ?_
  cases s.sees (.symbol .rightBrace) with
  | true => exact H.pure []
  | false =>
    refine H.sees_then ?_
    cases he : s.sees .endOfFile with
    | true => exact H.pure []
    | false =>
      refine H.andThen hs.toHolds fun a s' h => ?_
      exact H.andThen (hn s' (hs.takes a s' h) he) fun _ _ _ => H.pure _

theorem functions_round {function : ι → Parser FunctionDecl} {n : ι → Nat}
    (hf : s.sees (.keyword .functionWord) = true → R.Takes o s function)
    (hn : ∀ s', s.GoesOn s' → s.sees .endOfFile = false →
      R.Holds o s' s' fun i => functionsOf (function i) (n i)) :
    R.Holds o s s fun i => functionsOf (function i) (n i + 1) := by
  refine H.sees_then ?_
  cases he : s.sees .endOfFile with
  | true => exact H.pure []
  | false =>
    refine H.sees_then ?_
    cases hk : s.sees (.keyword .functionWord) with
    | false => exact H.current_then (H.stay (.failHere _))
    | true =>
      refine H.andThen (hf hk).toHolds fun a s' h => ?_
      exact H.andThen (hn s' ((hf hk).takes a s' h) he) fun _ _ _ => H.pure _

end RunProperty.InExprs

/-! ### scopes and functions -/

theorem RunProperty.InStmts.declare_then {name : String} {type : DataType}
    {f : ι → Unit → Parser β} (H : R.InStmts o)
    (hf : R.Holds o (s.withScope (s.scope.declare name type))
      (s.withScope (s.scope.declare name type)) fun i => f i ()) :
    R.Holds o s s fun i => Parser.declare name type >>= f i := by
  refine H.andThen ⟨H.declare s name type, .refl s, fun s' hs => ?_⟩ fun a s' h => ?_
  · cases hs
    exact (Goes.refl s).withScope _
  · cases h
    exact hf

theorem RunProperty.Hereditary.register_then {name : String} {signature : Signature}
    {f : ι → Unit → Parser β} (H : R.Hereditary o)
    (hf : R.Holds o (s.withFunctions (s.functions.register name signature))
      (s.withFunctions (s.functions.register name signature)) fun i => f i ()) :
    R.Holds o s s fun i => Parser.register name signature >>= f i := by
  refine H.andThen ⟨H.register s name signature, .refl s, fun s' hs => ?_⟩ fun a s' h => ?_
  · cases hs
    exact (Goes.refl s).withFunctions _
  · cases h
    exact hf

/-- behind the parts in a scope of their own the old one is there again -/
theorem RunProperty.Holds.inScope {R' : RunProperty ι} {scope : Scope} {p : ι → Parser α}
    (h : R.Holds o (s.withScope scope) (s.withScope scope) p)
    (hp : R' α s fun i => Parser.inScope scope (p i)) :
    R'.Holds o s s fun i => Parser.inScope scope (p i) := by
  refine ⟨hp, .refl s, fun s' hs => ?_⟩
  obtain ⟨t, ht, rfl⟩ := Option.map_eq_some_iff.1 ((Outcome.state?_mapState ..).symm.trans hs)
  exact (h.goes t ht).of_withScope.withScope _

/-! ### loops -/

/-- the loops have the property too; `n` bounds their rounds -/
structure RunProperty.Loops (R : RunProperty ι) (o : ι) (n : ι → Nat) : Prop where
  separated {α : Type} {s : State} {item : ι → Parser α}
    (h : ∀ s', s.Goes s' → R.Holds o s' s' item) :
    R.Holds o s s fun i => separated (item i) (n i)
  chain {s : State} {l : Chain} {inner : ι → Parser Expr} {left : Expr}
    (h : ∀ s', s.Goes s' → R.Holds o s' s' fun i => l.operand.parser (n i) (inner i)) :
    R.Holds o s s fun i => chain l.op? l.build (l.operand.parser (n i) (inner i)) (n i) left
  statements {s : State} {stmt : ι → Parser Stmt} (h : ∀ s', s.Goes s' → R.Takes o s' stmt) :
    R.Holds o s s fun i => statements (stmt i) (n i)
  functions {s : State} {function : ι → Parser FunctionDecl}
    (h : ∀ s', s.Goes s' → s'.sees (.keyword .functionWord) = true → R.Takes o s' function) :
    R.Holds o s s fun i => functionsOf (function i) (n i)

namespace RunProperty.Loops

/-- the members count their rounds down together, and `o` is the first that is at the end -/
theorem countdown {P : (ι → Nat) → Prop} (hstop : ∀ n, n o = 0 → P n)
    (hnext : ∀ n, P n → P fun i => n i + 1) {n : ι → Nat} (hn : ∀ i, n o ≤ n i) : P n := by
  induction h : n o generalizing n with
  | zero => exact hstop n h
  | succ k ih =>
    have hpos (i : ι) : n i = n i - 1 + 1 := by have := hn i; omega
    rw [funext hpos]
    refine hnext _ (ih (fun i => ?_) (by omega))
    have := hn i
    omega

/-- loops have a property that says nothing where the member `o` runs out of steps -/
theorem of_stop (H : R.InExprs o)
    (hstop : ∀ {α : Type} {s : State} {p : ι → Parser α}, p o s = .outOfSteps → R α s p)
    {n : ι → Nat} (hn : ∀ i, n o ≤ n i) : R.Loops o n := by
  have hout {α : Type} {s : State} {p : ι → Parser α} (h : p o s = .outOfSteps) :
      R.Holds o s s p := ⟨hstop h, .refl s, by simp [h, Outcome.state?]⟩
  constructor
  case separated =>
    intro α b item h
    refine countdown (P := fun m => ∀ s, b.Goes s →
      R.Holds o s s fun i => Parser.separated (item i) (m i)) ?_ ?_ hn b (.refl b)
    · exact fun m hm s _ => hout (by rw [hm]; rfl)
    · refine fun m ih s hs => H.separated_round (h s hs) fun s' hs' hc => ih _ ?_
      exact (hs.trans hs').trans (goes_advance (kind_ne_of_sees hc (by simp)))
  case chain =>
    intro b l inner left h
    have hkind {k : TokenKind} {op : BinaryOp} (hop : l.op? k = some op) : k ≠ .endOfFile := by
      simp [(Chain.of_op? hop).2]
    refine countdown (P := fun m => ∀ left s, b.Goes s → R.Holds o s s fun i =>
      Parser.chain l.op? l.build (l.operand.parser (n i) (inner i)) (m i) left)
      ?_ ?_ hn left b (.refl b)
    · exact fun m hm left s _ => hout (by rw [hm]; rfl)
    · refine fun m ih left s hs => H.chain_round (fun op => hkind) (fun op hop => ?_) ?_
      · exact h _ (hs.trans (goes_advance (hkind hop)))
      · exact fun op hop right s' _ hs' e =>
          ih e s' ((hs.trans (goes_advance (hkind hop))).trans hs')
  case statements =>
    intro b stmt h
    refine countdown (P := fun m => ∀ s, b.Goes s →
      R.Holds o s s fun i => Parser.statements (stmt i) (m i)) ?_ ?_ hn b (.refl b)
    · exact fun m hm s _ => hout (by rw [hm]; rfl)
    · exact fun m ih s hs => H.statements_round (h s hs) fun s' hs' _ =>
        ih s' (hs.trans hs'.toGoes)
  case functions =>
    intro b function h
    refine countdown (P := fun m => ∀ s, b.Goes s →
      R.Holds o s s fun i => functionsOf (function i) (m i)) ?_ ?_ hn b (.refl b)
    · exact fun m hm s _ => hout (by rw [hm]; rfl)
    · exact fun m ih s hs => H.functions_round (h s hs) fun s' hs' _ =>
        ih s' (hs.trans hs'.toGoes)

end RunProperty.Loops

end Parser

end Wattle
