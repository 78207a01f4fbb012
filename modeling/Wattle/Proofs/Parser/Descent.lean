import Wattle.Proofs.Parser.Composition

/-!
# Properties of runs, parser by parser

A hereditary property with its loops holds of every parser as soon as it holds of the parsers of
the inner expressions and conditionals, wherever these are run.  An expression runs its inner
expressions behind its first token, a conditional runs everything behind its first token; `b` is
the state in which the construct around started.

The first use is for going forward itself: what is said of all states that a part may be run in is
true of them, as every run ends where it started or behind it (`expression_goes`,
`conditional_goes`).
-/

namespace Wattle.Parser

open State

variable {α ι : Type} {R : RunProperty ι} {o : ι} {n : ι → Nat} {b s u : State}
variable {inner : ι → Parser Expr} {cond stmt : ι → Parser Stmt}

namespace RunProperty

/-- the inner expressions have the property behind the first token of `b` -/
def Inside (R : RunProperty ι) (o : ι) (b : State) (inner : ι → Parser Expr) : Prop :=
  ∀ s, b.GoesOn s → R.Holds o s s inner

/-- so do the inner conditionals -/
def InsideIf (R : RunProperty ι) (o : ι) (b : State) (cond : ι → Parser Stmt) : Prop :=
  ∀ s, b.GoesOn s → s.current.kind = .keyword .ifWord → R.Takes o s cond

namespace InExprs

variable (H : R.InExprs o) (L : R.Loops o n)
include H

/-! ### primary expressions -/

theorem number {lexeme : String} (hk : s.current.kind = .number lexeme) :
    R.Holds o s s.advance fun _ => number lexeme :=
  H.advance_then (by simp [hk]) (H.ofExcept _)

theorem var {name : String} (hk : s.current.kind = .identifier name) :
    R.Holds o s s.advance fun _ => var name := by
  refine H.advance_then (by simp [hk]) (H.lookup_then ?_)
  cases s.advance.scope.lookup name with
  | none => exact H.stay (.fail _)
  | some type => exact H.pure _

include L

theorem items {item : ι → Parser α} (h : ∀ s', s.Goes s' → R.Holds o s' s' item) :
    R.Holds o s s fun i => items (item i) (n i) := by
  refine H.sees_then ?_
  cases s.sees (.symbol .rightParen) with
  | true => exact H.pure []
  | false => exact L.separated h

theorem call (hx : R.Inside o b inner) (hs : b.Goes s) {name : String}
    (hk : s.current.kind = .identifier name) :
    R.Holds o s s.advance fun i => call (n i) (inner i) := by
  have hb : b.GoesOn s.advance := goesOn_advance hs (by simp [hk])
  refine H.identifier_at hk (H.expect_then (by simp) fun ho => ?_)
  have hargs : R.Holds o s.advance.advance s.advance.advance
      fun i => Parser.items (inner i) (n i) := by
    refine H.items L fun s' hs' => hx s' (hb.trans ?_)
    exact (goes_advance (kind_ne_of_sees ho (by simp))).trans hs'
  refine H.andThen hargs fun args s' _ => H.expect_then (by simp) fun _ => ?_
  refine H.stay_then (.signature? _) rfl ?_
  exact H.ofExcept_then fun _ _ => H.pure _

omit L in
theorem group (hx : R.Inside o b inner) (hs : b.Goes s)
    (hk : s.current.kind = .symbol .leftParen) :
    R.Holds o s s fun i => group (inner i) := by
  have hne : s.current.kind ≠ .endOfFile := by simp [hk]
  refine H.take_then hne (H.andThen (hx _ (goesOn_advance hs hne)) fun e s' _ => ?_)
  exact H.expect_then (by simp) fun _ => H.pure _

theorem primary (hx : R.Inside o b inner) (hs : b.Goes s) :
    R.Holds o s s fun i => primary (n i) (inner i) := by
  refine H.current_then ?_
  cases hk : s.current.kind with
  | number lexeme => exact (H.number hk).weaken
  | identifier name =>
    exact (H.forkAt (H.call L hx hs hk) (H.var hk)).weaken
  | symbol sym =>
    cases sym with
    | leftParen => exact H.group hx hs hk
    | _ => exact H.stay (.failHere _)
  | _ => exact H.stay (.failHere _)

/-! ### operators and assignments -/

theorem unary (hx : R.Inside o b inner) (hs : b.Goes s) :
    R.Holds o s s fun i => unary (n i) (inner i) := by
  refine H.sees_then ?_
  cases hm : s.sees (.symbol .minus) with
  | false => exact H.primary L hx hs
  | true =>
    have hne : s.current.kind ≠ .endOfFile := kind_ne_of_sees hm (by simp)
    refine H.take_then hne (H.andThen (H.primary L hx (hs.trans (goes_advance hne))) ?_)
    exact fun _ _ _ => H.pure _

/-- a level whose operands have the property has it -/
theorem level {l : Chain}
    (h : ∀ s, b.Goes s → R.Holds o s s fun i => l.operand.parser (n i) (inner i)) (hs : b.Goes s) :
    R.Holds o s s fun i => (Level.chain l).parser (n i) (inner i) := by
  simp only [Level.parser_chain]
  refine H.andThen (h s hs) fun left s' hl => L.chain fun s'' hs'' => h s'' ?_
  exact (hs.trans ((h s hs).goes_of_done hl)).trans hs''

theorem comparison (hx : R.Inside o b inner) (hs : b.Goes s) :
    R.Holds o s s fun i => comparison (n i) (inner i) := by
  have hproduct (s : State) (hs : b.Goes s) : R.Holds o s s fun i => product (n i) (inner i) :=
    H.level L (l := .product) (fun s hs => H.unary L hx hs) hs
  have hsum (s : State) (hs : b.Goes s) : R.Holds o s s fun i => sum (n i) (inner i) :=
    H.level L (l := .sum) hproduct hs
  exact H.level L (l := .comparison) hsum hs

omit L in
theorem assignTo (hx : R.Inside o b inner) (hs : b.Goes s) (hk : s.current.kind = .symbol .assign)
    (grouped : Bool) (target : Expr) :
    R.Holds o s s fun i => assignTo (inner i) grouped target := by
  have hne : s.current.kind ≠ .endOfFile := by simp [hk]
  unfold Parser.assignTo
  split
  · refine H.take_then hne (H.andThen (hx _ (goesOn_advance hs hne)) fun value s' _ => ?_)
    split
    · exact H.pure _
    · exact H.stay (.fail _)
  · exact H.stay (.fail _)

theorem assignment (hx : R.Inside o b inner) (hs : b.Goes s) :
    R.Holds o s s fun i => assignment (n i) (inner i) := by
  refine H.sees_then (H.andThen (H.comparison L hx hs) fun left s' h => H.sees_then ?_)
  have hs' : b.Goes s' := hs.trans ((H.comparison L hx hs).goes_of_done h)
  cases ha : s'.sees (.symbol .assign) with
  | false => exact H.pure left
  | true => exact H.assignTo hx hs' (kind_of_sees ha (by simp)) _ left

/-! ### simple statements -/

omit L in
theorem writtenType : R.Holds o s s fun _ => writtenType :=
  H.eat_then (by simp) (fun _ => H.andThen H.typeName fun _ _ _ => H.pure _) fun _ => H.pure none

omit L in
theorem ret (hx : R.Inside o b inner) (hs : b.Goes s) (hk : s.current.kind ≠ .endOfFile) :
    R.Holds o s s.advance fun i => ret (inner i) := by
  refine H.advance_then hk (H.andThen (hx _ (goesOn_advance hs hk)) fun e s' _ => ?_)
  exact H.expect_then (by simp) fun _ => H.pure _

omit L in
/-- an expression may be empty-handed, but the semicolon behind it is taken -/
theorem expressionStmt (hx : R.Holds o s s inner) :
    R.Takes o s fun i => expressionStmt (inner i) := by
  refine ⟨H.andThen hx fun _ _ _ => H.expect_then (by simp) fun _ => H.pure _, fun a s' h => ?_⟩
  simp only [Parser.expressionStmt, bind_done, expect_done, pure_done] at h
  obtain ⟨e, s₁, he, _, _, ⟨hsemi, -, rfl⟩, -, rfl⟩ := h
  exact goesOn_advance (hx.goes_of_done he) (kind_ne_of_sees hsemi (by simp))

theorem block (h : ∀ s', s.Goes s' → R.Takes o s' stmt) :
    R.Holds o s s fun i => block (n i) (stmt i) := by
  refine H.expect_then (by simp) fun ho => ?_
  have hs : s.Goes s.advance := goes_advance (kind_ne_of_sees ho (by simp))
  refine H.andThen (L.statements fun s' hs' => h s' (hs.trans hs')) fun body s' _ => ?_
  exact H.expect_then (by simp) fun _ => H.pure _

/-! ### functions, but for their bodies -/

omit L in
theorem param : R.Holds o s s fun _ => param := by
  refine H.identifier_then fun name _ => H.eat_then (by simp) (fun _ => ?_) fun _ => ?_
  · exact H.andThen H.typeName fun _ _ _ => H.pure _
  · exact H.current_then (H.stay (.failHere _))

omit L in
theorem returnType {name : String} : R.Holds o s s fun _ => returnType name :=
  H.eat_then (by simp) (fun _ => H.typeName) fun _ => H.current_then (H.stay (.failHere _))

/-- the body is read in a scope of its own, where another property may hold of its parts -/
theorem functionTail (hbody : ∀ scope s', s.Goes s' →
      R.Holds o s' s' fun i => inScope scope (Parser.block (n i) (stmt i))) (word : Token) :
    R.Holds o s s fun i => functionTail (n i) (stmt i) word := by
  refine H.identifier_then fun name hname => ?_
  have hs₁ : s.Goes s.advance := goes_advance (by simp [hname])
  refine H.expect_then (by simp) fun ho => ?_
  have hs₂ := hs₁.trans (goes_advance (kind_ne_of_sees ho (by simp)))
  have hparams : R.Holds o s.advance.advance s.advance.advance fun i =>
      Parser.items Parser.param (n i) := H.items L fun _ _ => H.param
  refine H.andThen hparams fun params s₃ h₃ => H.expect_then (by simp) fun hclose => ?_
  have hs₃ := (hs₂.trans (hparams.goes_of_done h₃)).trans
    (goes_advance (kind_ne_of_sees hclose (by simp)))
  refine H.andThen H.returnType fun type s₄ h₄ => H.ofExcept_then fun scope _ => ?_
  have hs₄ := hs₃.trans (H.returnType.goes_of_done h₄)
  exact H.andThen (hbody scope s₄ hs₄) fun body _ _ => H.pure _

end InExprs

/-! ### statements -/

namespace InStmts

variable (H : R.InStmts o) (L : R.Loops o n)
include H

theorem declaration (hx : R.Inside o b inner) (hs : b.Goes s)
    (hk : s.current.kind ≠ .endOfFile) : R.Holds o s s.advance fun i => declaration (inner i) := by
  have hb : b.GoesOn s.advance := goesOn_advance hs hk
  refine H.advance_then hk (H.identifier_then fun name hname => ?_)
  have hb₁ : b.GoesOn s.advance.advance := hb.trans (goes_advance (by simp [hname]))
  refine H.lookup_then ?_
  split
  · exact H.stay (.fail _)
  refine H.andThen H.writtenType fun written s₁ h => H.expect_then (by simp) fun ha => ?_
  have hb₂ : b.GoesOn s₁.advance :=
    (hb₁.trans (H.writtenType.goes_of_done h)).trans
      (goes_advance (kind_ne_of_sees ha (by simp)))
  refine H.andThen (hx _ hb₂) fun value s₂ _ => H.ofExcept_then fun type _ => ?_
  exact H.expect_then (by simp) fun _ => H.declare_then (H.pure _)

theorem statement (hx : R.Inside o b inner) (hc : R.InsideIf o b cond) (hs : b.GoesOn s) :
    R.Takes o s fun i => statement (inner i) (cond i) := by
  refine H.current_takes ?_
  cases hk : s.current.kind with
  | keyword word =>
    have hne : s.current.kind ≠ .endOfFile := by simp [hk]
    cases word with
    | letWord | constWord => exact (H.declaration hx hs.toGoes hne).takes hne
    | returnWord => exact (H.ret hx hs.toGoes hne).takes hne
    | ifWord => exact hc s hs hk
    | _ => exact H.expressionStmt (hx s hs)
  | _ => exact H.expressionStmt (hx s hs)

include L

theorem alternate (hx : R.Inside o b inner) (hc : R.InsideIf o b cond) (hs : b.GoesOn s) :
    R.Holds o s s fun i => alternate (n i) (inner i) (cond i) := by
  refine H.sees_then ?_
  cases hif : s.sees (.keyword .ifWord) with
  | true =>
    exact H.andThen (hc s hs (kind_of_sees hif (by simp))).toHolds fun _ _ _ => H.pure _
  | false => exact H.block L fun s' hs' => H.statement hx hc (hs.trans hs')

theorem conditionalTail (hx : R.Inside o b inner) (hc : R.InsideIf o b cond) (hs : b.GoesOn s)
    (word : Token) : R.Holds o s s fun i => conditionalTail (n i) (inner i) (cond i) word := by
  refine H.expect_then (by simp) fun ho => ?_
  have hs₁ := hs.trans (goes_advance (kind_ne_of_sees ho (by simp)))
  refine H.andThen (hx _ hs₁) fun condition s₂ h₂ => H.expect_then (by simp) fun hclose => ?_
  have hs₂ := (hs₁.trans ((hx _ hs₁).goes_of_done h₂)).trans
    (goes_advance (kind_ne_of_sees hclose (by simp)))
  split
  · have hblock : R.Holds o s₂.advance s₂.advance fun i =>
        Parser.block (n i) (Parser.statement (inner i) (cond i)) :=
      H.block L fun s' hs' => H.statement hx hc (hs₂.trans hs')
    refine H.andThen hblock fun consequent s₃ h₃ => ?_
    have hs₃ := hs₂.trans (hblock.goes_of_done h₃)
    refine H.eat_then (by simp) (fun helse => ?_) fun _ => H.pure _
    refine H.andThen (H.alternate L hx hc ?_) fun _ _ _ => H.pure _
    exact hs₃.trans (goes_advance (kind_ne_of_sees helse (by simp)))
  · exact H.stay (.fail _)

theorem conditionalBody (hx : R.Inside o s inner) (hc : R.InsideIf o s cond)
    (hk : s.current.kind ≠ .endOfFile) :
    R.Holds o s s.advance fun i => conditionalBody (n i) (inner i) (cond i) :=
  H.advance_then hk (H.conditionalTail L hx hc (goesOn_advance (.refl s) hk) s.current)

end InStmts

/-! ### functions and programs -/

namespace Hereditary

variable (H : R.Hereditary o) (L : R.Loops o n)
include H L

theorem functionOf (h : ∀ s', s.GoesOn s' → R.Takes o s' stmt) (hk : s.current.kind ≠ .endOfFile) :
    R.Holds o s s.advance fun i => functionOf (n i) (stmt i) := by
  have hs : s.GoesOn s.advance := goesOn_advance (.refl s) hk
  refine H.advance_then hk (H.andThen (H.functionTail L (fun scope t ht => ?_) _) fun _ _ _ => ?_)
  · have hblock : R.Holds o (t.withScope scope) (t.withScope scope) fun i =>
        Parser.block (n i) (stmt i) :=
      H.block L fun s' hs' => h s' (hs.trans (ht.trans hs'.of_withScope))
    exact hblock.inScope (H.inScope hblock)
  · exact H.register_then (H.pure _)

theorem programOf (h : ∀ s', s.GoesOn s' → R.Takes o s' stmt) :
    R.Holds o s s fun i => programOf (n i) (Parser.functionOf (n i) (stmt i)) := by
  refine H.current_then (H.andThen (L.functions fun s' hs' hf => ?_) fun _ _ _ => ?_)
  · have hne : s'.current.kind ≠ .endOfFile := kind_ne_of_sees hf (by simp)
    exact (H.functionOf L (fun s'' hs'' => h s'' (hs'.trans_goesOn hs'')) hne).takes hne
  · exact H.current_then (H.pure _)

/-- the whole, if the property holds of the outermost expressions and conditionals -/
theorem program (hx : R.Inside o s inner) (hc : R.InsideIf o s cond) :
    R.Holds o s s fun i => Parser.programOf (n i)
      (Parser.functionOf (n i) (Parser.statement (inner i) (cond i))) :=
  H.programOf L fun _ hs => H.statement hx hc hs

end Hereditary

end RunProperty

/-! ### every run goes forward -/

/-- nothing is said -/
def anyRun : RunProperty Unit := fun _ _ _ => True

theorem hereditary_anyRun : anyRun.Hereditary () where
  stays _ _ := trivial
  advance _ := trivial
  bind _ _ := trivial
  fork _ _ := trivial
  declare _ _ _ := trivial
  register _ _ _ := trivial
  inScope _ := trivial

theorem loops_anyRun (n : Unit → Nat) : anyRun.Loops () n :=
  .of_stop hereditary_anyRun.toInExprs (fun _ => trivial) fun _ => Nat.le_refl _

theorem RunProperty.Holds.anyRun {p : ι → Parser α} (h : R.Holds o s u p) :
    anyRun.Holds () s u fun _ => p o :=
  ⟨trivial, h.place, h.goes⟩

theorem RunProperty.Takes.anyRun {p : ι → Parser α} (h : R.Takes o s p) :
    anyRun.Takes () s fun _ => p o :=
  ⟨h.toHolds.anyRun, h.takes⟩

/-- wherever the reading of an expression ends, it has gone forward -/
theorem expression_goes {limit : Option Nat} {n : Nat} {s s' : State}
    (h : (expression limit n s).state? = some s') : s.Goes s' := by
  induction n generalizing s s' with
  | zero => cases h
  | succ n ih =>
    refine goes_nested (fun t ht => ?_) h
    have hx : anyRun.Inside () (s.enter .expression) fun _ => expression limit n :=
      fun t _ => ⟨trivial, .refl t, fun _ => ih⟩
    exact (hereditary_anyRun.assignment (loops_anyRun fun _ => n) hx (.refl _)).goes t ht

/-- the same of a conditional, which takes a token whenever it can be read -/
theorem conditional_goes (limits : Limits) (n : Nat) {s : State}
    (hk : s.current.kind ≠ .endOfFile) :
    (∀ s', (conditional limits n s).state? = some s' → s.Goes s') ∧
      ∀ a s', conditional limits n s = .done a s' → s.GoesOn s' := by
  induction n generalizing s with
  | zero => exact ⟨fun _ h => by (cases h), fun _ _ h => by (cases h)⟩
  | succ n ih =>
    have hx : anyRun.Inside () (s.enter .conditional) fun _ => expression limits.expressions n :=
      fun t _ => ⟨trivial, .refl t, fun _ => expression_goes⟩
    have hc : anyRun.InsideIf () (s.enter .conditional) fun _ => conditional limits n :=
      fun t _ ht => ⟨⟨trivial, .refl t, (ih (by simp [ht])).1⟩, (ih (by simp [ht])).2⟩
    have hbody := hereditary_anyRun.conditionalBody (loops_anyRun fun _ => n) hx hc
      (by rwa [enter_current])
    refine ⟨fun s' => goes_nested hbody.weaken.goes, fun a s' h => ?_⟩
    obtain ⟨-, t, ht, rfl⟩ := nested_done.1 h
    have htakes := (hbody.takes (by rwa [enter_current])).takes a t ht
    exact ⟨htakes.toGoes.leave, by simpa using htakes.fewer⟩

/-- as every run goes forward, only the property is to be shown of expressions -/
theorem RunProperty.holds_expression {limit : Option Nat} {m : Nat}
    (ho : inner o = expression limit m) (h : R Expr s inner) : R.Holds o s s inner :=
  ⟨h, .refl s, fun _ hs => expression_goes (by rwa [ho] at hs)⟩

theorem RunProperty.takes_conditional {limits : Limits} {m : Nat}
    (ho : cond o = conditional limits m) (hk : s.current.kind = .keyword .ifWord)
    (h : R Stmt s cond) : R.Takes o s cond := by
  obtain ⟨hgoes, htakes⟩ := conditional_goes limits m (s := s) (by simp [hk])
  rw [← ho] at hgoes htakes
  exact ⟨⟨h, .refl s, hgoes⟩, htakes⟩

end Wattle.Parser
