import Wattle.Proofs.Fragment
import Wattle.Proofs.Parser.Constructs

/-!
# What a reading depends on

A part of a program is read in the same way if other tokens stand behind it, and if more functions
are known than before, as long as it calls none of them (`Reads.framed`).  A `ReadingFrame` is what
may differ: the tokens behind the part, and the functions that are known besides.  Nothing is said
of the token read last, which no reading looks at while there are tokens left.
-/

namespace Wattle

open Wattle.Parser State

/-! ### calls -/

namespace Expr

def callees (e : Expr) : List String := e.parts.filterMap callee?

@[simp] theorem callees_number (value : Double) (type : DataType) (span : Span) :
    (number value type span).callees = [] := rfl

@[simp] theorem callees_var (name : String) (type : DataType) (span : Span) :
    (var name type span).callees = [] := rfl

@[simp] theorem callees_neg (operand : Expr) (type : DataType) (span : Span) :
    (neg operand type span).callees = operand.callees := rfl

@[simp] theorem callees_binary (op : BinaryOp) (left right : Expr) (type : DataType)
    (span : Span) :
    (binary op left right type span).callees = left.callees ++ right.callees := by
  simp [callees, parts, List.filterMap_cons, callee?]

@[simp] theorem callees_assign (target : Ident) (value : Expr) (type : DataType) (span : Span) :
    (assign target value type span).callees = value.callees := rfl

@[simp] theorem callees_call (callee : Ident) (args : List Expr) (type : DataType) (span : Span) :
    (call callee args type span).callees = callee.name :: args.flatMap callees := by
  simp only [callees, parts, argsParts_eq_flatMap, List.filterMap_cons, callee?,
    List.filterMap_flatMap]
  rfl

@[simp] theorem callees_withSpan (e : Expr) (span : Span) :
    (e.withSpan span).callees = e.callees := by
  cases e <;> simp [withSpan]

end Expr

namespace Stmt

def callees (s : Stmt) : List String := s.nested.flatMap fun s => s.expr.callees

@[simp] theorem callees_declaration (kind : VarKind) (name : Ident) (type : DataType) (e : Expr)
    (span : Span) : (declaration kind name type e isConst span).callees = e.callees := by
  simp [callees, nested, expr]

@[simp] theorem callees_ret (e : Expr) (span : Span) : (ret e span).callees = e.callees := by
  simp [callees, nested, expr]

@[simp] theorem callees_conditional (e : Expr) (ss : List Stmt) (alternate : Option (List Stmt))
    (span : Span) : (conditional e ss alternate span).callees =
      e.callees ++ (ss.flatMap callees ++ (alternate.getD []).flatMap callees) := by
  simp only [callees, nested, branchNested_eq_flatMap, alternateNested_eq_flatMap,
    List.flatMap_cons, List.flatMap_append, List.flatMap_assoc, expr]
  rfl

@[simp] theorem callees_expression (e : Expr) (span : Span) :
    (expression e span).callees = e.callees := by
  simp [callees, nested, expr]

end Stmt

theorem FunctionDecl.callees_eq (f : FunctionDecl) : f.callees = f.body.flatMap Stmt.callees := by
  simp only [callees, parts, nested, List.filterMap_flatMap, List.flatMap_assoc]
  rfl

/-- the names that the calls in a part of a program name -/
@[simp] def Nonterminal.callees : (n : Nonterminal) → n.Value → List String
  | expr _, e => Expr.callees e
  | param, _ => []
  | row n, as | items n, as => List.flatMap n.callees as
  | statement, s | conditional, s => Stmt.callees s
  | statements, ss => List.flatMap Stmt.callees ss
  | block, b | alternate, b => List.flatMap Stmt.callees b.1
  | function, f => FunctionDecl.callees f
  | functions, fs => List.flatMap FunctionDecl.callees fs

/-! ### frames -/

/-- what may differ around a part of a program: behind it, `new` stands in place of `old`, and
functions are known that were not -/
structure ReadingFrame where
  old : List Token
  new : List Token
  known : Signatures
  left : old ≠ []

/-- `t` is `s` but for what the frame allows -/
structure ReadingFrame.Relates (F : ReadingFrame) (s t : State) : Prop where
  rest : ∃ ts, s.rest = ts ++ F.old ∧ t.rest = ts ++ F.new
  scope : t.scope.lookup = s.scope.lookup
  functions : ∀ name, t.functions.get? name = (s.functions.get? name).or (F.known name)
  depth : ∀ nesting, t.depth nesting = s.depth nesting

/-- a state with tokens left in front of those that the frame swaps -/
def ReadingFrame.Inside (F : ReadingFrame) (s : State) : Prop := F.old.length < s.rest.length

namespace ReadingFrame.Inside

variable {F : ReadingFrame} {limits : Limits} {n : Nonterminal} {a : n.Value} {s s' : State}

theorem of_advance (h : F.old.length ≤ s.advance.rest.length) : F.Inside s := by
  have hpos := List.length_pos_iff.2 F.left
  rw [advance_rest, List.length_tail] at h
  unfold Inside
  omega

theorem of_reads (h : Reads limits n s a s') (hs : F.Inside s') : F.Inside s :=
  Nat.lt_of_lt_of_le hs h.length_le

theorem of_reads_advance (h : Reads limits n s.advance a s') (hs : F.old.length ≤ s'.rest.length) :
    F.Inside s :=
  of_advance (Nat.le_trans hs h.length_le)

theorem le (h : F.Inside s) : F.old.length ≤ s.rest.length := Nat.le_of_lt h

end ReadingFrame.Inside

namespace ReadingFrame.Relates

variable {F : ReadingFrame} {s s₁ t : State}

/-! ### the cursor -/

theorem exists_cons (h : F.Relates s t) (hs : F.Inside s) :
    ∃ token ts, s.rest = token :: (ts ++ F.old) ∧ t.rest = token :: (ts ++ F.new) := by
  obtain ⟨ts, hrest, hrest'⟩ := h.rest
  cases ts with
  | nil => exact absurd (congrArg List.length hrest) (Nat.ne_of_gt hs)
  | cons token ts => exact ⟨token, ts, hrest, hrest'⟩

theorem current (h : F.Relates s t) (hs : F.Inside s) : t.current = s.current := by
  obtain ⟨token, ts, hrest, hrest'⟩ := h.exists_cons hs
  simp [State.current, hrest, hrest']

theorem sees (h : F.Relates s t) (hs : F.Inside s) (kind : TokenKind) :
    t.sees kind = s.sees kind := by
  obtain ⟨token, ts, hrest, hrest'⟩ := h.exists_cons hs
  simp [State.sees, hrest, hrest']

theorem advance (h : F.Relates s t) (hs : F.Inside s) : F.Relates s.advance t.advance := by
  obtain ⟨token, ts, hrest, hrest'⟩ := h.exists_cons hs
  exact ⟨⟨ts, by simp [hrest], by simp [hrest']⟩, by simpa using h.scope,
    by simpa using h.functions, by simpa using h.depth⟩

/-! ### names and nesting -/

theorem withScope {scope scope' : Scope} (h : F.Relates s t)
    (hscope : scope'.lookup = scope.lookup) :
    F.Relates (s.withScope scope) (t.withScope scope') :=
  ⟨h.rest, hscope, h.functions, by simpa using h.depth⟩

theorem declare (h : F.Relates s t) (name : String) (type : DataType) :
    F.Relates (s.withScope (s.scope.declare name type))
      (t.withScope (t.scope.declare name type)) := by
  refine h.withScope (funext fun x => ?_)
  rw [Scope.lookup_declare, Scope.lookup_declare, h.scope]

theorem register (h : F.Relates s t) (name : String) (signature : Signature) :
    F.Relates (s.withFunctions (s.functions.register name signature))
      (t.withFunctions (t.functions.register name signature)) := by
  refine ⟨h.rest, h.scope, fun x => ?_, by simpa using h.depth⟩
  simp only [withFunctions_functions, FunctionTable.get?_register, h.functions]
  split <;> rfl

theorem signature (h : F.Relates s t) {name : String} (hname : F.known name = none) :
    t.functions.get? name = s.functions.get? name := by
  rw [h.functions, hname, Option.or_none]

theorem admits (h : F.Relates s t) {nesting : Nesting} {limit : Option Nat}
    (hs : s.Admits nesting limit) : t.Admits nesting limit := by
  intro n hn
  rw [h.depth]
  exact hs n hn

theorem enter (h : F.Relates s t) (nesting : Nesting) :
    F.Relates (s.enter nesting) (t.enter nesting) :=
  ⟨by simpa using h.rest, by simpa using h.scope, by simpa using h.functions,
    fun other => by simp [h.depth]⟩

theorem leave (h : F.Relates s t) (nesting : Nesting) :
    F.Relates (s.leave nesting) (t.leave nesting) :=
  ⟨by simpa using h.rest, by simpa using h.scope, by simpa using h.functions,
    fun other => by simp [h.depth]⟩

theorem writtenType {written : Option DataType} (h : F.Relates s t)
    (hw : writtenType s = .done written s₁) (hs₁ : F.Inside s₁) :
    ∃ t₁, Parser.writtenType t = .done written t₁ ∧ F.Relates s₁ t₁ := by
  have hs : F.Inside s := Nat.lt_of_lt_of_le hs₁ (length_of_writtenType hw)
  have hsees := h.sees hs (.symbol .colon)
  obtain ⟨hc, rfl, rfl⟩ | ⟨hc, type, rfl, hk, rfl⟩ := writtenType_done.1 hw
  · exact ⟨t, writtenType_done.2 (.inl ⟨hsees.trans hc, rfl, rfl⟩), h⟩
  · have hs₀ := Inside.of_advance hs₁.le
    have h₀ := h.advance hs
    rw [← h₀.current hs₀] at hk
    exact ⟨_, writtenType_done.2 (.inr ⟨hsees.trans hc, type, rfl, hk, rfl⟩), h₀.advance hs₀⟩

end ReadingFrame.Relates

/-! ### readings in a frame -/

/-- what has been read is read in the same way in a frame, from some state to another -/
def Framed (F : ReadingFrame) (limits : Limits) (n : Nonterminal) (s : State) (a : n.Value)
    (s' : State) : Prop :=
  ∀ ⦃t⦄, F.Relates s t → F.old.length ≤ s'.rest.length →
    (∀ name ∈ n.callees a, F.known name = none) → ∃ t', Reads limits n t a t' ∧ F.Relates s' t'

namespace Framed

open ReadingFrame ReadingFrame.Inside

section
variable {F : ReadingFrame} {limits : Limits} {n : Nonterminal} {s s' s₁ s₂ : State}
  {e left right value : Expr} {type : DataType} {l : Chain}

/-! ### expressions -/

theorem call {callee : Ident} {args : List Expr}
    (hk : s.current = ⟨.identifier callee.name, callee.span⟩)
    (ho : s.advance.sees (.symbol .leftParen) = true)
    (hread : Reads limits (.items (.expr .expression)) s.advance.advance args s')
    (h : Framed F limits (.items (.expr .expression)) s.advance.advance args s')
    (hc : s'.sees (.symbol .rightParen) = true)
    (ht : Signature.callType (s'.advance.functions.get? callee.name) callee args = .ok type) :
    Framed F limits (.expr .primary) s
      (Expr.call callee args type (callee.span.merge s'.current.span)) s'.advance := by
  intro t hst hleft hcalls
  simp only [Nonterminal.callees, Expr.callees_call, List.forall_mem_cons] at hcalls
  have hs' := of_advance hleft
  have hs₁ := of_reads_advance hread hs'.le
  have hs := of_advance hs₁.le
  have hst₁ := hst.advance hs
  obtain ⟨t', hread, hst'⟩ := h (hst₁.advance hs₁) hs'.le hcalls.2
  rw [← hst.current hs] at hk
  rw [← hst₁.sees hs₁] at ho
  rw [← hst'.sees hs'] at hc
  rw [← (hst'.advance hs').signature hcalls.1] at ht
  rw [← hst'.current hs']
  exact ⟨_, .call hk ho hread hc ht, hst'.advance hs'⟩

theorem group (hk : s.current.kind = .symbol .leftParen)
    (hread : Reads limits (.expr .expression) s.advance e s')
    (h : Framed F limits (.expr .expression) s.advance e s')
    (hc : s'.sees (.symbol .rightParen) = true) :
    Framed F limits (.expr .primary) s (e.withSpan (s.current.span.merge s'.current.span))
      s'.advance := by
  intro t hst hleft hcalls
  simp only [Nonterminal.callees, Expr.callees_withSpan] at hcalls
  have hs' := of_advance hleft
  have hs := of_reads_advance hread hs'.le
  obtain ⟨t', hread, hst'⟩ := h (hst.advance hs) hs'.le hcalls
  rw [← hst.current hs] at hk
  rw [← hst'.sees hs'] at hc
  rw [← hst.current hs, ← hst'.current hs']
  exact ⟨_, .group hk hread hc, hst'.advance hs'⟩

theorem neg (hm : s.sees (.symbol .minus) = true)
    (hread : Reads limits (.expr .primary) s.advance e s')
    (h : Framed F limits (.expr .primary) s.advance e s') :
    Framed F limits (.expr .unary) s (Expr.neg e e.type (s.current.span.merge e.span)) s' := by
  intro t hst hleft hcalls
  have hs := of_reads_advance hread hleft
  obtain ⟨t', hread, hst'⟩ := h (hst.advance hs) hleft hcalls
  rw [← hst.sees hs] at hm
  rw [← hst.current hs]
  exact ⟨t', .neg hm hread, hst'⟩

theorem binary {op : BinaryOp} (hop : op.chain = l)
    (h : Framed F limits (.expr (.chain l)) s left s₁)
    (hk : s₁.current.kind = .symbol op.symbol)
    (hread : Reads limits (.expr l.operand) s₁.advance right s')
    (h' : Framed F limits (.expr l.operand) s₁.advance right s')
    (he : l.build op s₁.current.span left right = .ok e) :
    Framed F limits (.expr (.chain l)) s e s' := by
  intro t hst hleft hcalls
  obtain ⟨type, rfl⟩ := Chain.of_build he
  simp only [Nonterminal.callees, Expr.callees_binary, List.forall_mem_append] at hcalls
  have hs₁ := of_reads_advance hread hleft
  obtain ⟨t₁, hread, hst₁⟩ := h hst hs₁.le hcalls.1
  obtain ⟨t', hread', hst'⟩ := h' (hst₁.advance hs₁) hleft hcalls.2
  rw [← hst₁.current hs₁] at hk he
  exact ⟨t', .binary hop hread hk hread' he, hst'⟩

theorem assign {name : String} {span : Span} (hg : s.sees (.symbol .leftParen) = false)
    (hread : Reads limits (.expr (.chain .comparison)) s (Expr.var name type span) s₁)
    (h : Framed F limits (.expr (.chain .comparison)) s (Expr.var name type span) s₁)
    (ha : s₁.sees (.symbol .assign) = true)
    (hread' : Reads limits (.expr .expression) s₁.advance value s')
    (h' : Framed F limits (.expr .expression) s₁.advance value s') (htype : value.type = type) :
    Framed F limits (.expr .assignment) s
      (Expr.assign ⟨name, span⟩ value type (span.merge value.span)) s' := by
  intro t hst hleft hcalls
  have hs₁ := of_reads_advance hread' hleft
  have hs := of_reads hread hs₁
  obtain ⟨t₁, hread, hst₁⟩ := h hst hs₁.le (by simp [Nonterminal.callees])
  obtain ⟨t', hread', hst'⟩ := h' (hst₁.advance hs₁) hleft hcalls
  rw [← hst.sees hs] at hg
  rw [← hst₁.sees hs₁] at ha
  exact ⟨t', .assign hg hread ha hread' htype, hst'⟩

/-! ### rows -/

theorem cons {a : n.Value} {as : List n.Value} (h : Framed F limits n s a s₁)
    (hc : s₁.sees (.symbol .comma) = true) (hread : Reads limits (.row n) s₁.advance as s')
    (hs : Framed F limits (.row n) s₁.advance as s') :
    Framed F limits (.row n) s (a :: as) s' := by
  intro t hst hleft hcalls
  simp only [Nonterminal.callees, List.flatMap_cons, List.forall_mem_append] at hcalls
  have hs₁ := of_reads_advance hread hleft
  obtain ⟨t₁, hread, hst₁⟩ := h hst hs₁.le hcalls.1
  obtain ⟨t', hreads, hst'⟩ := hs (hst₁.advance hs₁) hleft hcalls.2
  rw [← hst₁.sees hs₁] at hc
  exact ⟨t', .cons hread hc hreads, hst'⟩

/-! ### statements -/

theorem declaration {kind : VarKind} {written : Option DataType} {init : Expr} {name : Ident}
    (hk : s.current.kind = .keyword kind.keyword)
    (hname : s.advance.current = ⟨.identifier name.name, name.span⟩)
    (hnew : s.scope.lookup name.name = none)
    (hnote : writtenType s.advance.advance = .done written s₁)
    (ha : s₁.sees (.symbol .assign) = true)
    (hread : Reads limits (.expr .expression) s₁.advance init s₂)
    (h : Framed F limits (.expr .expression) s₁.advance init s₂)
    (ht : declaredType name.name written init = .ok type)
    (hsemi : s₂.sees (.symbol .semicolon) = true) :
    Framed F limits .statement s
      (Stmt.declaration kind name type init kind.isConst (s.current.span.merge s₂.current.span))
      (s₂.advance.withScope (s₂.scope.declare name.name type)) := by
  intro t hst hleft hcalls
  simp only [Nonterminal.callees, Stmt.callees_declaration] at hcalls
  have hs₂ := of_advance hleft
  have hs₁ := of_reads_advance hread hs₂.le
  have hs₀ := of_advance (Nat.le_trans hs₁.le (length_of_writtenType hnote))
  have hs := of_advance hs₀.le
  have hst₀ := hst.advance hs
  obtain ⟨t₁, hnote, hst₁⟩ := (hst₀.advance hs₀).writtenType hnote hs₁
  obtain ⟨t₂, hread, hst₂⟩ := h (hst₁.advance hs₁) hs₂.le hcalls
  rw [← hst.current hs] at hk
  rw [← hst₀.current hs₀] at hname
  rw [← hst.scope] at hnew
  rw [← hst₁.sees hs₁] at ha
  rw [← hst₂.sees hs₂] at hsemi
  rw [← hst.current hs, ← hst₂.current hs₂]
  refine ⟨_, .declaration hk hname hnew hnote ha hread ht hsemi, ?_⟩
  rw [← advance_scope s₂, ← advance_scope t₂]
  exact (hst₂.advance hs₂).declare ..

theorem ret (hk : s.current.kind = .keyword .returnWord)
    (hread : Reads limits (.expr .expression) s.advance e s')
    (h : Framed F limits (.expr .expression) s.advance e s')
    (hsemi : s'.sees (.symbol .semicolon) = true) :
    Framed F limits .statement s (Stmt.ret e (s.current.span.merge s'.current.span))
      s'.advance := by
  intro t hst hleft hcalls
  simp only [Nonterminal.callees, Stmt.callees_ret] at hcalls
  have hs' := of_advance hleft
  have hs := of_reads_advance hread hs'.le
  obtain ⟨t', hread, hst'⟩ := h (hst.advance hs) hs'.le hcalls
  rw [← hst.current hs] at hk
  rw [← hst'.sees hs'] at hsemi
  rw [← hst.current hs, ← hst'.current hs']
  exact ⟨_, .ret hk hread hsemi, hst'.advance hs'⟩

theorem expressionStmt (h : Framed F limits (.expr .expression) s e s')
    (hsemi : s'.sees (.symbol .semicolon) = true) :
    Framed F limits .statement s (Stmt.expression e (e.span.merge s'.current.span))
      s'.advance := by
  intro t hst hleft hcalls
  simp only [Nonterminal.callees, Stmt.callees_expression] at hcalls
  have hs' := of_advance hleft
  obtain ⟨t', hread, hst'⟩ := h hst hs'.le hcalls
  rw [← hst'.sees hs'] at hsemi
  rw [← hst'.current hs']
  exact ⟨_, .expressionStmt hread hsemi, hst'.advance hs'⟩

theorem moreStatements {a : Stmt} {as : List Stmt} (h : Framed F limits .statement s a s₁)
    (hreads : Reads limits .statements s₁ as s') (hs : Framed F limits .statements s₁ as s') :
    Framed F limits .statements s (a :: as) s' := by
  intro t hst hleft hcalls
  simp only [Nonterminal.callees, List.flatMap_cons, List.forall_mem_append] at hcalls
  obtain ⟨t₁, hread, hst₁⟩ := h hst (Nat.le_trans hleft hreads.length_le) hcalls.1
  obtain ⟨t', hreads, hst'⟩ := hs hst₁ hleft hcalls.2
  exact ⟨t', .moreStatements hread hreads, hst'⟩

theorem block {ss : List Stmt} (ho : s.sees (.symbol .leftBrace) = true)
    (hread : Reads limits .statements s.advance ss s')
    (h : Framed F limits .statements s.advance ss s')
    (hc : s'.sees (.symbol .rightBrace) = true) :
    Framed F limits .block s (ss, s.current.span.merge s'.current.span) s'.advance := by
  intro t hst hleft hcalls
  have hs' := of_advance hleft
  have hs := of_reads_advance hread hs'.le
  obtain ⟨t', hread, hst'⟩ := h (hst.advance hs) hs'.le hcalls
  rw [← hst.sees hs] at ho
  rw [← hst'.sees hs'] at hc
  rw [← hst.current hs, ← hst'.current hs']
  exact ⟨_, .block ho hread hc, hst'.advance hs'⟩

/-! ### conditionals -/

/-- the head of a conditional, up to its first branch -/
theorem head (ho : (s.enter .conditional).advance.sees (.symbol .leftParen) = true)
    (hread : Reads limits (.expr .expression) (s.enter .conditional).advance.advance e s₁)
    (h : Framed F limits (.expr .expression) (s.enter .conditional).advance.advance e s₁)
    (hc : s₁.sees (.symbol .rightParen) = true) {t : State} (hst : F.Relates s t)
    (hs₁ : F.Inside s₁) (hcalls : ∀ name ∈ e.callees, F.known name = none) :
    t.current = s.current ∧ (t.enter .conditional).advance.sees (.symbol .leftParen) = true ∧
      ∃ t₁, Reads limits (.expr .expression) (t.enter .conditional).advance.advance e t₁ ∧
        t₁.sees (.symbol .rightParen) = true ∧ F.Relates s₁.advance t₁.advance := by
  have hopen := of_reads_advance hread hs₁.le
  have hs := of_advance hopen.le
  have hst₀ := (hst.enter .conditional).advance hs
  obtain ⟨t₁, hread, hst₁⟩ := h (hst₀.advance hopen) hs₁.le hcalls
  have hcurrent := (hst.enter .conditional).current hs
  rw [enter_current, enter_current] at hcurrent
  exact ⟨hcurrent, (hst₀.sees hopen _).trans ho, t₁, hread, (hst₁.sees hs₁ _).trans hc,
    hst₁.advance hs₁⟩

theorem conditional {ss : List Stmt} {stop : Span} (hd : s.Admits .conditional limits.conditionals)
    (hk : s.current.kind = .keyword .ifWord)
    (ho : (s.enter .conditional).advance.sees (.symbol .leftParen) = true)
    (hread : Reads limits (.expr .expression) (s.enter .conditional).advance.advance e s₁)
    (h : Framed F limits (.expr .expression) (s.enter .conditional).advance.advance e s₁)
    (hc : s₁.sees (.symbol .rightParen) = true) (ht : e.type = .int)
    (hblock : Reads limits .block s₁.advance (ss, stop) s')
    (hb : Framed F limits .block s₁.advance (ss, stop) s') :
    Framed F limits .conditional s (Stmt.conditional e ss none (s.current.span.merge stop))
      (s'.leave .conditional) := by
  intro t hst hleft hcalls
  rw [leave_rest] at hleft
  simp only [Nonterminal.callees, Stmt.callees_conditional, List.forall_mem_append] at hcalls
  have hs₁ := of_reads_advance hblock hleft
  obtain ⟨hcurrent, ho, t₁, hread, hc, hst₁⟩ := head ho hread h hc hst hs₁ hcalls.1
  obtain ⟨t', hblock, hst'⟩ := hb hst₁ hleft hcalls.2.1
  rw [← hcurrent] at hk ⊢
  exact ⟨_, .conditional (hst.admits hd) hk ho hread hc ht hblock, hst'.leave _⟩

theorem conditionalElse {ss ss' : List Stmt} {stop stop' : Span}
    (hd : s.Admits .conditional limits.conditionals) (hk : s.current.kind = .keyword .ifWord)
    (ho : (s.enter .conditional).advance.sees (.symbol .leftParen) = true)
    (hread : Reads limits (.expr .expression) (s.enter .conditional).advance.advance e s₁)
    (h : Framed F limits (.expr .expression) (s.enter .conditional).advance.advance e s₁)
    (hc : s₁.sees (.symbol .rightParen) = true) (ht : e.type = .int)
    (hblock : Reads limits .block s₁.advance (ss, stop) s₂)
    (hb : Framed F limits .block s₁.advance (ss, stop) s₂)
    (he : s₂.sees (.keyword .elseWord) = true)
    (hother : Reads limits .alternate s₂.advance (ss', stop') s')
    (ha : Framed F limits .alternate s₂.advance (ss', stop') s') :
    Framed F limits .conditional s
      (Stmt.conditional e ss (some ss') ((s.current.span.merge stop).merge stop'))
      (s'.leave .conditional) := by
  intro t hst hleft hcalls
  rw [leave_rest] at hleft
  simp only [Nonterminal.callees, Stmt.callees_conditional, List.forall_mem_append] at hcalls
  have hs₂ := of_reads_advance hother hleft
  have hs₁ := of_reads_advance hblock hs₂.le
  obtain ⟨hcurrent, ho, t₁, hread, hc, hst₁⟩ := head ho hread h hc hst hs₁ hcalls.1
  obtain ⟨t₂, hblock, hst₂⟩ := hb hst₁ hs₂.le hcalls.2.1
  obtain ⟨t', hother, hst'⟩ := ha (hst₂.advance hs₂) hleft hcalls.2.2
  rw [← hst₂.sees hs₂] at he
  rw [← hcurrent] at hk ⊢
  exact ⟨_, .conditionalElse (hst.admits hd) hk ho hread hc ht hblock he hother, hst'.leave _⟩

/-! ### functions -/

theorem param {b : Binding} (hname : s.current = ⟨.identifier b.name.name, b.name.span⟩)
    (hc : s.advance.sees (.symbol .colon) = true)
    (ht : s.advance.advance.current.kind = .keyword b.type.keyword) :
    Framed F limits .param s b s.advance.advance.advance := by
  intro t hst hleft _
  have hs₂ := of_advance hleft
  have hs₁ := of_advance hs₂.le
  have hs := of_advance hs₁.le
  have hst₁ := hst.advance hs
  have hst₂ := hst₁.advance hs₁
  rw [← hst.current hs] at hname
  rw [← hst₁.sees hs₁] at hc
  rw [← hst₂.current hs₂] at ht
  exact ⟨_, .param hname hc ht, hst₂.advance hs₂⟩

theorem function {name : Ident} {params : List Binding} {result : DataType} {scope : Scope}
    {body : List Stmt} {stop : Span} {f : FunctionDecl}
    (hk : s.sees (.keyword .functionWord) = true)
    (hname : s.advance.current = ⟨.identifier name.name, name.span⟩)
    (ho : s.advance.advance.sees (.symbol .leftParen) = true)
    (hread : Reads limits (.items .param) s.advance.advance.advance params s₁)
    (hp : Framed F limits (.items .param) s.advance.advance.advance params s₁)
    (hc : s₁.sees (.symbol .rightParen) = true) (hm : s₁.advance.sees (.symbol .colon) = true)
    (ht : s₁.advance.advance.current.kind = .keyword result.keyword)
    (hscope : paramScope params = .ok scope)
    (hblock : Reads limits .block (s₁.advance.advance.advance.withScope scope) (body, stop) s')
    (hb : Framed F limits .block (s₁.advance.advance.advance.withScope scope) (body, stop) s')
    (hf : f = ⟨name, params, body.filterMap Stmt.binding?, result, body,
      s.current.span.merge stop⟩) :
    Framed F limits .function s f
      ((s'.withScope s₁.scope).withFunctions (s'.functions.register f.name.name f.signature)) := by
  intro t hst hleft hcalls
  have hbody : ∀ name ∈ body.flatMap Stmt.callees, F.known name = none := by
    simpa only [Nonterminal.callees, FunctionDecl.callees_eq, hf] using hcalls
  -- back from the body to the first token
  have hs₄ := of_advance (Nat.le_trans hleft hblock.length_le)
  have hs₃ := of_advance hs₄.le
  have hs₂ := of_advance hs₃.le
  have hs₁ := of_reads_advance hread hs₂.le
  have hs₀ := of_advance hs₁.le
  have hs := of_advance hs₀.le
  have hst₀ := hst.advance hs
  have hst₁ := hst₀.advance hs₀
  obtain ⟨t₁, hread, hst₂⟩ := hp (hst₁.advance hs₁) hs₂.le (by simp [Nonterminal.callees])
  have hst₃ := hst₂.advance hs₂
  have hst₄ := hst₃.advance hs₃
  obtain ⟨t', hblock, hst'⟩ := hb ((hst₄.advance hs₄).withScope rfl) hleft hbody
  rw [← hst.sees hs] at hk
  rw [← hst₀.current hs₀] at hname
  rw [← hst₁.sees hs₁] at ho
  rw [← hst₂.sees hs₂] at hc
  rw [← hst₃.sees hs₃] at hm
  rw [← hst₄.current hs₄] at ht
  rw [← hst.current hs] at hf
  exact ⟨_, .function hk hname ho hread hc hm ht hscope hblock hf,
    (hst'.withScope hst₂.scope).register f.name.name f.signature⟩

theorem moreFunctions {f : FunctionDecl} {fs : List FunctionDecl}
    (h : Framed F limits .function s f s₁) (hreads : Reads limits .functions s₁ fs s')
    (hs : Framed F limits .functions s₁ fs s') :
    Framed F limits .functions s (f :: fs) s' := by
  intro t hst hleft hcalls
  simp only [Nonterminal.callees, List.flatMap_cons, List.forall_mem_append] at hcalls
  obtain ⟨t₁, hread, hst₁⟩ := h hst (Nat.le_trans hleft hreads.length_le) hcalls.1
  obtain ⟨t', hreads, hst'⟩ := hs hst₁ hleft hcalls.2
  exact ⟨t', .moreFunctions hread hreads, hst'⟩

end

end Framed

/-- **A reading depends on its own tokens and on the functions that it calls**, and on nothing else
that is around it. -/
theorem Reads.framed {F : ReadingFrame} {limits : Limits} {n : Nonterminal} {s s' : State}
    {a : n.Value} (h : Reads limits n s a s') : Framed F limits n s a s' := by
  induction h with
  | number hk he =>
    intro t hst hleft _
    have hs := ReadingFrame.Inside.of_advance hleft
    rw [← hst.current hs] at hk he
    exact ⟨_, .number hk he, hst.advance hs⟩
  | var hk hv =>
    intro t hst hleft _
    have hs := ReadingFrame.Inside.of_advance hleft
    rw [← hst.current hs] at hk ⊢
    rw [← hst.scope] at hv
    exact ⟨_, .var hk hv, hst.advance hs⟩
  | call hk ho h hc ht ih => exact .call hk ho h ih hc ht
  | group hk h hc ih => exact .group hk h ih hc
  | neg hm h ih => exact .neg hm h ih
  | binary hop _ hk h he ih ih' => exact .binary hop ih hk h ih' he
  | assign hg h ha h' htype ih ih' => exact .assign hg h ih ha h' ih' htype
  | expression hd _ ih =>
    intro t hst hleft hcalls
    rw [leave_rest] at hleft
    obtain ⟨t', hread, hst'⟩ := ih (hst.enter _) hleft hcalls
    exact ⟨_, .expression (hst.admits hd) hread, hst'.leave _⟩
  | cons _ hc h ih ihs => exact .cons ih hc h ihs
  | declaration hk hname hnew hnote ha h ht hsemi ih =>
    exact .declaration hk hname hnew hnote ha h ih ht hsemi
  | ret hk h hsemi ih => exact .ret hk h ih hsemi
  | expressionStmt _ hsemi ih => exact .expressionStmt ih hsemi
  | moreStatements _ h ih ihs => exact .moreStatements ih h ihs
  | block ho h hc ih => exact .block ho h ih hc
  | conditional hd hk ho h hc ht hb ih ihb => exact .conditional hd hk ho h ih hc ht hb ihb
  | conditionalElse hd hk ho h hc ht hb he ha ih ihb iha =>
    exact .conditionalElse hd hk ho h ih hc ht hb ihb he ha iha
  | param hname hc ht => exact .param hname hc ht
  | function hk hname ho hp hc hm ht hscope hb hf ihp ihb =>
    exact .function hk hname ho hp ihp hc hm ht hscope hb ihb hf
  | moreFunctions _ h ih ihs => exact .moreFunctions ih h ihs
  -- nothing is read
  | noItems => exact fun t hst _ _ => ⟨t, .noItems, hst⟩
  | noStatements => exact fun t hst _ _ => ⟨t, .noStatements, hst⟩
  | noFunctions => exact fun t hst _ _ => ⟨t, .noFunctions, hst⟩
  -- the part is read as one of another kind
  | unsigned _ ih | operand _ ih | unassigned _ ih | branching _ ih | elseBlock _ ih
  | someItems _ ih =>
    intro t hst hleft hcalls
    obtain ⟨t', hread, hst'⟩ := ih hst hleft hcalls
    exact ⟨t', by constructor; exact hread, hst'⟩
  | single _ ih =>
    intro t hst hleft hcalls
    obtain ⟨t', hread, hst'⟩ := ih hst hleft (by simpa [Nonterminal.callees] using hcalls)
    exact ⟨t', .single hread, hst'⟩
  | elseIf _ ih =>
    intro t hst hleft hcalls
    obtain ⟨t', hread, hst'⟩ := ih hst hleft (by simpa [Nonterminal.callees] using hcalls)
    exact ⟨t', .elseIf hread, hst'⟩

end Wattle
