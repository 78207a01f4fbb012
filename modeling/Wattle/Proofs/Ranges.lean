import Wattle.Proofs.Grammar
import Wattle.Proofs.Parts
import Wattle.Proofs.Token.Positions

/-!
# Rows of tokens and their spans

The tokens of a file stand one behind the other (`Ascending`), so that a row of them has a span from
the start of its first token to the end of its last one (`Span.Covers`).  `Located n ts a` says that
`a` is a part of a tree that stands for the row `ts`, and that the span of each node is the one of
the row that this node stands for.  The constructors are the productions of `Derives`, on tokens in
place of kinds.

* `Span.Covers.merge`    the span over the ends of a row is the span of the row;
* `Tiles.holds`          spans of parts of a row lie inside the span of the row, one behind the
                         other;
* `Located.ordered`      so do the children of every node.
-/

namespace Wattle

/-! ### rows -/

/-- tokens that stand one behind the other -/
structure Ascending (ts : List Token) : Prop where
  spans : ∀ t ∈ ts, t.span.first ≤ t.span.last
  pairwise : ts.Pairwise fun t u => t.span.last < u.span.first

/-- from the start of the first token of a row to the end of its last one -/
def Span.Covers (span : Span) (ts : List Token) : Prop :=
  ∃ t u, ts.head? = some t ∧ ts.getLast? = some u ∧ span = ⟨t.span.first, u.span.last⟩

namespace Position

variable {p q : Position}

theorem le_of_lt (h : p < q) : p ≤ q := by
  rw [lt_iff] at h
  rw [le_iff]
  omega

theorem min_eq_left (h : p ≤ q) : min p q = p := by rw [min_def, if_pos h]
theorem max_eq_right (h : p ≤ q) : max p q = q := by rw [max_def, if_pos h]

end Position

theorem Span.merge_self (s : Span) : s.merge s = s := by
  rw [merge, Position.min_eq_left (Position.le_refl _), Position.max_eq_right (Position.le_refl _)]

namespace Ascending

variable {ts us : List Token} {t u : Token}

theorem sublist (h : Ascending us) (hs : ts.Sublist us) : Ascending ts :=
  ⟨fun t ht => h.spans t (hs.subset ht), h.pairwise.sublist hs⟩

theorem left (h : Ascending (ts ++ us)) : Ascending ts := h.sublist (List.sublist_append_left ..)
theorem right (h : Ascending (ts ++ us)) : Ascending us := h.sublist (List.sublist_append_right ..)
theorem tail (h : Ascending (t :: ts)) : Ascending ts := h.sublist (List.sublist_cons_self ..)

theorem first_le (h : Ascending ts) (ht : ts.head? = some t) (hu : u ∈ ts) :
    t.span.first ≤ u.span.first := by
  obtain ⟨ts, rfl⟩ := List.head?_eq_some_iff.1 ht
  obtain rfl | hu := List.mem_cons.1 hu
  · exact Position.le_refl _
  · have hlt := List.rel_of_pairwise_cons h.pairwise hu
    exact Position.le_trans (h.spans t List.mem_cons_self) (Position.le_of_lt hlt)

theorem le_last (h : Ascending ts) (ht : t ∈ ts) (hu : ts.getLast? = some u) :
    t.span.last ≤ u.span.last := by
  obtain ⟨ts, rfl⟩ := List.getLast?_eq_some_iff.1 hu
  obtain ht | ht := List.mem_append.1 ht
  · have hlt := (List.pairwise_append.1 h.pairwise).2.2 t ht u List.mem_cons_self
    exact Position.le_trans (Position.le_of_lt hlt) (h.spans u (by simp))
  · rw [List.mem_singleton.1 ht]
    exact Position.le_refl _

end Ascending

theorem SourceFile.ascending_tokens {file : SourceFile} {tokens : List Token}
    (h : file.tokens = .ok tokens) : Ascending tokens := by
  obtain ⟨pieces, last, hsplits, rfl⟩ := splits_of_tokens h
  obtain ⟨hspans, hpairwise⟩ := rowTokens_pairwise hsplits.isLexeme (p := .origin) Nat.one_pos last
  exact ⟨fun t ht => (hspans t ht).2, hpairwise⟩

namespace Span.Covers

variable {s u : Span} {row ts us : List Token}

theorem single (kind : TokenKind) {span : Span} : span.Covers [⟨kind, span⟩] :=
  ⟨_, _, rfl, rfl, rfl⟩

/-- the span over the two ends of a row -/
theorem merge (middle : List Token) (h : Ascending row) (hs : s.Covers ts) (hu : u.Covers us)
    (hrow : row = ts ++ (middle ++ us)) : (s.merge u).Covers row := by
  subst hrow
  obtain ⟨a, b, ha, hb, rfl⟩ := hs
  obtain ⟨c, d, hc, hd, rfl⟩ := hu
  have hfirst : (ts ++ (middle ++ us)).head? = some a := by
    rw [List.head?_append, ha, Option.some_or]
  have hlast : (ts ++ (middle ++ us)).getLast? = some d := by
    rw [List.getLast?_append, List.getLast?_append, hd, Option.some_or, Option.some_or]
  have hmem : b ∈ ts := List.mem_of_mem_getLast? hb
  have hmem' : c ∈ us := List.mem_of_mem_head? hc
  have hle := h.first_le hfirst (List.mem_append_right _ (List.mem_append_right _ hmem'))
  have hle' := h.le_last (List.mem_append_left _ hmem) hlast
  refine ⟨a, d, hfirst, hlast, ?_⟩
  rw [Span.merge, Position.min_eq_left hle, Position.max_eq_right hle']

end Span.Covers

/-! ### spans inside of spans -/

/-- the spans `inner` lie inside of `outer`, each behind the one in front of it -/
structure Span.Holds (outer : Span) (inner : List Span) : Prop where
  inside : ∀ s ∈ inner, outer.first ≤ s.first ∧ s.first ≤ s.last ∧ s.last ≤ outer.last
  pairwise : inner.Pairwise fun s t => s.last < t.first

/-- the spans of some parts of a row, in order -/
inductive Tiles : List Token → List Span → Prop
  | nil {ts} : Tiles ts []
  | cons {ts us vs span spans} (h : span.Covers us) (hs : Tiles vs spans) :
      Tiles (ts ++ (us ++ vs)) (span :: spans)

namespace Tiles

variable {ts us : List Token} {span outer : Span} {spans spans' : List Span}

theorem single (h : span.Covers ts) : Tiles ts [span] := by
  rw [← List.append_nil ts, ← List.nil_append (ts ++ [])]
  exact .cons h .nil

/-- tokens in front of a row -/
theorem behind (ts : List Token) (h : Tiles us spans) : Tiles (ts ++ us) spans := by
  cases h with
  | nil => exact .nil
  | cons h hs =>
    rw [← List.append_assoc]
    exact .cons h hs

theorem append (h : Tiles ts spans) (h' : Tiles us spans') :
    Tiles (ts ++ us) (spans ++ spans') := by
  induction h with
  | nil => exact h'.behind _
  | cons h _ ih =>
    rw [List.append_assoc, List.append_assoc]
    exact .cons h ih

/-- more tokens behind a row -/
theorem before (h : Tiles ts spans) (us : List Token) : Tiles (ts ++ us) spans := by
  have hnil : Tiles us [] := .nil
  have happend := h.append hnil
  rwa [List.append_nil] at happend

/-- the rows of the parts are parts of the row -/
theorem exists_covers (h : Tiles ts spans) :
    ∀ s ∈ spans, ∃ us : List Token, us <:+: ts ∧ s.Covers us := by
  induction h with
  | nil => nofun
  | @cons ts us vs span spans h _ ih =>
    intro s hs
    obtain rfl | hs := List.mem_cons.1 hs
    · exact ⟨us, ⟨ts, vs, List.append_assoc ..⟩, h⟩
    · obtain ⟨ws, hws, hcovers⟩ := ih s hs
      have hvs : vs <:+ ts ++ (us ++ vs) :=
        (List.suffix_append us vs).trans (List.suffix_append ts _)
      exact ⟨ws, hws.trans hvs.isInfix, hcovers⟩

theorem pairwise (h : Tiles ts spans) (hts : Ascending ts) :
    spans.Pairwise fun s t => s.last < t.first := by
  induction h with
  | nil => exact .nil
  | cons h hs ih =>
    refine List.pairwise_cons.2 ⟨fun s hmem => ?_, ih hts.right.right⟩
    obtain ⟨ws, hws, t, u, ht, -, rfl⟩ := hs.exists_covers s hmem
    obtain ⟨a, b, -, hb, rfl⟩ := h
    exact (List.pairwise_append.1 hts.right.pairwise).2.2 b (List.mem_of_mem_getLast? hb) t
      (hws.subset (List.mem_of_mem_head? ht))

/-- **Parts of a row lie inside its span**, one behind the other. -/
theorem holds (h : Tiles ts spans) (hts : Ascending ts) (houter : outer.Covers ts) :
    outer.Holds spans := by
  refine ⟨fun s hs => ?_, h.pairwise hts⟩
  obtain ⟨us, hus, t, u, ht, hu, rfl⟩ := h.exists_covers s hs
  obtain ⟨a, b, ha, hb, rfl⟩ := houter
  have hmem : t ∈ us := List.mem_of_mem_head? ht
  have hmem' : u ∈ us := List.mem_of_mem_getLast? hu
  have hle := (hts.sublist hus.sublist).le_last hmem hu
  exact ⟨hts.first_le ha (hus.subset hmem), Position.le_trans (hts.spans t (hus.subset hmem)) hle,
    hts.le_last (hus.subset hmem') hb⟩

end Tiles

/-! ### children -/

/-- the spans of what an expression is made of -/
def Expr.childSpans : Expr → List Span
  | number _ _ _ | var _ _ _ => []
  | neg operand _ _ => [operand.span]
  | binary _ left right _ _ => [left.span, right.span]
  | assign target value _ _ => [target.span, value.span]
  | call callee args _ _ => callee.span :: args.map span

def Stmt.childSpans : Stmt → List Span
  | declaration _ name _ e _ _ => [name.span, e.span]
  | ret e _ | expression e _ => [e.span]
  | conditional e consequent alternate _ =>
    e.span :: (consequent.map span ++ (alternate.getD []).map span)

def FunctionDecl.childSpans (f : FunctionDecl) : List Span :=
  f.name.span :: (f.params.map (·.name.span) ++ f.body.map Stmt.span)

@[simp] theorem Expr.childSpans_withSpan (e : Expr) (span : Span) :
    (e.withSpan span).childSpans = e.childSpans := by
  cases e <;> rfl

/-- the children of every node in an expression lie inside of it, one behind the other -/
def Expr.Ordered (e : Expr) : Prop := ∀ a ∈ e.parts, a.span.Holds a.childSpans

def Stmt.Ordered (s : Stmt) : Prop :=
  ∀ t ∈ s.nested, t.span.Holds t.childSpans ∧ t.expr.Ordered

def FunctionDecl.Ordered (f : FunctionDecl) : Prop :=
  f.span.Holds f.childSpans ∧ ∀ s ∈ f.body, s.Ordered

def Program.Ordered (p : Program) : Prop :=
  p.span.Holds (p.functions.map FunctionDecl.span) ∧ ∀ f ∈ p.functions, f.Ordered

/-! ### parts of a tree and their rows -/

/-- a type behind a colon, or nothing -/
def TypeNote (ts : List Token) (type : DataType) : Prop :=
  ts = [] ∨ ∃ colon word, ts = [⟨.symbol .colon, colon⟩, ⟨.keyword type.keyword, word⟩]

open Nonterminal in
inductive Located : (n : Nonterminal) → List Token → n.Value → Prop
  -- primary expressions
  | number {lexeme value type span} (h : Literal lexeme value type) :
      Located (expr .primary) [⟨.number lexeme, span⟩] (Expr.number value type span)
  | var {name type span} :
      Located (expr .primary) [⟨.identifier name, span⟩] (Expr.var name type span)
  | call {ts args type span o c} {callee : Ident}
      (hargs : Located (items (expr .expression)) ts args)
      (hspan : span.Covers (⟨.identifier callee.name, callee.span⟩ ::
        ⟨.symbol .leftParen, o⟩ :: (ts ++ [⟨.symbol .rightParen, c⟩]))) :
      Located (expr .primary) (⟨.identifier callee.name, callee.span⟩ ::
          ⟨.symbol .leftParen, o⟩ :: (ts ++ [⟨.symbol .rightParen, c⟩]))
        (Expr.call callee args type span)
  | group {ts span o c} {e : Expr} (h : Located (expr .expression) ts e)
      (hspan : span.Covers (⟨.symbol .leftParen, o⟩ :: (ts ++ [⟨.symbol .rightParen, c⟩]))) :
      Located (expr .primary) (⟨.symbol .leftParen, o⟩ :: (ts ++ [⟨.symbol .rightParen, c⟩]))
        (e.withSpan span)
  -- operators
  | neg {ts e type span m} (h : Located (expr .primary) ts e)
      (hspan : span.Covers (⟨.symbol .minus, m⟩ :: ts)) :
      Located (expr .unary) (⟨.symbol .minus, m⟩ :: ts) (Expr.neg e type span)
  | unsigned {ts e} (h : Located (expr .primary) ts e) : Located (expr .unary) ts e
  | operand {ts e} {l : Chain} (h : Located (expr l.operand) ts e) :
      Located (expr (.chain l)) ts e
  | binary {ts us left right type span m} {l : Chain} {op : BinaryOp} (hop : op.chain = l)
      (hl : Located (expr (.chain l)) ts left) (hr : Located (expr l.operand) us right)
      (hspan : span.Covers (ts ++ ⟨.symbol op.symbol, m⟩ :: us)) :
      Located (expr (.chain l)) (ts ++ ⟨.symbol op.symbol, m⟩ :: us)
        (Expr.binary op left right type span)
  -- assignments
  | unassigned {ts e} (h : Located (expr (.chain .comparison)) ts e) :
      Located (expr .assignment) ts e
  | assign {ts value type span m} {target : Ident} (h : Located (expr .expression) ts value)
      (hspan : span.Covers (⟨.identifier target.name, target.span⟩ ::
        ⟨.symbol .assign, m⟩ :: ts)) :
      Located (expr .assignment)
        (⟨.identifier target.name, target.span⟩ :: ⟨.symbol .assign, m⟩ :: ts)
        (Expr.assign target value type span)
  | expression {ts e} (h : Located (expr .assignment) ts e) : Located (expr .expression) ts e
  -- rows
  | single {n ts a} (h : Located n ts a) : Located (row n) ts [a]
  | cons {n ts us a as m} (h : Located n ts a) (hs : Located (row n) us as) :
      Located (row n) (ts ++ ⟨.symbol .comma, m⟩ :: us) (a :: as)
  | noItems {n} : Located (items n) [] []
  | someItems {n ts as} (h : Located (row n) ts as) : Located (items n) ts as
  -- statements
  | declaration {note ts kind type init span w m c} {name : Ident} (hnote : TypeNote note type)
      (h : Located (expr .expression) ts init)
      (hspan : span.Covers (⟨.keyword kind.keyword, w⟩ :: ⟨.identifier name.name, name.span⟩ ::
        (note ++ ⟨.symbol .assign, m⟩ :: (ts ++ [⟨.symbol .semicolon, c⟩])))) :
      Located statement (⟨.keyword kind.keyword, w⟩ :: ⟨.identifier name.name, name.span⟩ ::
          (note ++ ⟨.symbol .assign, m⟩ :: (ts ++ [⟨.symbol .semicolon, c⟩])))
        (Stmt.declaration kind name type init kind.isConst span)
  | ret {ts e span w c} (h : Located (expr .expression) ts e)
      (hspan : span.Covers (⟨.keyword .returnWord, w⟩ :: (ts ++ [⟨.symbol .semicolon, c⟩]))) :
      Located statement (⟨.keyword .returnWord, w⟩ :: (ts ++ [⟨.symbol .semicolon, c⟩]))
        (Stmt.ret e span)
  | branching {ts s} (h : Located conditional ts s) : Located statement ts s
  | expressionStmt {ts e span c} (h : Located (expr .expression) ts e)
      (hspan : span.Covers (ts ++ [⟨.symbol .semicolon, c⟩])) :
      Located statement (ts ++ [⟨.symbol .semicolon, c⟩]) (Stmt.expression e span)
  | noStatements : Located statements [] []
  | moreStatements {ts us s ss} (h : Located statement ts s) (hs : Located statements us ss) :
      Located statements (ts ++ us) (s :: ss)
  | block {ts ss span o c} (h : Located statements ts ss)
      (hspan : span.Covers (⟨.symbol .leftBrace, o⟩ :: (ts ++ [⟨.symbol .rightBrace, c⟩]))) :
      Located block (⟨.symbol .leftBrace, o⟩ :: (ts ++ [⟨.symbol .rightBrace, c⟩])) (ss, span)
  -- conditionals
  | conditional {ts us e ss stop span w o c} (hc : Located (expr .expression) ts e)
      (ht : Located block us (ss, stop))
      (hspan : span.Covers (⟨.keyword .ifWord, w⟩ :: ⟨.symbol .leftParen, o⟩ ::
        (ts ++ ⟨.symbol .rightParen, c⟩ :: us))) :
      Located conditional (⟨.keyword .ifWord, w⟩ :: ⟨.symbol .leftParen, o⟩ ::
          (ts ++ ⟨.symbol .rightParen, c⟩ :: us))
        (Stmt.conditional e ss none span)
  | conditionalElse {ts us vs e ss ss' stop stop' span w o c m}
      (hc : Located (expr .expression) ts e) (ht : Located block us (ss, stop))
      (hf : Located alternate vs (ss', stop'))
      (hspan : span.Covers (⟨.keyword .ifWord, w⟩ :: ⟨.symbol .leftParen, o⟩ ::
        (ts ++ ⟨.symbol .rightParen, c⟩ :: (us ++ ⟨.keyword .elseWord, m⟩ :: vs)))) :
      Located conditional (⟨.keyword .ifWord, w⟩ :: ⟨.symbol .leftParen, o⟩ ::
          (ts ++ ⟨.symbol .rightParen, c⟩ :: (us ++ ⟨.keyword .elseWord, m⟩ :: vs)))
        (Stmt.conditional e ss (some ss') span)
  | elseBlock {ts b} (h : Located block ts b) : Located alternate ts b
  | elseIf {ts s} (h : Located conditional ts s) : Located alternate ts ([s], Stmt.span s)
  -- functions
  | param {b : Binding} {m w} :
      Located param [⟨.identifier b.name.name, b.name.span⟩, ⟨.symbol .colon, m⟩,
        ⟨.keyword b.type.keyword, w⟩] b
  | function {ts us params body stop result span w o c m r} {name : Ident}
      (hp : Located (items param) ts params) (hb : Located block us (body, stop))
      (hspan : span.Covers (⟨.keyword .functionWord, w⟩ :: ⟨.identifier name.name, name.span⟩ ::
        ⟨.symbol .leftParen, o⟩ :: (ts ++ ⟨.symbol .rightParen, c⟩ :: ⟨.symbol .colon, m⟩ ::
          ⟨.keyword result.keyword, r⟩ :: us))) :
      Located function (⟨.keyword .functionWord, w⟩ :: ⟨.identifier name.name, name.span⟩ ::
          ⟨.symbol .leftParen, o⟩ :: (ts ++ ⟨.symbol .rightParen, c⟩ :: ⟨.symbol .colon, m⟩ ::
            ⟨.keyword result.keyword, r⟩ :: us))
        (⟨name, params, body.filterMap Stmt.binding?, result, body, span⟩ : FunctionDecl)
  | noFunctions : Located functions [] []
  | moreFunctions {ts us f fs} (h : Located function ts f) (hs : Located functions us fs) :
      Located functions (ts ++ us) (f :: fs)

/-! ### children inside of their parents -/

namespace Nonterminal

/-- the spans of the outermost nodes of a part -/
def spans : (n : Nonterminal) → n.Value → List Span
  | expr _, e => [Expr.span e]
  | param, b => [(Binding.name b).span]
  | row n, as | items n, as => List.flatMap n.spans as
  | statement, s | conditional, s => [Stmt.span s]
  | statements, ss => List.map Stmt.span ss
  | block, b | alternate, b => List.map Stmt.span b.1
  | function, f => [FunctionDecl.span f]
  | functions, fs => List.map FunctionDecl.span fs

/-- the spans of what the outermost node of a part is made of, if it is a single one -/
def childSpans : (n : Nonterminal) → n.Value → List Span
  | expr _, e => Expr.childSpans e
  | statement, s | conditional, s => Stmt.childSpans s
  | function, f => FunctionDecl.childSpans f
  | _, _ => []

/-- the span of a part, if it has one, is the one of a row -/
def Covers : (n : Nonterminal) → n.Value → List Token → Prop
  | expr _, e, ts => (Expr.span e).Covers ts
  | statement, s, ts | conditional, s, ts => (Stmt.span s).Covers ts
  | block, b, ts | alternate, b, ts => (b.2 : Span).Covers ts
  | function, f, ts => (FunctionDecl.span f).Covers ts
  | _, _, _ => True

def Ordered : (n : Nonterminal) → n.Value → Prop
  | expr _, e => Expr.Ordered e
  | param, _ => True
  | row n, as | items n, as => ∀ a ∈ (as : List n.Value), n.Ordered a
  | statement, s | conditional, s => Stmt.Ordered s
  | statements, ss => ∀ s ∈ (ss : List Stmt), s.Ordered
  | block, b | alternate, b => ∀ s ∈ (b.1 : List Stmt), s.Ordered
  | function, f => FunctionDecl.Ordered f
  | functions, fs => ∀ f ∈ (fs : List FunctionDecl), f.Ordered

theorem spans_items_expr (l : Level) (es : List Expr) :
    (items (expr l)).spans es = es.map Expr.span := List.map_eq_flatMap.symm

theorem spans_items_param (bs : List Binding) :
    (items param).spans bs = bs.map (·.name.span) := List.map_eq_flatMap.symm

end Nonterminal

namespace Expr

theorem children_withSpan (e : Expr) (span : Span) : (e.withSpan span).children = e.children := by
  cases e <;> rfl

theorem ordered_iff {e : Expr} :
    e.Ordered ↔ e.span.Holds e.childSpans ∧ ∀ a ∈ e.children, a.Ordered := by
  simp only [Ordered, parts_eq_children e, List.forall_mem_cons, List.forall_mem_flatMap]

end Expr

namespace Stmt

theorem ordered_iff {s : Stmt} :
    s.Ordered ↔ s.span.Holds s.childSpans ∧ s.expr.Ordered ∧ ∀ t ∈ s.branches, t.Ordered := by
  simp only [Ordered, nested_eq_branches s, List.forall_mem_cons, List.forall_mem_flatMap,
    and_assoc]

end Stmt

namespace Located

variable {n : Nonterminal} {ts : List Token} {a : n.Value}

theorem covers (h : Located n ts a) : n.Covers a ts := by
  induction h with
  | number | var => exact .single _
  | call _ hspan | neg _ hspan | binary _ _ _ hspan | assign _ hspan | declaration _ _ hspan
  | ret _ hspan | expressionStmt _ hspan | block _ hspan | conditional _ _ hspan
  | conditionalElse _ _ _ hspan | function _ _ hspan => exact hspan
  | group _ hspan => rwa [Nonterminal.Covers, Expr.span_withSpan]
  | unsigned _ ih | operand _ ih | unassigned _ ih | expression _ ih | branching _ ih
  | elseBlock _ ih | elseIf _ ih => exact ih
  | _ => trivial

/-- the outermost nodes of a part stand for parts of its row -/
theorem tiles (h : Located n ts a) : Tiles ts (n.spans a) := by
  induction h with
  | number | var => exact .single (.single _)
  | call _ hspan | neg _ hspan | binary _ _ _ hspan | assign _ hspan | declaration _ _ hspan
  | ret _ hspan | expressionStmt _ hspan | conditional _ _ hspan | conditionalElse _ _ _ hspan
  | function _ _ hspan => exact .single hspan
  | @group _ span _ _ e _ hspan =>
    rw [← e.span_withSpan span] at hspan
    exact .single hspan
  | unsigned _ ih | operand _ ih | unassigned _ ih | expression _ ih | someItems _ ih
  | branching _ ih | elseBlock _ ih | elseIf _ ih => exact ih
  | single _ ih => simpa [Nonterminal.spans] using ih
  | cons _ _ ih ihs => exact ih.append (ihs.behind [_])
  | noItems | noStatements | noFunctions => exact .nil
  | moreStatements _ _ ih ihs | moreFunctions _ _ ih ihs => exact ih.append ihs
  | block _ _ ih => exact (ih.before [_]).behind [_]
  | param => exact (Tiles.single (Span.Covers.single _)).before [_, _]

/-- what a node is made of stands for parts of its row -/
theorem tiles_children (h : Located n ts a) : Tiles ts (n.childSpans a) := by
  induction h with
  | unsigned _ ih | operand _ ih | unassigned _ ih | expression _ ih | branching _ ih => exact ih
  | call hargs _ _ =>
    have hargs := hargs.tiles
    rw [Nonterminal.spans_items_expr] at hargs
    exact (Tiles.single (Span.Covers.single _)).append ((hargs.before [_]).behind [_])
  | group _ _ ih =>
    simp only [Nonterminal.childSpans, Expr.childSpans_withSpan]
    exact (ih.before [_]).behind [_]
  | neg h _ _ => exact h.tiles.behind [_]
  | binary _ hl hr _ _ _ => exact hl.tiles.append (hr.tiles.behind [_])
  | assign h _ _ => exact (Tiles.single (Span.Covers.single _)).append (h.tiles.behind [_])
  | declaration _ h _ _ =>
    exact ((Tiles.single (Span.Covers.single _)).append
      (((h.tiles.before [_]).behind [_]).behind _)).behind [_]
  | ret h _ _ => exact (h.tiles.before [_]).behind [_]
  | expressionStmt h _ _ => exact h.tiles.before [_]
  | conditional hc ht _ _ _ =>
    simp only [Nonterminal.childSpans, Stmt.childSpans, Option.getD_none, List.map_nil,
      List.append_nil]
    exact (hc.tiles.append (ht.tiles.behind [_])).behind [_, _]
  | conditionalElse hc ht hf _ _ _ _ =>
    exact (hc.tiles.append ((ht.tiles.append (hf.tiles.behind [_])).behind [_])).behind [_, _]
  | function hp hb _ _ _ =>
    have hparams := hp.tiles
    rw [Nonterminal.spans_items_param] at hparams
    exact ((Tiles.single (Span.Covers.single _)).append
      ((hparams.append (hb.tiles.behind [_, _, _])).behind [_])).behind [_]
  | _ => exact .nil

theorem expr_ordered {l : Level} {e : Expr} (h : Located (.expr l) ts e) (hts : Ascending ts)
    (hc : ∀ c ∈ e.children, c.Ordered) : e.Ordered :=
  Expr.ordered_iff.2 ⟨h.tiles_children.holds hts h.covers, hc⟩

theorem stmt_ordered {s : Stmt} (h : Located .statement ts s) (hts : Ascending ts)
    (he : s.expr.Ordered) (hb : ∀ t ∈ s.branches, t.Ordered) : s.Ordered :=
  Stmt.ordered_iff.2 ⟨h.tiles_children.holds hts h.covers, he, hb⟩

/-- **The children of every node lie inside of it**, one behind the other. -/
theorem ordered (h : Located n ts a) (hts : Ascending ts) : n.Ordered a := by
  induction h with
  | number | var => exact Expr.ordered_iff.2 ⟨⟨nofun, .nil⟩, nofun⟩
  | unsigned _ ih | operand _ ih | unassigned _ ih | expression _ ih | someItems _ ih
  | branching _ ih | elseBlock _ ih => exact ih hts
  | call hargs hspan ih => exact expr_ordered (.call hargs hspan) hts (ih hts.tail.tail.left)
  | group h hspan ih =>
    refine expr_ordered (.group h hspan) hts ?_
    rw [Expr.children_withSpan]
    exact (Expr.ordered_iff.1 (ih hts.tail.left)).2
  | neg h hspan ih =>
    exact expr_ordered (.neg h hspan) hts (List.forall_mem_singleton.2 (ih hts.tail))
  | binary hop hl hr hspan ihl ihr =>
    refine expr_ordered (.binary hop hl hr hspan) hts ?_
    exact List.forall_mem_cons.2 ⟨ihl hts.left, List.forall_mem_singleton.2 (ihr hts.right.tail)⟩
  | assign h hspan ih =>
    exact expr_ordered (.assign h hspan) hts (List.forall_mem_singleton.2 (ih hts.tail.tail))
  | single _ ih | elseIf _ ih => exact List.forall_mem_singleton.2 (ih hts)
  | cons _ _ ih ihs => exact List.forall_mem_cons.2 ⟨ih hts.left, ihs hts.right.tail⟩
  | noItems | noStatements | noFunctions => exact nofun
  | param => trivial
  | declaration hnote h hspan ih =>
    exact stmt_ordered (.declaration hnote h hspan) hts
      (ih hts.tail.tail.right.tail.left) nofun
  | ret h hspan ih => exact stmt_ordered (.ret h hspan) hts (ih hts.tail.left) nofun
  | expressionStmt h hspan ih =>
    exact stmt_ordered (.expressionStmt h hspan) hts (ih hts.left) nofun
  | moreStatements _ _ ih ihs | moreFunctions _ _ ih ihs =>
    exact List.forall_mem_cons.2 ⟨ih hts.left, ihs hts.right⟩
  | block _ _ ih => exact ih hts.tail.left
  | conditional hc ht hspan ih ihb =>
    refine stmt_ordered (.branching (.conditional hc ht hspan)) hts (ih hts.tail.tail.left) ?_
    exact List.forall_mem_append.2 ⟨ihb hts.tail.tail.right.tail, nofun⟩
  | conditionalElse hc ht hf hspan ih ihb iha =>
    refine stmt_ordered (.branching (.conditionalElse hc ht hf hspan)) hts
      (ih hts.tail.tail.left) ?_
    have hbranches := hts.tail.tail.right.tail
    exact List.forall_mem_append.2 ⟨ihb hbranches.left, iha hbranches.right.tail⟩
  | function hp hb hspan _ ihb =>
    refine ⟨(function hp hb hspan).tiles_children.holds hts hspan, ?_⟩
    exact ihb hts.tail.tail.tail.right.tail.tail.tail

end Located

end Wattle
