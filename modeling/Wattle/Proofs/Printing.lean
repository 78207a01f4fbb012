import Wattle.Proofs.Parser.Complete
import Wattle.Proofs.Token.Written

/-!
# Printed programs

The ways to write a tree down.  `Expr.Prints e p a kinds` says that `kinds` is the expression `a`
as it may be written where an operand of precedence `p` is needed, with at most `e` more
expressions opened in it.  A pair of parentheses, an argument and an assigned value open one each.
Parentheses may stand around any expression but the target of an assignment, and they have to where
the precedence of `a` is below `p`: there is no other way to write it.

Statements, functions and programs are written in the same way, up to the types of variables, which
may be left out, and alternates that are a single conditional, which need no braces.  A program is
`Written` with any gaps that keep its tokens apart.  What is written so is derived from the grammar
(`Program.Prints.derived`), and is read again as the tree it was written from
(`SourceFile.parse_of_prints`).
-/

namespace Wattle

/-! ### expressions -/

def BinaryOp.precedence : BinaryOp → Nat
  | eq | ne | lt | le | gt | ge => 1
  | add | sub => 2
  | mul | div => 3

/-- rows of tokens with commas between them -/
def commaRow : List (List TokenKind) → List TokenKind
  | [] => []
  | [ks] => ks
  | ks :: rest => ks ++ .symbol .comma :: commaRow rest

/-- the name of a variable or a function, which is not reserved -/
def IsName (name : String) : Prop := (TokenKind.identifier name).IsLexeme

/-- the ways to write an expression where a precedence is needed: `0` for any expression, `1` to `3`
for operands of operators, `4` for a minus sign and `5` for what stands behind it -/
inductive Expr.Prints : Nat → Nat → Expr → List TokenKind → Prop
  | whole {e p lexeme n span} (hl : IsDigits lexeme.toList)
      (hn : digitsValue lexeme.toList = n) (hmax : n ≤ 4294967295) :
      Prints e p (.number (.ofNat n) .int span) [.number lexeme]
  | decimal {e p lexeme value span} (hl : IsNumber lexeme.toList) (hpoint : '.' ∈ lexeme.toList)
      (hv : Double.ofText? lexeme = some value) :
      Prints e p (.number value .double span) [.number lexeme]
  | var {e p name type span} (hn : IsName name) :
      Prints e p (.var name type span) [.identifier name]
  | call {e p callee type span} {args : List (Expr × List TokenKind)} (hn : IsName callee.name)
      (hopen : args ≠ [] → 0 < e) (hargs : ∀ a ∈ args, Prints (e - 1) 0 a.1 a.2) :
      Prints e p (.call callee (args.map Prod.fst) type span)
        (.identifier callee.name :: .symbol .leftParen ::
          (commaRow (args.map Prod.snd) ++ [.symbol .rightParen]))
  | neg {e p operand ks type span} (hp : p ≤ 4) (h : Prints e 5 operand ks) :
      Prints e p (.neg operand type span) (.symbol .minus :: ks)
  | binary {e p op left right ks ks' type span} (hp : p ≤ op.precedence)
      (hl : Prints e op.precedence left ks) (hr : Prints e (op.precedence + 1) right ks') :
      Prints e p (.binary op left right type span) (ks ++ .symbol op.symbol :: ks')
  | assign {e target value ks type span} (hn : IsName target.name) (h : Prints e 0 value ks) :
      Prints (e + 1) 0 (.assign target value type span)
        (.identifier target.name :: .symbol .assign :: ks)
  | parens {e p a ks} (h : Prints e 0 a ks) :
      Prints (e + 1) p a (.symbol .leftParen :: (ks ++ [.symbol .rightParen]))

/-- an expression that is not part of another one opens one, too -/
def Expr.PrintsAlone (e : Nat) (a : Expr) (ks : List TokenKind) : Prop :=
  ∃ inner, e = inner + 1 ∧ a.Prints inner 0 ks

/-! ### statements and programs -/

def Stmt.isConditional : Stmt → Bool
  | conditional _ _ _ _ => true
  | _ => false

/-- an alternate in braces, or without them if it is a single conditional -/
def PrintsElse (ss : List Stmt) (ks ks' : List TokenKind) : Prop :=
  ks' = .symbol .leftBrace :: (ks ++ [.symbol .rightBrace]) ∨
    (∃ s, ss = [s] ∧ s.isConditional = true) ∧ ks' = ks

/-- the ways to write statements, with at most `e` expressions and `c` more conditionals open -/
inductive StmtsPrint (e : Nat) : Nat → List Stmt → List TokenKind → Prop
  | nil {c} : StmtsPrint e c [] []
  | declaration {c kind type init span ss ks ks'} {name : Ident} (written : Bool)
      (hn : IsName name.name) (h : init.PrintsAlone e ks) (hs : StmtsPrint e c ss ks') :
      StmtsPrint e c (.declaration kind name type init kind.isConst span :: ss)
        (.keyword kind.keyword :: .identifier name.name ::
          (typeNote written type ++ .symbol .assign :: (ks ++ .symbol .semicolon :: ks')))
  | ret {c a span ss ks ks'} (h : a.PrintsAlone e ks) (hs : StmtsPrint e c ss ks') :
      StmtsPrint e c (.ret a span :: ss)
        (.keyword .returnWord :: (ks ++ .symbol .semicolon :: ks'))
  | expression {c a span ss ks ks'} (h : a.PrintsAlone e ks) (hs : StmtsPrint e c ss ks') :
      StmtsPrint e c (.expression a span :: ss) (ks ++ .symbol .semicolon :: ks')
  | conditional {c condition consequent span ss ks ks' ks''} (hc : condition.PrintsAlone e ks)
      (ht : StmtsPrint e c consequent ks') (hs : StmtsPrint e (c + 1) ss ks'') :
      StmtsPrint e (c + 1) (.conditional condition consequent none span :: ss)
        (.keyword .ifWord :: .symbol .leftParen :: (ks ++ .symbol .rightParen ::
          .symbol .leftBrace :: (ks' ++ .symbol .rightBrace :: ks'')))
  | conditionalElse {c condition consequent alternate span ss ks ks' other other' ks''}
      (hc : condition.PrintsAlone e ks) (ht : StmtsPrint e c consequent ks')
      (hf : StmtsPrint e c alternate other) (ho : PrintsElse alternate other other')
      (hs : StmtsPrint e (c + 1) ss ks'') :
      StmtsPrint e (c + 1) (.conditional condition consequent (some alternate) span :: ss)
        (.keyword .ifWord :: .symbol .leftParen :: (ks ++ .symbol .rightParen ::
          .symbol .leftBrace :: (ks' ++ .symbol .rightBrace :: .keyword .elseWord ::
            (other' ++ ks''))))

def Binding.tokens (b : Binding) : List TokenKind := .identifier b.name.name :: typeMark b.type

/-- the ways to write a function, whose local variables are those declared outside of
conditionals -/
structure FunctionDecl.Prints (e c : Nat) (f : FunctionDecl) (ks : List TokenKind) : Prop where
  name : IsName f.name.name
  params : ∀ b ∈ f.params, IsName b.name.name
  locals : f.locals = f.body.filterMap Stmt.binding?
  eq : ∃ body, StmtsPrint e c f.body body ∧
    ks = .keyword .functionWord :: .identifier f.name.name :: .symbol .leftParen ::
      (commaRow (f.params.map Binding.tokens) ++ .symbol .rightParen ::
        (typeMark f.returnType ++ .symbol .leftBrace :: (body ++ [.symbol .rightBrace])))

/-- the ways to write a program, with at most `e` expressions and `c` conditionals open -/
def Program.Prints (e c : Nat) (p : Program) (ks : List TokenKind) : Prop :=
  ∃ rows : List (FunctionDecl × List TokenKind), rows.map Prod.fst = p.functions ∧
    (∀ row ∈ rows, row.1.Prints e c row.2) ∧ ks = rows.flatMap Prod.snd

/-! ### printed expressions are derived -/

/-- the level of what may stand where a precedence is needed -/
def Level.ofPrecedence : Nat → Level
  | 0 => .assignment
  | 1 => .chain .comparison
  | 2 => .chain .sum
  | 3 => .chain .product
  | 4 => .unary
  | _ => .primary

theorem Level.ofPrecedence_op (op : BinaryOp) : ofPrecedence op.precedence = .chain op.chain := by
  cases op <;> rfl

theorem Level.ofPrecedence_succ (op : BinaryOp) :
    ofPrecedence (op.precedence + 1) = op.chain.operand := by
  cases op <;> rfl

theorem Expr.withSpan_span (e : Expr) : e.withSpan e.span = e := by cases e <;> rfl

section
variable {e c p q : Nat} {ks : List TokenKind} {a : Expr}

/-- what may stand where more is needed may stand where less is -/
theorem Derives.loosen (h : Derives e c (.expr (.ofPrecedence q)) ks a) (hp : p ≤ q) :
    Derives e c (.expr (.ofPrecedence p)) ks a := by
  induction hp with
  | refl => exact h
  | @step q _ ih =>
    refine ih ?_
    match q, h with
    | 0, h => exact .unassigned h
    | 1, h => exact .operand (l := .comparison) h
    | 2, h => exact .operand (l := .sum) h
    | 3, h => exact .operand (l := .product) h
    | 4, h => exact .unsigned h
    | _ + 5, h => exact h

theorem Derives.ofPrimary (h : Derives e c (.expr .primary) ks a) :
    Derives e c (.expr (.ofPrecedence p)) ks a :=
  loosen (q := p + 5) h (Nat.le_add_right ..)

theorem Derives.items_of_rows {n : Nonterminal} {rows : List (n.Value × List TokenKind)}
    (h : ∀ row ∈ rows, Derives e c n row.2 row.1) :
    Derives e c (.items n) (commaRow (rows.map Prod.snd)) (rows.map Prod.fst) := by
  cases rows with
  | nil => exact .noItems
  | cons row rows =>
    refine .someItems ?_
    induction rows generalizing row with
    | nil => exact .single (h row List.mem_cons_self)
    | cons row' rows ih =>
      exact .cons (h row List.mem_cons_self)
        (ih row' fun r hr => h r (List.mem_cons_of_mem _ hr))

theorem IsDigits.no_point {cs : List Char} (h : IsDigits cs) : '.' ∉ cs :=
  fun hmem => by cases h.2 _ hmem

theorem word?_of_isDigits {lexeme : String} (hl : IsDigits lexeme.toList) :
    word? lexeme =
      if digitsValue lexeme.toList < 2 ^ 32 then some (digitsValue lexeme.toList) else none := by
  have hplus : ∀ cs, lexeme.toList ≠ '+' :: cs := fun cs hcs => by
    cases hl.2 '+' (by simp [hcs])
  have hall : lexeme.toList.all Char.isDigit = true := List.all_eq_true.2 hl.2
  unfold word?
  split
  · next cs hcs => exact absurd hcs (hplus cs)
  · simp [hl.1, hall]

theorem literal_whole {lexeme : String} {n : Nat} (hl : IsDigits lexeme.toList)
    (hn : digitsValue lexeme.toList = n) (hmax : n ≤ 4294967295) :
    Literal lexeme (.ofNat n) .int := by
  refine ⟨by rw [literalType, if_neg hl.no_point], n, ?_, rfl⟩
  rw [word?_of_isDigits hl, hn, if_pos (by omega)]

/-- every spelling of the lexer with a point has a value -/
theorem exists_decimal {lexeme : String} (hl : IsNumber lexeme.toList)
    (hpoint : '.' ∈ lexeme.toList) : ∃ value, Double.ofText? lexeme = some value := by
  generalize hcs : lexeme.toList = cs at hl hpoint
  cases hl with
  | whole hw => cases hw.2 _ hpoint
  | @decimal w f hw hf =>
    have hsign : Decimal.splitSign (w ++ '.' :: f) = (false, w ++ '.' :: f) := by
      obtain ⟨d, w, rfl⟩ := List.exists_cons_of_ne_nil hw.1
      have hd : d.isDigit = true := hw.2 d List.mem_cons_self
      unfold Decimal.splitSign
      split <;> simp_all
    have hdot : ∀ c ∈ ('.' :: f).head?, c.isDigit = false := by simp
    have hdrop : (f ++ []).dropWhile Char.isDigit = [] := dropWhile_append_of_head hf.2 (by simp)
    rw [List.append_nil] at hdrop
    have hchars : ∃ d, Decimal.ofChars? (w ++ '.' :: f) = some d := by
      simp [Decimal.ofChars?, takeWhile_append_of_head hw.2 hdot,
        dropWhile_append_of_head hw.2 hdot, hdrop, hw.1, Decimal.exponent?]
    obtain ⟨d, hd⟩ := hchars
    unfold Double.ofText?
    rw [hcs]
    simp only [hsign, hd, Option.map_some]
    split
    · exact ⟨_, rfl⟩
    · split <;> exact ⟨_, rfl⟩

theorem Expr.Prints.derives (h : a.Prints e p ks) :
    Derives e c (.expr (.ofPrecedence p)) ks a := by
  induction h with
  | whole hl hn hmax => exact .ofPrimary (.number (literal_whole hl hn hmax))
  | decimal hl hpoint hv =>
    refine .ofPrimary (.number ⟨?_, hv⟩)
    rw [literalType, if_pos hpoint]
  | var => exact .ofPrimary .var
  | @call e p callee type span args hn hopen hargs ih =>
    refine .ofPrimary (.call (.items_of_rows (n := .expr .expression) fun row hrow => ?_))
    have he := hopen (List.ne_nil_of_mem hrow)
    rw [← Nat.sub_add_cancel he]
    exact .expression (ih row hrow)
  | neg hp _ ih => exact .loosen (q := 4) (.neg ih) hp
  | @binary e p op left right ks ks' type span hp _ _ ihl ihr =>
    rw [Level.ofPrecedence_op] at ihl
    rw [Level.ofPrecedence_succ] at ihr
    refine .loosen ?_ hp
    rw [Level.ofPrecedence_op]
    exact .binary rfl ihl ihr
  | assign _ _ ih => exact .assign (.expression ih)
  | @parens e p a ks _ ih =>
    refine .ofPrimary ?_
    rw [← a.withSpan_span]
    exact .group (.expression ih)

theorem Expr.PrintsAlone.derives (h : a.PrintsAlone e ks) :
    Derives e c (.expr .expression) ks a := by
  obtain ⟨inner, rfl, h⟩ := h
  exact .expression h.derives

end

/-! ### printed programs are derived -/

section
variable {e c : Nat} {ks : List TokenKind}

/-- a conditional that is a whole row of statements -/
theorem Derives.conditional_of_statements {s : Stmt} (hs : s.isConditional = true)
    (h : Derives e c .statements ks [s]) : Derives e c .conditional ks s := by
  cases h with
  | moreStatements h hnil =>
    cases hnil
    rw [List.append_nil]
    cases h with
    | branching h => exact h
    | _ => cases hs

theorem PrintsElse.derives {ss : List Stmt} {ks' : List TokenKind} (h : PrintsElse ss ks ks')
    (hd : Derives e c .statements ks ss) (stop : Span) :
    ∃ stop, Derives e c .alternate ks' (ss, stop) := by
  obtain rfl | ⟨⟨s, rfl, hs⟩, rfl⟩ := h
  · exact ⟨stop, .elseBlock (.block hd)⟩
  · exact ⟨stop, .elseIf (hd.conditional_of_statements hs)⟩

theorem StmtsPrint.derives {ss : List Stmt} (h : StmtsPrint e c ss ks) :
    Derives e c .statements ks ss := by
  induction h with
  | nil => exact .noStatements
  | @declaration c kind type init span ss ks ks' name written hn h _ ih =>
    have hfirst : Derives e c .statement _ (.declaration kind name type init kind.isConst span) :=
      .declaration written h.derives
    simpa using Derives.moreStatements hfirst ih
  | @ret c a span ss ks ks' h _ ih =>
    have hfirst : Derives e c .statement _ (.ret a span) := .ret h.derives
    simpa using Derives.moreStatements hfirst ih
  | @expression c a span ss ks ks' h _ ih =>
    have hfirst : Derives e c .statement _ (.expression a span) := .expressionStmt h.derives
    simpa using Derives.moreStatements hfirst ih
  | @conditional c condition consequent span ss ks ks' ks'' hc _ _ iht ih =>
    have hblock : Derives e c .block _ (consequent, span) := .block iht
    have hfirst : Derives e (c + 1) .statement _ (.conditional condition consequent none span) :=
      .branching (.conditional hc.derives hblock)
    simpa using Derives.moreStatements hfirst ih
  | @conditionalElse c condition consequent alternate span ss ks ks' other other' ks'' hc _ _ ho _
      iht ihf ih =>
    obtain ⟨stop, hother⟩ := ho.derives ihf span
    have hblock : Derives e c .block _ (consequent, span) := .block iht
    have hfirst : Derives e (c + 1) .statement _
        (.conditional condition consequent (some alternate) span) :=
      .branching (.conditionalElse hc.derives hblock hother)
    simpa using Derives.moreStatements hfirst ih

theorem FunctionDecl.Prints.derives {f : FunctionDecl} (h : f.Prints e c ks) :
    Derives e c .function ks f := by
  obtain ⟨body, hbody, rfl⟩ := h.eq
  have hrow : ∀ row ∈ f.params.map fun b => (b, b.tokens), Derives e c .param row.2 row.1 := by
    intro row hrow
    obtain ⟨b, -, rfl⟩ := List.mem_map.1 hrow
    exact .param
  have hparams : Derives e c (.items .param) (commaRow (f.params.map Binding.tokens)) f.params := by
    simpa [Function.comp_def] using Derives.items_of_rows (n := .param) hrow
  obtain ⟨name, params, locals, result, stmts, span⟩ := f
  obtain rfl : locals = stmts.filterMap Stmt.binding? := h.locals
  have hblock : Derives e c .block _ (stmts, span) := .block hbody.derives
  exact .function hparams hblock

/-- **A printed program is derived** from the grammar -/
theorem Program.Prints.derived {p : Program} (h : p.Prints e c ks) : p.Derived e c ks := by
  obtain ⟨rows, hp, hrows, rfl⟩ := h
  unfold Program.Derived
  rw [← hp]
  clear hp
  induction rows with
  | nil => exact .noFunctions
  | cons row rows ih =>
    exact .moreFunctions (hrows row List.mem_cons_self).derives
      (ih fun r hr => hrows r (List.mem_cons_of_mem _ hr))

end

/-! ### reading what is printed -/

/-- **Printing and reading is the identity.**  A well-typed program that is printed within 64 open
expressions and 64 open conditionals, in any way, is read as that program up to spans. -/
theorem SourceFile.parse_of_prints {p : Program} {ks : List TokenKind} {file : SourceFile}
    (ht : p.Typed) (hp : p.Prints 64 64 ks) (hw : Written ks file.text.toList) :
    ∃ q, file.parse = .ok q ∧ q.SameUpToSpans p := by
  obtain ⟨tokens, htokens, hkinds⟩ := written_iff.1 hw
  obtain ⟨q, hq, hsame⟩ := Program.ofTokens_of_derived hkinds hp.derived ht
  have hparse : file.parse = .ok q := by
    rw [parse_of_tokens htokens]
    exact congrArg (Except.mapError file.diagnose) hq
  exact ⟨q, hparse, hsame⟩

/-- a function with all its parts at one place -/
def printedFunction (o : Span) : FunctionDecl :=
  let a := Expr.var "a" .int o
  let b := Expr.var "b" .int o
  let one := Expr.number (.ofNat 1) .int o
  let body : List Stmt :=
    [.declaration .mutable ⟨"b", o⟩ .int (.binary .sub a (.binary .sub one a .int o) .int o)
      false o,
      .conditional (.binary .lt a b .int o) [.ret (.neg (.binary .mul b one .int o) .int o) o]
        (some [.conditional b [.expression (.assign ⟨"b", o⟩ a .int o) o] none o]) o,
      .ret (.binary .add (.binary .mul a (.assign ⟨"b", o⟩ one .int o) .int o) b .int o) o]
  ⟨⟨"f", o⟩, [⟨⟨"a", o⟩, .int⟩], [⟨⟨"b", o⟩, .int⟩], .int, body, o⟩

def printedProgram : Program := ⟨[printedFunction (.point .origin)], .point .origin⟩

def printedFile : SourceFile :=
  ⟨"printed", "function f(a:Int):Int{let b=a-(1-(a)); if((a)<b){return -(b*001);}
else if(b){b=a;} return a*(b=1)+b;}//"⟩

theorem printedFunction_typed (o : Span) : (printedFunction o).Typed .empty := by
  let Γ : Env := .ofParams (printedFunction o).params
  let Γ' : Env := Γ.bind "b" .int
  have ha {Δ} : Expr.Typed Δ Γ (.var "a" .int o) := .var rfl
  have ha' {Δ} : Expr.Typed Δ Γ' (.var "a" .int o) := .var rfl
  have hb {Δ} : Expr.Typed Δ Γ' (.var "b" .int o) := .var rfl
  have hone {Δ Γ} : Expr.Typed Δ Γ (.number (.ofNat 1) .int o) :=
    .number (fun _ => ⟨1, by decide, rfl⟩) (fun h => by cases h)
  refine ⟨by simp [printedFunction], Γ', ?_⟩
  refine .declaration rfl (.arithmetic rfl ha (.arithmetic rfl hone ha)) rfl ?_
  refine .conditional (.comparison rfl ha' hb rfl) rfl
    (.ret (.neg (.arithmetic rfl hb hone)) .nil)
    (.conditional hb rfl (.expression (.assign rfl ha' rfl) .nil) .nil .nil) ?_
  exact .ret (.arithmetic rfl (.arithmetic rfl ha' (.assign rfl hone rfl)) hb) .nil

/-- what the text says, without its gaps -/
def printedKinds : List TokenKind :=
  [.keyword .functionWord, .identifier "f", .symbol .leftParen, .identifier "a", .symbol .colon,
    .keyword .intWord, .symbol .rightParen, .symbol .colon, .keyword .intWord, .symbol .leftBrace,
    .keyword .letWord, .identifier "b", .symbol .assign, .identifier "a", .symbol .minus,
    .symbol .leftParen, .number "1", .symbol .minus, .symbol .leftParen, .identifier "a",
    .symbol .rightParen, .symbol .rightParen, .symbol .semicolon,
    .keyword .ifWord, .symbol .leftParen, .symbol .leftParen, .identifier "a", .symbol .rightParen,
    .symbol .less, .identifier "b", .symbol .rightParen, .symbol .leftBrace, .keyword .returnWord,
    .symbol .minus, .symbol .leftParen, .identifier "b", .symbol .star, .number "001",
    .symbol .rightParen, .symbol .semicolon, .symbol .rightBrace, .keyword .elseWord,
    .keyword .ifWord, .symbol .leftParen, .identifier "b", .symbol .rightParen, .symbol .leftBrace,
    .identifier "b", .symbol .assign, .identifier "a", .symbol .semicolon, .symbol .rightBrace,
    .keyword .returnWord, .identifier "a", .symbol .star, .symbol .leftParen, .identifier "b",
    .symbol .assign, .number "1", .symbol .rightParen, .symbol .plus, .identifier "b",
    .symbol .semicolon, .symbol .rightBrace]

theorem printedFunction_prints (o : Span) : (printedFunction o).Prints 64 64 printedKinds := by
  have hname {c : Char} (hc : isWordStart c = true)
      (hw : ∀ word : Keyword, word.text ≠ String.ofList [c]) : IsName (String.ofList [c]) :=
    ⟨⟨c, [], by simp, hc, by simp⟩, hw⟩
  have hna : IsName "a" := hname (c := 'a') (by decide) (by intro word; cases word <;> decide)
  have hnb : IsName "b" := hname (c := 'b') (by decide) (by intro word; cases word <;> decide)
  have hnf : IsName "f" := hname (c := 'f') (by decide) (by intro word; cases word <;> decide)
  have ha {e p} : Expr.Prints e p (.var "a" .int o) [.identifier "a"] := .var hna
  have hb {e p} : Expr.Prints e p (.var "b" .int o) [.identifier "b"] := .var hnb
  have hone {e p} : Expr.Prints e p (.number (.ofNat 1) .int o) [.number "1"] :=
    .whole ⟨by decide, List.all_eq_true.1 (by decide)⟩ (by decide +kernel) (by decide)
  have hone' {e p} : Expr.Prints e p (.number (.ofNat 1) .int o) [.number "001"] :=
    .whole ⟨by decide, List.all_eq_true.1 (by decide)⟩ (by decide +kernel) (by decide)
  have hbody : StmtsPrint 64 64 (printedFunction o).body _ :=
    .declaration false hnb
      ⟨63, rfl, .binary (by decide) ha (.parens (.binary (by decide) hone (.parens ha)))⟩
      (.conditionalElse ⟨63, rfl, .binary (by decide) (.parens ha) hb⟩
        (.ret ⟨63, rfl, .neg (by decide) (.parens (.binary (by decide) hb hone'))⟩ .nil)
        (.conditional ⟨63, rfl, hb⟩ (.expression ⟨63, rfl, .assign hnb ha⟩ .nil) .nil)
        (.inr ⟨⟨_, rfl, rfl⟩, rfl⟩)
        (.ret ⟨63, rfl, .binary (by decide)
          (.binary (by decide) ha (.parens (.assign hnb hone))) hb⟩ .nil))
  exact ⟨hnf, List.forall_mem_singleton.2 hna, rfl, _, hbody, rfl⟩

/-- The text has parentheses that need not be there, as in `(a) < b`, and others that have to.  A
type is left out, and the alternate is a conditional without braces. -/
theorem SourceFile.parse_of_prints_example :
    printedProgram.Typed ∧ printedProgram.Prints 64 64 printedKinds ∧
      Written printedKinds printedFile.text.toList ∧
      ∃ q, printedFile.parse = .ok q ∧ q.SameUpToSpans printedProgram := by
  have htyped : printedProgram.Typed := by
    intro earlier f later hp
    obtain ⟨rfl, hf⟩ | ⟨-, hf⟩ := List.append_eq_singleton_iff.1 hp.symm <;> cases hf
    exact printedFunction_typed _
  have hprints : printedProgram.Prints 64 64 printedKinds :=
    ⟨[(_, printedKinds)], rfl, List.forall_mem_singleton.2 (printedFunction_prints _),
      (List.append_nil _).symm⟩
  have hwritten : Written printedKinds printedFile.text.toList :=
    SourceFile.written_of_kinds (by decide +kernel)
  exact ⟨htyped, hprints, hwritten, SourceFile.parse_of_prints htyped hprints hwritten⟩

end Wattle
