import Wattle.Diagnostic
import Wattle.Lowering
import Wattle.Proofs.Parser.Reads
import Wattle.Proofs.Ranges
import Wattle.Proofs.Token.Lexemes
import Wattle.Proofs.Typing

/-!
# Faults in the text of a program

What each of the faults in names and types means, said of the tokens of a program and without its
parsers.

* `Enters n tokens done m behind`    a part of the kind `n` that starts with `tokens` has a part of
                                     the kind `m` in it, which starts with `behind`.  What stands
                                     between the two starts is complete but for the parts around the
                                     inner one, and `done` are the statements among it;
* `Faulty fs bs m tokens fault`      a part of the kind `m` that starts with `tokens` has a fault,
                                     where the functions `fs` and the variables `bs` are declared;
* `Program.Faulty tokens fault`      some part of a program has it, where the functions are declared
                                     that are complete in front of it, with the parameters and the
                                     variables of its own function that are complete there.
-/

namespace Wattle

/-! ### places of faults -/

/-- the tokens of a file, or the last ones of them -/
structure Lexed (ts : List Token) : Prop extends Ascending ts where
  lexemes : ∀ t ∈ ts, t.kind = .endOfFile ∨ t.kind.IsLexeme
  stop : ∃ t ∈ ts, t.kind = .endOfFile

theorem SourceFile.lexed_of_tokens {file : SourceFile} {tokens : List Token}
    (h : file.tokens = .ok tokens) : Lexed tokens := by
  refine ⟨ascending_tokens h, ?_, ?_⟩ <;>
    obtain ⟨pieces, last, hsplits, rfl⟩ := splits_of_tokens h <;> rw [rowTokens_eq]
  · intro t ht
    obtain ht | ht := List.mem_append.1 ht
    · exact .inr (rowLexemes_isLexeme hsplits _ t ht)
    · exact .inl (congrArg Token.kind (List.mem_singleton.1 ht))
  · exact ⟨_, List.mem_append_right _ List.mem_cons_self, rfl⟩

def Fault.category (fault : Fault) : Category := .ofCode fault.cause.code

/-- a fault stands at a row of some tokens -/
def Fault.Placed (fault : Fault) (tokens : List Token) : Prop :=
  ∃ ts, ts <:+: tokens ∧ fault.span.Covers ts

/-! ### ends of expressions -/

/-- whether an expression of a level goes on with such a token -/
def Level.goesOn : Level → TokenKind → Bool
  | primary, _ | unary, _ => false
  | chain .product, k => (Chain.product.op? k).isSome
  | chain .sum, k => (Chain.product.op? k).isSome || (Chain.sum.op? k).isSome
  | chain .comparison, k => (Chain.product.op? k).isSome || (Chain.sum.op? k).isSome ||
      (Chain.comparison.op? k).isSome
  | assignment, k | expression, k => (Chain.product.op? k).isSome || (Chain.sum.op? k).isSome ||
      (Chain.comparison.op? k).isSome || k == .symbol .assign

theorem Level.goesOn_chain (l : Chain) (k : TokenKind) :
    (chain l).goesOn k = (l.operand.goesOn k || (l.op? k).isSome) := by
  cases l <;> rfl

/-- an expression of a level does not go on with the tokens behind it -/
def Level.Ends (l : Level) (behind : List Token) : Prop :=
  ∀ t ∈ behind.head?, l.goesOn t.kind = false

/-! ### parts of parts -/

open Nonterminal in
inductive Enters : (n : Nonterminal) → List Token → List Stmt → (m : Nonterminal) →
    List Token → Prop
  | here {n tokens} : Enters n tokens [] n tokens
  -- expressions
  | argument {name o p rest done m behind}
      (h : Enters (items (expr .expression)) rest done m behind) :
      Enters (expr .primary) (⟨.identifier name, o⟩ :: ⟨.symbol .leftParen, p⟩ :: rest)
        done m behind
  | group {o rest done m behind} (h : Enters (expr .expression) rest done m behind) :
      Enters (expr .primary) (⟨.symbol .leftParen, o⟩ :: rest) done m behind
  | neg {o rest done m behind} (h : Enters (expr .primary) rest done m behind) :
      Enters (expr .unary) (⟨.symbol .minus, o⟩ :: rest) done m behind
  | unsigned {tokens done m behind} (h : Enters (expr .primary) tokens done m behind) :
      Enters (expr .unary) tokens done m behind
  | operand {l : Chain} {tokens done m behind} (h : Enters (expr l.operand) tokens done m behind) :
      Enters (expr (.chain l)) tokens done m behind
  | binary {l : Chain} {op : BinaryOp} {ts left o rest done m behind} (hop : op.chain = l)
      (hl : Located (expr (.chain l)) ts left) (h : Enters (expr l.operand) rest done m behind) :
      Enters (expr (.chain l)) (ts ++ ⟨.symbol op.symbol, o⟩ :: rest) done m behind
  | unassigned {tokens done m behind}
      (h : Enters (expr (.chain .comparison)) tokens done m behind) :
      Enters (expr .assignment) tokens done m behind
  | assign {name o p rest done m behind} (h : Enters (expr .expression) rest done m behind) :
      Enters (expr .assignment) (⟨.identifier name, o⟩ :: ⟨.symbol .assign, p⟩ :: rest)
        done m behind
  | expression {tokens done m behind} (h : Enters (expr .assignment) tokens done m behind) :
      Enters (expr .expression) tokens done m behind
  -- rows
  | first {n tokens done m behind} (h : Enters n tokens done m behind) :
      Enters (row n) tokens done m behind
  | next {n ts a o rest done m behind} (ha : Located n ts a)
      (h : Enters (row n) rest done m behind) :
      Enters (row n) (ts ++ ⟨.symbol .comma, o⟩ :: rest) done m behind
  | someItems {n tokens done m behind} (h : Enters (row n) tokens done m behind) :
      Enters (items n) tokens done m behind
  -- statements
  | initializer {kind : VarKind} {w name o note type p rest done m behind}
      (hnote : TypeNote note type) (h : Enters (expr .expression) rest done m behind) :
      Enters statement (⟨.keyword kind.keyword, w⟩ :: ⟨.identifier name, o⟩ ::
        (note ++ ⟨.symbol .assign, p⟩ :: rest)) done m behind
  | ret {w rest done m behind} (h : Enters (expr .expression) rest done m behind) :
      Enters statement (⟨.keyword .returnWord, w⟩ :: rest) done m behind
  | branching {tokens done m behind} (h : Enters conditional tokens done m behind) :
      Enters statement tokens done m behind
  | expressionStmt {tokens done m behind} (h : Enters (expr .expression) tokens done m behind) :
      Enters statement tokens done m behind
  | firstStatement {tokens done m behind} (h : Enters statement tokens done m behind) :
      Enters statements tokens done m behind
  | nextStatement {ts s rest done m behind} (hs : Located statement ts s)
      (h : Enters statements rest done m behind) :
      Enters statements (ts ++ rest) (s :: done) m behind
  | block {o rest done m behind} (h : Enters statements rest done m behind) :
      Enters block (⟨.symbol .leftBrace, o⟩ :: rest) done m behind
  -- conditionals
  | condition {w o rest done m behind} (h : Enters (expr .expression) rest done m behind) :
      Enters conditional (⟨.keyword .ifWord, w⟩ :: ⟨.symbol .leftParen, o⟩ :: rest) done m behind
  | consequent {w o ts e c rest done m behind} (he : Located (expr .expression) ts e)
      (h : Enters block rest done m behind) :
      Enters conditional (⟨.keyword .ifWord, w⟩ :: ⟨.symbol .leftParen, o⟩ ::
        (ts ++ ⟨.symbol .rightParen, c⟩ :: rest)) done m behind
  | alternate {w o ts e c us b p rest done m behind} (he : Located (expr .expression) ts e)
      (hb : Located block us b) (h : Enters alternate rest done m behind) :
      Enters conditional (⟨.keyword .ifWord, w⟩ :: ⟨.symbol .leftParen, o⟩ ::
        (ts ++ ⟨.symbol .rightParen, c⟩ :: (us ++ ⟨.keyword .elseWord, p⟩ :: rest)))
        (b.1 ++ done) m behind
  | elseBlock {tokens done m behind} (h : Enters block tokens done m behind) :
      Enters alternate tokens done m behind
  | elseIf {tokens done m behind} (h : Enters conditional tokens done m behind) :
      Enters alternate tokens done m behind

/-! ### faults of parts -/

/-- the last one of some functions that has a name -/
def Latest (fs : List FunctionDecl) (name : String) (f : FunctionDecl) : Prop :=
  ∃ earlier later, fs = earlier ++ f :: later ∧ f.name.name = name ∧
    ∀ g ∈ later, g.name.name ≠ name

section
variable (fs : List FunctionDecl) (bs : List Binding)

/-- an expression stands for a row of tokens, and is well typed -/
structure Stands (l : Level) (ts : List Token) (e : Expr) : Prop where
  located : Located (.expr l) ts e
  typed : e.Typed (.ofFunctions fs) (.ofParams bs)

open Nonterminal in
inductive Faulty : Nonterminal → List Token → Fault → Prop
  /-- a name that no variable has, in front of something other than a parenthesis -/
  | undefinedVariable {name span} {next : Token} {behind} (hname : ∀ b ∈ bs, b.name.name ≠ name)
      (hnext : next.kind ≠ .symbol .leftParen) :
      Faulty (expr .primary) (⟨.identifier name, span⟩ :: next :: behind)
        ⟨.undefinedVariable name, span⟩
  /-- a declaration of a name that a variable has -/
  | variableRedeclared {kind : VarKind} {w name span behind}
      (hname : ∃ b ∈ bs, b.name.name = name) :
      Faulty statement (⟨.keyword kind.keyword, w⟩ :: ⟨.identifier name, span⟩ :: behind)
        ⟨.variableRedeclared name, span⟩
  | wrongArgumentCount {name span o ts args c behind f} (hf : Latest fs name f)
      (hargs : Located (items (expr .expression)) ts args)
      (hcount : f.params.length ≠ args.length) :
      Faulty (expr .primary) (⟨.identifier name, span⟩ :: ⟨.symbol .leftParen, o⟩ ::
          (ts ++ ⟨.symbol .rightParen, c⟩ :: behind))
        ⟨.wrongArgumentCount name f.params.length args.length, span⟩
  /-- the first argument that is not of the type of its parameter, in a call with the right number
  of them -/
  | argumentMismatch {name span o ts c behind f before b after earlier e later}
      (hf : Latest fs name f) (hparams : f.params = before ++ b :: after)
      (hargs : Located (items (expr .expression)) ts (earlier ++ e :: later))
      (htyped : ∀ a ∈ earlier ++ e :: later, Expr.Typed (.ofFunctions fs) (.ofParams bs) a)
      (hcount : f.params.length = (earlier ++ e :: later).length)
      (hbefore : before.map (·.type) = earlier.map Expr.type) (htype : b.type ≠ e.type) :
      Faulty (expr .primary) (⟨.identifier name, span⟩ :: ⟨.symbol .leftParen, o⟩ ::
          (ts ++ ⟨.symbol .rightParen, c⟩ :: behind))
        ⟨.argumentMismatch earlier.length name b.type e.type, e.span⟩
  /-- two operands of different types on both sides of a comparison -/
  | comparisonMismatch {ts left op o us right behind} (hop : op.chain = .comparison)
      (hl : Stands fs bs (.chain .comparison) ts left) (hr : Stands fs bs (.chain .sum) us right)
      (hend : (Level.chain .sum).Ends behind) (htype : left.type ≠ right.type) :
      Faulty (expr (.chain .comparison)) (ts ++ ⟨.symbol op.symbol, o⟩ :: (us ++ behind))
        ⟨.comparisonMismatch left.type right.type op, o⟩
  /-- a value that is not of the type of the variable it is assigned to -/
  | assignmentMismatch {b span o ts e behind} (hb : b ∈ bs) (he : Stands fs bs .expression ts e)
      (hend : Level.expression.Ends behind) (htype : e.type ≠ b.type) :
      Faulty (expr .assignment) (⟨.identifier b.name.name, span⟩ :: ⟨.symbol .assign, o⟩ ::
          (ts ++ behind))
        ⟨.assignmentMismatch e.type b.name.name b.type, e.span⟩
  /-- a value that is not of the type that is written for its variable -/
  | initializerMismatch {kind : VarKind} {w name span o p q ts e behind type}
      (he : Stands fs bs .expression ts e) (hend : Level.expression.Ends behind)
      (htype : type ≠ e.type) :
      Faulty statement (⟨.keyword kind.keyword, w⟩ :: ⟨.identifier name, span⟩ ::
          ⟨.symbol .colon, o⟩ :: ⟨.keyword (DataType.keyword type), p⟩ :: ⟨.symbol .assign, q⟩ ::
            (ts ++ behind))
        ⟨.initializerMismatch name type e.type, e.span⟩
  | nonIntCondition {w o ts e c behind} (he : Stands fs bs .expression ts e)
      (htype : e.type = .double) :
      Faulty conditional (⟨.keyword .ifWord, w⟩ :: ⟨.symbol .leftParen, o⟩ ::
          (ts ++ ⟨.symbol .rightParen, c⟩ :: behind))
        ⟨.nonIntCondition .double, e.span⟩
  /-- digits that spell too large a number -/
  | integerOutOfRange {lexeme span behind} (hdigits : IsDigits lexeme.toList)
      (hvalue : 4294967295 < digitsValue lexeme.toList) :
      Faulty (expr .primary) (⟨.number lexeme, span⟩ :: behind) ⟨.integerOutOfRange lexeme, span⟩

end

/-! ### faults of functions and programs -/

/-- statements that are complete: they are well typed, and their variables are declared behind
them -/
def Complete (fs : List FunctionDecl) (bs : List Binding) (done : List Stmt) : Prop :=
  StmtsTyped (.ofFunctions fs) (.ofParams bs) done (.ofParams (bs ++ Stmt.branchDeclarations done))

/-- the head of a function with some parameters, in front of its body -/
inductive Heads (params : List Binding) (body : List Token) : List Token → Prop
  | intro {w name o p us c m result r} (hparams : Located (.items .param) us params) :
      Heads params body (⟨.keyword .functionWord, w⟩ :: ⟨.identifier name, o⟩ ::
        ⟨.symbol .leftParen, p⟩ :: (us ++ ⟨.symbol .rightParen, c⟩ :: ⟨.symbol .colon, m⟩ ::
          ⟨.keyword (DataType.keyword result), r⟩ :: body))

/-- a function that starts with some tokens has a fault, behind the functions `fs` -/
inductive FunctionDecl.Faulty (fs : List FunctionDecl) : List Token → Fault → Prop
  /-- a parameter with the name of one in front of it -/
  | parameterRedeclared {tokens before b after body} (h : Heads (before ++ b :: after) body tokens)
      (hname : ∃ c ∈ before, c.name.name = b.name.name) :
      Faulty fs tokens ⟨.parameterRedeclared b.name.name, b.name.span⟩
  /-- a fault in the body, behind the parameters and the variables of the complete statements -/
  | body {tokens params body done m behind fault} (h : Heads params body tokens)
      (hnames : (params.map (·.name.name)).Nodup) (hbody : Enters .block body done m behind)
      (hdone : Complete fs params done)
      (hfault : Wattle.Faulty fs (params ++ Stmt.branchDeclarations done) m behind fault) :
      Faulty fs tokens fault

/-- a function behind some that are complete has a fault -/
def Program.Faulty (tokens : List Token) (fault : Fault) : Prop :=
  ∃ front fs behind, tokens = front ++ behind ∧ Located .functions front fs ∧
    (∀ earlier f later, fs = earlier ++ f :: later → f.Typed (.ofFunctions earlier)) ∧
    FunctionDecl.Faulty fs behind fault

/-! ### where faults stand -/

section
variable {fault : Fault} {ts us : List Token}

theorem Fault.Placed.of_infix (h : fault.Placed ts) (hs : ts <:+: us) : fault.Placed us := by
  obtain ⟨vs, hvs, hspan⟩ := h
  exact ⟨vs, hvs.trans hs, hspan⟩

theorem Fault.Placed.of_suffix (h : fault.Placed ts) (hs : ts <:+ us) : fault.Placed us :=
  h.of_infix hs.isInfix

theorem Fault.placed_of_mem {t : Token} (h : fault.span = t.span) (ht : t ∈ ts) :
    fault.Placed ts := by
  obtain ⟨before, behind, rfl⟩ := List.append_of_mem ht
  exact ⟨[t], ⟨before, behind, by simp⟩, h ▸ .single t.kind⟩

theorem Fault.placed_of_covers (before : List Token) {behind : List Token}
    (h : fault.span.Covers ts) : fault.Placed (before ++ (ts ++ behind)) :=
  ⟨ts, List.infix_append' before ts behind, h⟩

/-- parts of a part stand in its row -/
theorem Fault.placed_of_tiles (before : List Token) {behind : List Token} {spans : List Span}
    (h : Tiles ts spans) (hspan : fault.span ∈ spans) :
    fault.Placed (before ++ (ts ++ behind)) := by
  obtain ⟨us, hus, hcovers⟩ := h.exists_covers _ hspan
  exact ⟨us, hus.trans (List.infix_append' before ts behind), hcovers⟩

theorem suffix_of_append (front : List Token) (h : ts <:+ us) : ts <:+ front ++ us :=
  h.trans (List.suffix_append front us)

end

theorem Enters.suffix {n m : Nonterminal} {tokens behind : List Token} {done : List Stmt}
    (h : Enters n tokens done m behind) : behind <:+ tokens := by
  induction h with
  | here => exact List.suffix_refl _
  | argument _ ih | assign _ ih | condition _ ih => exact suffix_of_append [_, _] ih
  | group _ ih | neg _ ih | ret _ ih | block _ ih => exact suffix_of_append [_] ih
  | unsigned _ ih | operand _ ih | unassigned _ ih | expression _ ih | first _ ih
  | someItems _ ih | branching _ ih | expressionStmt _ ih | firstStatement _ ih | elseBlock _ ih
  | elseIf _ ih => exact ih
  | binary _ _ _ ih | next _ _ ih => exact suffix_of_append _ (suffix_of_append [_] ih)
  | nextStatement _ _ ih => exact suffix_of_append _ ih
  | initializer _ _ ih | consequent _ _ ih =>
    exact suffix_of_append [_, _] (suffix_of_append _ (suffix_of_append [_] ih))
  | alternate _ _ _ ih =>
    exact suffix_of_append [_, _] (suffix_of_append _ (suffix_of_append [_]
      (suffix_of_append _ (suffix_of_append [_] ih))))

theorem Enters.trans {n m k : Nonterminal} {tokens behind rest : List Token}
    {done done' : List Stmt} (h : Enters n tokens done m behind)
    (h' : Enters m behind done' k rest) :
    Enters n tokens (done ++ done') k rest := by
  induction h with
  | here => exact h'
  | argument _ ih => exact .argument (ih h')
  | group _ ih => exact .group (ih h')
  | neg _ ih => exact .neg (ih h')
  | unsigned _ ih => exact .unsigned (ih h')
  | operand _ ih => exact .operand (ih h')
  | binary hop hl _ ih => exact .binary hop hl (ih h')
  | unassigned _ ih => exact .unassigned (ih h')
  | assign _ ih => exact .assign (ih h')
  | expression _ ih => exact .expression (ih h')
  | first _ ih => exact .first (ih h')
  | next ha _ ih => exact .next ha (ih h')
  | someItems _ ih => exact .someItems (ih h')
  | initializer hnote _ ih => exact .initializer hnote (ih h')
  | ret _ ih => exact .ret (ih h')
  | branching _ ih => exact .branching (ih h')
  | expressionStmt _ ih => exact .expressionStmt (ih h')
  | firstStatement _ ih => exact .firstStatement (ih h')
  | nextStatement hs _ ih => exact .nextStatement hs (ih h')
  | block _ ih => exact .block (ih h')
  | condition _ ih => exact .condition (ih h')
  | consequent he _ ih => exact .consequent he (ih h')
  | alternate he hb _ ih =>
    rw [List.append_assoc]
    exact .alternate he hb (ih h')
  | elseBlock _ ih => exact .elseBlock (ih h')
  | elseIf _ ih => exact .elseIf (ih h')

/-- the fault of a part stands in the tokens that the part starts with -/
theorem Faulty.placed {fs : List FunctionDecl} {bs : List Binding} {m : Nonterminal}
    {tokens : List Token} {fault : Fault} (h : Faulty fs bs m tokens fault) :
    fault.Placed tokens := by
  cases h with
  | undefinedVariable => exact Fault.placed_of_mem rfl List.mem_cons_self
  | variableRedeclared => exact Fault.placed_of_mem rfl (List.mem_cons_of_mem _ List.mem_cons_self)
  | wrongArgumentCount => exact Fault.placed_of_mem rfl List.mem_cons_self
  | @argumentMismatch name span o ts c _ _ _ _ _ earlier e later _ _ hargs =>
    have htiles := hargs.tiles
    rw [Nonterminal.spans_items_expr] at htiles
    exact Fault.placed_of_tiles [_, _] htiles (by simp)
  | comparisonMismatch =>
    exact Fault.placed_of_mem rfl (List.mem_append_right _ List.mem_cons_self)
  | assignmentMismatch _ he => exact Fault.placed_of_covers [_, _] he.located.covers
  | initializerMismatch he =>
    exact Fault.placed_of_covers [_, _, _, _, _] he.located.covers
  | nonIntCondition he => exact Fault.placed_of_covers [_, _] he.located.covers
  | integerOutOfRange => exact Fault.placed_of_mem rfl List.mem_cons_self

theorem Faulty.category {fs : List FunctionDecl} {bs : List Binding} {m : Nonterminal}
    {tokens : List Token} {fault : Fault} (h : Faulty fs bs m tokens fault) :
    fault.category ∈ [.typing, .reference, .redeclaration] := by
  cases h <;> simp [Fault.category, Category.ofCode, Cause.code]

theorem FunctionDecl.Faulty.placed {fs : List FunctionDecl} {tokens : List Token} {fault : Fault}
    (h : FunctionDecl.Faulty fs tokens fault) : fault.Placed tokens := by
  cases h with
  | parameterRedeclared h =>
    obtain ⟨hparams⟩ := h
    have htiles := hparams.tiles
    rw [Nonterminal.spans_items_param] at htiles
    exact Fault.placed_of_tiles [_, _, _] htiles (by simp)
  | body h _ hbody _ hfault =>
    obtain ⟨-⟩ := h
    exact hfault.placed.of_suffix (hbody.suffix.trans
      (suffix_of_append [_, _, _] (suffix_of_append _ (List.suffix_append [_, _, _] _))))

theorem FunctionDecl.Faulty.category {fs : List FunctionDecl} {tokens : List Token} {fault : Fault}
    (h : FunctionDecl.Faulty fs tokens fault) :
    fault.category ∈ [.typing, .reference, .redeclaration] := by
  cases h with
  | parameterRedeclared => simp [Fault.category, Category.ofCode, Cause.code]
  | body _ _ _ _ hfault => exact hfault.category

theorem Program.Faulty.placed {tokens : List Token} {fault : Fault}
    (h : Program.Faulty tokens fault) : fault.Placed tokens := by
  obtain ⟨front, fs, behind, rfl, -, -, h⟩ := h
  exact h.placed.of_suffix (List.suffix_append ..)

theorem Program.Faulty.category {tokens : List Token} {fault : Fault}
    (h : Program.Faulty tokens fault) : fault.category ∈ [.typing, .reference, .redeclaration] := by
  obtain ⟨_, _, _, -, -, -, h⟩ := h
  exact h.category

end Wattle
