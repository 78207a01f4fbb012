import Wattle.Number.Decimal
import Wattle.Ast
import Wattle.Token

/-!
# The grammar of programs

`Derives e c n kinds a` says that the row `kinds` is the yield of a derivation of the nonterminal
`n`, and that `a` is the part of a tree that this derivation stands for.  Each constructor is a
production.  Parentheses and written types of variables leave no trace in the tree, and an
alternate that is written as one more conditional is the list of just that one.  The grammar says
nothing of the spans and the types in the tree, only of the types of numbers, parameters and
functions, which are written out.

At most `e` more expressions and `c` more conditionals are open at once in such a derivation:
`expression` is what stands in a statement, in parentheses, as an argument or behind `=`.
-/

namespace Wattle

/-! ### spellings -/

/-- the symbol of an operator -/
def BinaryOp.symbol : BinaryOp → Symbol
  | .add => .plus
  | .sub => .minus
  | .mul => .star
  | .div => .slash
  | .eq => .equal
  | .ne => .notEqual
  | .lt => .less
  | .le => .lessEqual
  | .gt => .greater
  | .ge => .greaterEqual

/-- the word of a type -/
def DataType.keyword : DataType → Keyword
  | .int => .intWord
  | .double => .doubleWord

/-- the word that declares a variable -/
def VarKind.keyword : VarKind → Keyword
  | .mutable => .letWord
  | .constant => .constWord

/-- the type of a number: `Double` for a spelling with a point -/
def literalType (lexeme : String) : DataType := if '.' ∈ lexeme.toList then .double else .int

/-- `lexeme` spells a value of a type -/
def Literal (lexeme : String) (value : Double) (type : DataType) : Prop :=
  type = literalType lexeme ∧
    match type with
    | .double => Double.ofText? lexeme = some value
    | .int => ∃ n, word? lexeme = some n ∧ value = .ofNat n

/-! ### nonterminals -/

/-- the levels of operators that group to the left, from the loosest to the tightest -/
inductive Chain where
  | comparison | sum | product
deriving DecidableEq

def BinaryOp.chain : BinaryOp → Chain
  | .add | .sub => .sum
  | .mul | .div => .product
  | .eq | .ne | .lt | .le | .gt | .ge => .comparison

inductive Level where
  | primary | unary
  | chain (c : Chain)
  | assignment
  | expression
deriving DecidableEq

/-- the level of the operands of a chain -/
def Chain.operand : Chain → Level
  | comparison => .chain .sum
  | sum => .chain .product
  | product => .unary

inductive Nonterminal where
  | expr (level : Level)
  | param
  /-- one or more, with commas between them -/
  | row (item : Nonterminal)
  /-- a row, or nothing -/
  | items (item : Nonterminal)
  | statement | statements | block | conditional | alternate
  | function | functions

namespace Nonterminal

/-- what a derivation stands for; a block has a span of its own -/
abbrev Value : Nonterminal → Type
  | expr _ => Expr
  | param => Binding
  | row item => List item.Value
  | items item => List item.Value
  | statement | conditional => Stmt
  | statements => List Stmt
  | block | alternate => List Stmt × Span
  | function => FunctionDecl
  | functions => List FunctionDecl

end Nonterminal

/-! ### productions -/

/-- a type behind a colon -/
def typeMark (type : DataType) : List TokenKind := [.symbol .colon, .keyword type.keyword]

/-- the type of a variable may be written or left out -/
def typeNote (written : Bool) (type : DataType) : List TokenKind :=
  if written then typeMark type else []

open Nonterminal in
inductive Derives : Nat → Nat → (n : Nonterminal) → List TokenKind → n.Value → Prop
  -- primary expressions
  | number {e c lexeme value type span} (h : Literal lexeme value type) :
      Derives e c (expr .primary) [.number lexeme] (Expr.number value type span)
  | var {e c name type span} :
      Derives e c (expr .primary) [.identifier name] (Expr.var name type span)
  | call {e c ks args type span} {callee : Ident}
      (hargs : Derives e c (items (expr .expression)) ks args) :
      Derives e c (expr .primary)
        (.identifier callee.name :: .symbol .leftParen :: (ks ++ [.symbol .rightParen]))
        (Expr.call callee args type span)
  | group {e c ks span} {a : Expr} (h : Derives e c (expr .expression) ks a) :
      Derives e c (expr .primary) (.symbol .leftParen :: (ks ++ [.symbol .rightParen]))
        (a.withSpan span)
  -- operators
  | neg {e c ks a type span} (h : Derives e c (expr .primary) ks a) :
      Derives e c (expr .unary) (.symbol .minus :: ks) (Expr.neg a type span)
  | unsigned {e c ks a} (h : Derives e c (expr .primary) ks a) : Derives e c (expr .unary) ks a
  | operand {e c ks a} {l : Chain} (h : Derives e c (expr l.operand) ks a) :
      Derives e c (expr (.chain l)) ks a
  | binary {e c ks ks' left right type span} {l : Chain} {op : BinaryOp} (hop : op.chain = l)
      (hl : Derives e c (expr (.chain l)) ks left) (hr : Derives e c (expr l.operand) ks' right) :
      Derives e c (expr (.chain l)) (ks ++ .symbol op.symbol :: ks')
        (Expr.binary op left right type span)
  -- assignments
  | unassigned {e c ks a} (h : Derives e c (expr (.chain .comparison)) ks a) :
      Derives e c (expr .assignment) ks a
  | assign {e c ks name place value type span} (h : Derives e c (expr .expression) ks value) :
      Derives e c (expr .assignment) (.identifier name :: .symbol .assign :: ks)
        (Expr.assign ⟨name, place⟩ value type span)
  | expression {e c ks a} (h : Derives e c (expr .assignment) ks a) :
      Derives (e + 1) c (expr .expression) ks a
  -- rows
  | single {e c n ks a} (h : Derives e c n ks a) : Derives e c (row n) ks [a]
  | cons {e c n ks ks' a as} (h : Derives e c n ks a) (hs : Derives e c (row n) ks' as) :
      Derives e c (row n) (ks ++ .symbol .comma :: ks') (a :: as)
  | noItems {e c n} : Derives e c (items n) [] []
  | someItems {e c n ks as} (h : Derives e c (row n) ks as) : Derives e c (items n) ks as
  -- statements
  | declaration {e c ks kind type init span} {name : Ident} (written : Bool)
      (h : Derives e c (expr .expression) ks init) :
      Derives e c statement
        (.keyword kind.keyword :: .identifier name.name ::
          (typeNote written type ++ .symbol .assign :: (ks ++ [.symbol .semicolon])))
        (Stmt.declaration kind name type init kind.isConst span)
  | ret {e c ks a span} (h : Derives e c (expr .expression) ks a) :
      Derives e c statement (.keyword .returnWord :: (ks ++ [.symbol .semicolon]))
        (Stmt.ret a span)
  | branching {e c ks s} (h : Derives e c conditional ks s) : Derives e c statement ks s
  | expressionStmt {e c ks a span} (h : Derives e c (expr .expression) ks a) :
      Derives e c statement (ks ++ [.symbol .semicolon]) (Stmt.expression a span)
  | noStatements {e c} : Derives e c statements [] []
  | moreStatements {e c ks ks' s ss} (h : Derives e c statement ks s)
      (hs : Derives e c statements ks' ss) : Derives e c statements (ks ++ ks') (s :: ss)
  | block {e c ks ss span} (h : Derives e c statements ks ss) :
      Derives e c block (.symbol .leftBrace :: (ks ++ [.symbol .rightBrace])) (ss, span)
  -- conditionals
  | conditional {e c ks ks' condition ss stop span}
      (hc : Derives e c (expr .expression) ks condition) (ht : Derives e c block ks' (ss, stop)) :
      Derives e (c + 1) conditional
        (.keyword .ifWord :: .symbol .leftParen :: (ks ++ .symbol .rightParen :: ks'))
        (Stmt.conditional condition ss none span)
  | conditionalElse {e c ks ks' ks'' condition ss ss' stop stop' span}
      (hc : Derives e c (expr .expression) ks condition) (ht : Derives e c block ks' (ss, stop))
      (hf : Derives e c alternate ks'' (ss', stop')) :
      Derives e (c + 1) conditional
        (.keyword .ifWord :: .symbol .leftParen ::
          (ks ++ .symbol .rightParen :: (ks' ++ .keyword .elseWord :: ks'')))
        (Stmt.conditional condition ss (some ss') span)
  | elseBlock {e c ks b} (h : Derives e c block ks b) : Derives e c alternate ks b
  | elseIf {e c ks s stop} (h : Derives e c conditional ks s) :
      Derives e c alternate ks ([s], stop)
  -- functions
  | param {e c} {b : Binding} :
      Derives e c param (.identifier b.name.name :: typeMark b.type) b
  | function {e c ks ks' params body stop result span} {name : Ident}
      (hp : Derives e c (items param) ks params) (hb : Derives e c block ks' (body, stop)) :
      Derives e c function
        (.keyword .functionWord :: .identifier name.name :: .symbol .leftParen ::
          (ks ++ .symbol .rightParen :: (typeMark result ++ ks')))
        (⟨name, params, body.filterMap Stmt.binding?, result, body, span⟩ : FunctionDecl)
  | noFunctions {e c} : Derives e c functions [] []
  | moreFunctions {e c ks ks' f fs} (h : Derives e c function ks f)
      (hs : Derives e c functions ks' fs) : Derives e c functions (ks ++ ks') (f :: fs)

/-- `kinds` is the yield of a derivation of the program, within the given numbers of open
expressions and conditionals -/
def Program.Derived (e c : Nat) (kinds : List TokenKind) (p : Program) : Prop :=
  Derives e c .functions kinds p.functions

end Wattle
