import Wattle.Number.Decimal
import Wattle.Parser.Basic

/-!
# Reading expressions

From the loosest to the tightest: assignment, which groups to the right, then comparison, sums and
products, which group to the left, then at most one minus sign, then numbers, variables, calls and
parentheses.  Each level takes the parser of the inner expressions as an argument, and `expression`
ties the knot; its argument bounds the steps.  Types are settled while reading.
-/

namespace Wattle

/-! ### deciding types -/

/-- the expression of a number: a spelling with a point is a `Double` -/
def Expr.ofLexeme (lexeme : String) (span : Span) : Except Fault Expr :=
  if '.' ∈ lexeme.toList then
    match Double.ofText? lexeme with
    | some value => .ok (.number value .double span)
    | none => .error ⟨.malformedNumber lexeme, span⟩
  else
    match word? lexeme with
    | some n => .ok (.number (.ofNat n) .int span)
    | none => .error ⟨.integerOutOfRange lexeme, span⟩

namespace Signature

/-- the first argument of a wrong type, counted from `index` -/
def mismatch? (callee : String) : Nat → List DataType → List Expr → Option Fault
  | index, expected :: params, arg :: args =>
    if expected = arg.type then mismatch? callee (index + 1) params args
    else some ⟨.argumentMismatch index callee expected arg.type, arg.span⟩
  | _, _, _ => none

/-- what is wrong with a call; the number of arguments counts before their types -/
def fault? (signature : Signature) (callee : Ident) (args : List Expr) : Option Fault :=
  if signature.params.length ≠ args.length then
    some ⟨.wrongArgumentCount callee.name signature.params.length args.length, callee.span⟩
  else mismatch? callee.name 0 signature.params args

/-- the type of a call; a function that is not declared gives a `Double` -/
def callType (signature : Option Signature) (callee : Ident) (args : List Expr) :
    Except Fault DataType :=
  match signature with
  | none => .ok .double
  | some signature =>
    match signature.fault? callee args with
    | some fault => .error fault
    | none => .ok signature.returnType

end Signature

namespace BinaryOp

def ofComparison? : TokenKind → Option BinaryOp
  | .symbol .equal => some eq
  | .symbol .notEqual => some ne
  | .symbol .less => some lt
  | .symbol .lessEqual => some le
  | .symbol .greater => some gt
  | .symbol .greaterEqual => some ge
  | _ => none

def ofSum? : TokenKind → Option BinaryOp
  | .symbol .plus => some add
  | .symbol .minus => some sub
  | _ => none

def ofProduct? : TokenKind → Option BinaryOp
  | .symbol .star => some mul
  | .symbol .slash => some div
  | _ => none

/-- a comparison, of two operands of one type; a fault stands at the operator -/
def compare (op : BinaryOp) (sign : Span) (left right : Expr) : Except Fault Expr :=
  if left.type = right.type then
    .ok (.binary op left right .int (left.span.merge right.span))
  else .error ⟨.comparisonMismatch left.type right.type op, sign⟩

/-- a sum, a difference, a product or a quotient, of operands of any types -/
def compute (op : BinaryOp) (_sign : Span) (left right : Expr) : Except Fault Expr :=
  .ok (.binary op left right (left.type.join right.type) (left.span.merge right.span))

end BinaryOp

namespace Parser

/-! ### primary expressions -/

def number (lexeme : String) : Parser Expr := do
  let token ← advance
  ofExcept (Expr.ofLexeme lexeme token.span)

def var (name : String) : Parser Expr := do
  let token ← advance
  match ← lookup name with
  | some type => pure (.var name type token.span)
  | none => fail ⟨.undefinedVariable name, token.span⟩

def call (steps : Nat) (expression : Parser Expr) : Parser Expr := do
  let callee ← identifier
  let _ ← expect (.symbol .leftParen)
  let args ← items expression steps
  let close ← expect (.symbol .rightParen)
  let signature ← signature? callee.name
  let type ← ofExcept (Signature.callType signature callee args)
  pure (.call callee args type (callee.span.merge close.span))

/-- an expression in parentheses, whose span includes them -/
def group (expression : Parser Expr) : Parser Expr := do
  let start ← advance
  let inner ← expression
  let close ← expect (.symbol .rightParen)
  pure (inner.withSpan (start.span.merge close.span))

def primary (steps : Nat) (expression : Parser Expr) : Parser Expr := do
  let token ← current
  match token.kind with
  | .number lexeme => number lexeme
  | .identifier name =>
    if (← ahead) = .symbol .leftParen then call steps expression else var name
  | .symbol .leftParen => group expression
  | got => failHere (.expectedExpression got)

/-! ### operators -/

def unary (steps : Nat) (expression : Parser Expr) : Parser Expr := do
  if ← sees (.symbol .minus) then
    let sign ← advance
    let operand ← primary steps expression
    pure (.neg operand operand.type (sign.span.merge operand.span))
  else primary steps expression

/-- goes on behind a left operand for as long as operators of one level follow -/
def chain (op? : TokenKind → Option BinaryOp)
    (build : BinaryOp → Span → Expr → Expr → Except Fault Expr) (operand : Parser Expr) :
    Nat → Expr → Parser Expr
  | 0, _ => outOfSteps
  | n + 1, left => do
    let token ← current
    match op? token.kind with
    | none => pure left
    | some op =>
      let sign ← advance
      let right ← operand
      let e ← ofExcept (build op sign.span left right)
      chain op? build operand n e

def product (steps : Nat) (expression : Parser Expr) : Parser Expr := do
  let left ← unary steps expression
  chain BinaryOp.ofProduct? BinaryOp.compute (unary steps expression) steps left

def sum (steps : Nat) (expression : Parser Expr) : Parser Expr := do
  let left ← product steps expression
  chain BinaryOp.ofSum? BinaryOp.compute (product steps expression) steps left

def comparison (steps : Nat) (expression : Parser Expr) : Parser Expr := do
  let left ← sum steps expression
  chain BinaryOp.ofComparison? BinaryOp.compare (sum steps expression) steps left

/-! ### assignments -/

/-- what follows the target of an assignment; only a variable without parentheses is one -/
def assignTo (expression : Parser Expr) (grouped : Bool) (target : Expr) : Parser Expr :=
  match target, grouped with
  | .var name type span, false => do
    let _ ← advance
    let value ← expression
    if value.type = type then pure (.assign ⟨name, span⟩ value type (span.merge value.span))
    else fail ⟨.assignmentMismatch value.type name type, value.span⟩
  | _, _ => fail ⟨.invalidAssignmentTarget, target.span⟩

def assignment (steps : Nat) (expression : Parser Expr) : Parser Expr := do
  let grouped ← sees (.symbol .leftParen)
  let left ← comparison steps expression
  if ← sees (.symbol .assign) then assignTo expression grouped left else pure left

/-- an expression, one level deeper than what is around it -/
def expression (limit : Option Nat) : Nat → State → Outcome Expr
  | 0, _ => .outOfSteps
  | n + 1, s => nested .expression limit (assignment n (expression limit n)) s

end Parser

end Wattle
