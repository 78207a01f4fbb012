import Wattle.Parser.Expr

/-!
# Reading statements

A variable is in scope behind the semicolon of its declaration, and stays so to the end of its
function.  As with expressions, the parsers take those of the inner parts as arguments, and
`conditional` ties the knot.
-/

namespace Wattle.Parser

/-! ### simple statements -/

/-- the type of a variable: that of its value, which a written type has to agree with -/
def declaredType (name : String) (written : Option DataType) (value : Expr) :
    Except Fault DataType :=
  match written with
  | none => .ok value.type
  | some declared =>
    if declared = value.type then .ok declared
    else .error ⟨.initializerMismatch name declared value.type, value.span⟩

/-- a type behind a colon, if there is a colon -/
def writtenType : Parser (Option DataType) := do
  if ← eat (.symbol .colon) then
    let type ← typeName
    pure (some type)
  else pure none

def declaration (expression : Parser Expr) : Parser Stmt := do
  let word ← advance
  let kind := if word.kind = .keyword .constWord then VarKind.constant else VarKind.mutable
  let name ← identifier
  if (← lookup name.name).isSome then fail ⟨.variableRedeclared name.name, name.span⟩
  else
    let written ← writtenType
    let _ ← expect (.symbol .assign)
    let value ← expression
    let type ← ofExcept (declaredType name.name written value)
    let stop ← expect (.symbol .semicolon)
    declare name.name type
    pure (.declaration kind name type value kind.isConst (word.span.merge stop.span))

def ret (expression : Parser Expr) : Parser Stmt := do
  let word ← advance
  let argument ← expression
  let stop ← expect (.symbol .semicolon)
  pure (.ret argument (word.span.merge stop.span))

def expressionStmt (expression : Parser Expr) : Parser Stmt := do
  let e ← expression
  let stop ← expect (.symbol .semicolon)
  pure (.expression e (e.span.merge stop.span))

def statement (expression : Parser Expr) (conditional : Parser Stmt) : Parser Stmt := do
  let token ← current
  match token.kind with
  | .keyword .letWord | .keyword .constWord => declaration expression
  | .keyword .returnWord => ret expression
  | .keyword .ifWord => conditional
  | _ => expressionStmt expression

/-! ### blocks and conditionals -/

/-- statements up to a closing brace or the end of the file -/
def statements (statement : Parser Stmt) : Nat → Parser (List Stmt)
  | 0 => outOfSteps
  | n + 1 => do
    if ← sees (.symbol .rightBrace) then pure []
    else if ← sees .endOfFile then pure []
    else
      let first ← statement
      let rest ← statements statement n
      pure (first :: rest)

/-- statements in braces, with the span from brace to brace -/
def block (steps : Nat) (statement : Parser Stmt) : Parser (List Stmt × Span) := do
  let start ← expect (.symbol .leftBrace)
  let body ← statements statement steps
  let stop ← expect (.symbol .rightBrace)
  pure (body, start.span.merge stop.span)

/-- what stands behind `else`: a block, or one more conditional -/
def alternate (steps : Nat) (expression : Parser Expr) (conditional : Parser Stmt) :
    Parser (List Stmt × Span) := do
  if ← sees (.keyword .ifWord) then
    let inner ← conditional
    pure ([inner], inner.span)
  else block steps (statement expression conditional)

/-- a conditional behind its first word -/
def conditionalTail (steps : Nat) (expression : Parser Expr) (conditional : Parser Stmt)
    (word : Token) : Parser Stmt := do
  let _ ← expect (.symbol .leftParen)
  let condition ← expression
  let _ ← expect (.symbol .rightParen)
  if condition.type = .int then
    let (consequent, stop) ← block steps (statement expression conditional)
    let span := word.span.merge stop
    if ← eat (.keyword .elseWord) then
      let (other, stop) ← alternate steps expression conditional
      pure (.conditional condition consequent (some other) (span.merge stop))
    else pure (.conditional condition consequent none span)
  else fail ⟨.nonIntCondition condition.type, condition.span⟩

def conditionalBody (steps : Nat) (expression : Parser Expr) (conditional : Parser Stmt) :
    Parser Stmt := do
  let word ← advance
  conditionalTail steps expression conditional word

/-- a conditional, one level deeper than what is around it -/
def conditional (limits : Limits) : Nat → State → Outcome Stmt
  | 0, _ => .outOfSteps
  | n + 1, s =>
    nested .conditional limits.conditionals
      (conditionalBody n (expression limits.expressions n) (conditional limits n)) s

end Wattle.Parser
