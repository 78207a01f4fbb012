import Wattle.Parser.Stmt
import Wattle.Token.Scan

/-!
# Reading programs

A function can be called by the functions behind it: its signature is registered when its body has
been read.  As with statements, the parsers take those of the inner parts as arguments.
`Program.ofTokens` reads a whole row of tokens, and `SourceFile.parse` a whole text.
-/

namespace Wattle

namespace Parser

def param : Parser Binding := do
  let name ← identifier
  if ← eat (.symbol .colon) then
    let type ← typeName
    pure ⟨name, type⟩
  else
    let got ← current
    failHere (.missingParameterType name.name got.kind)

/-- the type behind the parameters of a function -/
def returnType (name : String) : Parser DataType := do
  if ← eat (.symbol .colon) then typeName
  else
    let got ← current
    failHere (.missingReturnType name got.kind)

/-- the scope of a function's body before its first statement -/
def paramScope (params : List Binding) : Except Fault Scope :=
  match Scope.empty.declareAll params with
  | .ok scope => .ok scope
  | .error name => .error ⟨.parameterRedeclared name.name, name.span⟩

/-- a function behind its first word -/
def functionTail (steps : Nat) (statement : Parser Stmt) (word : Token) :
    Parser FunctionDecl := do
  let name ← identifier
  let _ ← expect (.symbol .leftParen)
  let params ← items param steps
  let _ ← expect (.symbol .rightParen)
  let returnType ← returnType name.name
  let scope ← ofExcept (paramScope params)
  let (body, stop) ← inScope scope (block steps statement)
  pure ⟨name, params, body.filterMap Stmt.binding?, returnType, body, word.span.merge stop⟩

def functionOf (steps : Nat) (statement : Parser Stmt) : Parser FunctionDecl := do
  let word ← advance
  let decl ← functionTail steps statement word
  register decl.name.name decl.signature
  pure decl

/-- functions up to the end of the file -/
def functionsOf (function : Parser FunctionDecl) : Nat → Parser (List FunctionDecl)
  | 0 => outOfSteps
  | n + 1 => do
    if ← sees .endOfFile then pure []
    else if ← sees (.keyword .functionWord) then
      let first ← function
      let rest ← functionsOf function n
      pure (first :: rest)
    else
      let got ← current
      failHere (.expectedFunction got.kind)

def programOf (steps : Nat) (function : Parser FunctionDecl) : Parser Program := do
  let start ← current
  let decls ← functionsOf function steps
  let stop ← current
  pure ⟨decls, start.span.merge stop.span⟩

def function (limits : Limits) (steps : Nat) : Parser FunctionDecl :=
  functionOf steps
    (statement (expression limits.expressions steps) (conditional limits steps))

def functions (limits : Limits) (steps : Nat) : Nat → Parser (List FunctionDecl) :=
  functionsOf (function limits steps)

def program (limits : Limits) (steps : Nat) : Parser Program :=
  programOf steps (function limits steps)

/-- steps enough for any row of so many tokens: each round of a loop reads a token, and behind the
last one only the limits end a row of parentheses -/
def stepBound (limits : Limits) (tokens : Nat) : Nat :=
  2 * tokens + limits.expressions.getD tokens + limits.conditionals.getD tokens + 4

end Parser

/-- reads a program, with a bound on the steps -/
def Program.run (limits : Limits) (steps : Nat) (tokens : List Token) : Parser.Outcome Program :=
  Parser.program limits steps (.initial tokens)

/-- the program of a row of tokens, or the first fault in it.  The bound is never reached within
the standard limits. -/
def Program.ofTokens (limits : Limits) (tokens : List Token) : Except Fault Program :=
  match Program.run limits (Parser.stepBound limits tokens.length) tokens with
  | .done program _ => .ok program
  | .failed fault _ => .error fault
  | .outOfSteps => .error ⟨.nestingTooDeep .expression tokens.length, .point .origin⟩

/-- the program of a text, or the first fault in it -/
def SourceFile.parse (file : SourceFile) : Except Diagnostic Program :=
  match file.tokens with
  | .error fault => .error (file.diagnose fault)
  | .ok tokens =>
    match Program.ofTokens .standard tokens with
    | .error fault => .error (file.diagnose fault)
    | .ok program => .ok program

end Wattle
