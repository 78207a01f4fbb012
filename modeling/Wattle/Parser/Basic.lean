import Wattle.Diagnostic
import Wattle.Scope

/-!
# Reading tokens

A `Parser` runs on a `Parser.State`: the tokens still to be read, the names in scope, and how many
expressions and conditionals are open.  It ends with a value or with a fault, and with the state it
has reached in both cases.  Some parsers take a bound on their steps and may run out of it.

Behind the last token the cursor stays where it is and still shows that token, while the tests for
a given kind of token see the end of the file there.
-/

namespace Wattle

/-- how many expressions and conditionals may be open at once, with `none` for any number -/
structure Limits where
  expressions : Option Nat
  conditionals : Option Nat
deriving DecidableEq

namespace Limits

def standard : Limits := ⟨some 64, some 64⟩
def unlimited : Limits := ⟨none, none⟩

end Limits

namespace Parser

/-! ### states -/

structure State where
  /-- the tokens still to be read -/
  rest : List Token
  /-- the token read last -/
  last : Token
  scope : Scope
  functions : FunctionTable
  /-- the number of open expressions -/
  expressions : Nat
  /-- the number of open conditionals -/
  conditionals : Nat
deriving DecidableEq

namespace State

def initial (tokens : List Token) : State where
  rest := tokens
  last := .eof .origin
  scope := .empty
  functions := .empty
  expressions := 0
  conditionals := 0

/-- the token under the cursor -/
def current (s : State) : Token :=
  match s.rest with
  | [] => s.last
  | token :: _ => token

/-- whether a token of the given kind is next -/
def sees (s : State) (kind : TokenKind) : Bool :=
  match s.rest with
  | [] => kind == .endOfFile
  | token :: _ => token.kind == kind

/-- the kind of the token after the next one -/
def ahead (s : State) : TokenKind :=
  match s.rest with
  | _ :: token :: _ => token.kind
  | _ => .endOfFile

def advance (s : State) : State :=
  match s.rest with
  | [] => s
  | token :: rest => { s with rest := rest, last := token }

def depth (s : State) : Nesting → Nat
  | .expression => s.expressions
  | .conditional => s.conditionals

def enter (s : State) : Nesting → State
  | .expression => { s with expressions := s.expressions + 1 }
  | .conditional => { s with conditionals := s.conditionals + 1 }

def leave (s : State) : Nesting → State
  | .expression => { s with expressions := s.expressions - 1 }
  | .conditional => { s with conditionals := s.conditionals - 1 }

end State

/-! ### outcomes -/

inductive Outcome (α : Type) where
  | done (value : α) (state : State)
  | failed (fault : Fault) (state : State)
  | outOfSteps

namespace Outcome

/-- changes the state that was reached -/
def mapState {α : Type} (f : State → State) : Outcome α → Outcome α
  | done a s => done a (f s)
  | failed e s => failed e (f s)
  | outOfSteps => outOfSteps

end Outcome

end Parser

def Parser (α : Type) : Type := Parser.State → Parser.Outcome α

namespace Parser

variable {α β : Type}

instance : Monad Parser where
  pure a s := .done a s
  bind p f s :=
    match p s with
    | .done a s' => f a s'
    | .failed e s' => .failed e s'
    | .outOfSteps => .outOfSteps

theorem pure_apply (a : α) (s : State) : (pure a : Parser α) s = .done a s := rfl

theorem bind_apply (p : Parser α) (f : α → Parser β) (s : State) :
    (p >>= f) s =
      match p s with
      | .done a s' => f a s'
      | .failed e s' => .failed e s'
      | .outOfSteps => .outOfSteps := rfl

/-! ### the cursor -/

def current : Parser Token := fun s => .done s.current s
def sees (kind : TokenKind) : Parser Bool := fun s => .done (s.sees kind) s
def ahead : Parser TokenKind := fun s => .done s.ahead s

/-- reads the token under the cursor -/
def advance : Parser Token := fun s => .done s.current s.advance

def fail (fault : Fault) : Parser α := fun s => .failed fault s

/-- fails at the token under the cursor -/
def failHere (cause : Cause) : Parser α := fun s => .failed ⟨cause, s.current.span⟩ s

def outOfSteps : Parser α := fun _ => .outOfSteps

/-- what has been decided without reading -/
def ofExcept : Except Fault α → Parser α
  | .ok a => pure a
  | .error fault => fail fault

/-- reads a token of the given kind if it is next -/
def eat (kind : TokenKind) : Parser Bool := do
  if ← sees kind then
    let _ ← advance
    pure true
  else pure false

def expect (kind : TokenKind) : Parser Token := do
  if ← sees kind then advance
  else
    let got ← current
    failHere (.expectedToken kind got.kind)

def identifier : Parser Ident := do
  let token ← current
  match token.kind with
  | .identifier name =>
    let token ← advance
    pure ⟨name, token.span⟩
  | got => failHere (.expectedIdentifier got)

/-- the name of a type -/
def typeName : Parser DataType := do
  let token ← current
  match token.kind with
  | .keyword .intWord =>
    let _ ← advance
    pure .int
  | .keyword .doubleWord =>
    let _ ← advance
    pure .double
  | .identifier name => failHere (.unknownType name)
  | got => failHere (.expectedType got)

/-! ### names and nesting -/

def lookup (name : String) : Parser (Option DataType) := fun s => .done (s.scope.lookup name) s

def declare (name : String) (type : DataType) : Parser Unit := fun s =>
  .done () { s with scope := s.scope.declare name type }

def signature? (name : String) : Parser (Option Signature) := fun s =>
  .done (s.functions.get? name) s

def register (name : String) (signature : Signature) : Parser Unit := fun s =>
  .done () { s with functions := s.functions.register name signature }

/-- runs in a scope of its own; the scope outside comes back in any case -/
def inScope (scope : Scope) (p : Parser α) : Parser α := fun s =>
  (p { s with scope := scope }).mapState fun s' => { s' with scope := s.scope }

/-- runs one level deeper, unless the limit of the levels is reached -/
def nested (nesting : Nesting) (limit : Option Nat) (p : Parser α) : Parser α := fun s =>
  match limit with
  | some n =>
    if n ≤ s.depth nesting then failHere (.nestingTooDeep nesting n) s
    else (p (s.enter nesting)).mapState (·.leave nesting)
  | none => (p (s.enter nesting)).mapState (·.leave nesting)

/-! ### rows of items -/

/-- items with commas between them -/
def separated (item : Parser α) : Nat → Parser (List α)
  | 0 => outOfSteps
  | n + 1 => do
    let a ← item
    if ← eat (.symbol .comma) then
      let rest ← separated item n
      pure (a :: rest)
    else pure [a]

/-- items with commas between them, up to a closing parenthesis that may follow at once -/
def items (item : Parser α) (n : Nat) : Parser (List α) := do
  if ← sees (.symbol .rightParen) then pure []
  else separated item n

end Parser

end Wattle
