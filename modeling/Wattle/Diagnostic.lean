import Wattle.DataType
import Wattle.Operator
import Wattle.Source
import Wattle.Token

/-!
# Faults and diagnostics

A `Cause` says what is wrong with a program, a `Fault` also where.  A cause has a code and a
message; the code decides the category.  A `Diagnostic` is a fault as it is reported: with its
category, the name of the file and the text of the line.
-/

namespace Wattle

/-! ### causes -/

/-- what can be nested too deeply -/
inductive Nesting where
  | expression
  | conditional
deriving DecidableEq

def Nesting.text : Nesting → String
  | expression => "expression"
  | conditional => "if"

inductive Cause where
  | unexpectedCharacter (c : Char)
  | expectedFunction (got : TokenKind)
  | missingReturnType (function : String) (got : TokenKind)
  | missingParameterType (parameter : String) (got : TokenKind)
  | expectedToken (expected got : TokenKind)
  | expectedIdentifier (got : TokenKind)
  | unknownType (name : String)
  | expectedType (got : TokenKind)
  | malformedNumber (lexeme : String)
  | expectedExpression (got : TokenKind)
  | invalidAssignmentTarget
  | nestingTooDeep (nesting : Nesting) (limit : Nat)
  | comparisonMismatch (left right : DataType) (op : BinaryOp)
  | assignmentMismatch (value : DataType) (name : String) (declared : DataType)
  | initializerMismatch (name : String) (declared found : DataType)
  | wrongArgumentCount (callee : String) (expected found : Nat)
  | argumentMismatch (index : Nat) (callee : String) (expected found : DataType)
  | nonIntCondition (found : DataType)
  | integerOutOfRange (lexeme : String)
  | undefinedVariable (name : String)
  | parameterRedeclared (name : String)
  | variableRedeclared (name : String)
deriving DecidableEq

namespace Cause

def code : Cause → Nat
  | unexpectedCharacter _ => 1
  | expectedFunction _ | missingReturnType _ _ | missingParameterType _ _ | expectedToken _ _
  | expectedIdentifier _ | unknownType _ | expectedType _ | malformedNumber _ => 100
  | expectedExpression _ => 101
  | invalidAssignmentTarget => 102
  | nestingTooDeep _ _ => 103
  | comparisonMismatch _ _ _ | assignmentMismatch _ _ _ | initializerMismatch _ _ _ => 201
  | wrongArgumentCount _ _ _ => 202
  | argumentMismatch _ _ _ _ => 203
  | nonIntCondition _ => 204
  | integerOutOfRange _ => 205
  | undefinedVariable _ => 300
  | parameterRedeclared _ | variableRedeclared _ => 400

private def quoted (s : String) : String := "'" ++ s ++ "'"

def message : Cause → String
  | unexpectedCharacter c => "unexpected character " ++ quoted c.toString
  | expectedFunction got => "expected 'function' at top level, got " ++ quoted got.text
  | missingReturnType function got =>
    "function " ++ quoted function ++ " needs a return type annotation, got " ++ quoted got.text
  | missingParameterType parameter got =>
    "parameter " ++ quoted parameter ++ " needs a type annotation, got " ++ quoted got.text
  | expectedToken expected got => "expected " ++ quoted expected.text ++ ", got " ++ quoted got.text
  | expectedIdentifier got =>
    "expected identifier, got " ++ (if got.isKeyword then "reserved word " else "") ++
      quoted got.text
  | unknownType name => "unknown type " ++ quoted name ++ "; expected 'Int' or 'Double'"
  | expectedType got => "expected type 'Int' or 'Double', got " ++ quoted got.text
  | malformedNumber lexeme => "malformed number " ++ quoted lexeme
  | expectedExpression got => "expected expression, got " ++ quoted got.text
  | invalidAssignmentTarget => "invalid assignment target; only variables can be assigned"
  | nestingTooDeep nesting limit =>
    "maximum " ++ nesting.text ++ " nesting depth is " ++ toString limit
  | comparisonMismatch left right op =>
    "cannot compare " ++ left.text ++ " with " ++ right.text ++ " using " ++ quoted op.text
  | assignmentMismatch value name declared =>
    "cannot assign " ++ value.text ++ " to " ++ quoted name ++ " of type " ++ declared.text
  | initializerMismatch name declared found =>
    "variable " ++ quoted name ++ " is declared as " ++ declared.text ++ " but initialized with " ++
      found.text
  | wrongArgumentCount callee expected found =>
    "function " ++ quoted callee ++ " expects " ++ toString expected ++ " argument(s), found " ++
      toString found
  | argumentMismatch index callee expected found =>
    "argument " ++ toString index ++ " of " ++ quoted callee ++ " must be " ++ expected.text ++
      ", found " ++ found.text
  | nonIntCondition found => "if condition must be Int, found " ++ found.text
  | integerOutOfRange lexeme => "integer literal " ++ quoted lexeme ++ " does not fit in 32 bits"
  | undefinedVariable name => "undefined variable " ++ quoted name
  | parameterRedeclared name => "parameter " ++ quoted name ++ " is already declared"
  | variableRedeclared name => "variable " ++ quoted name ++ " is already declared"

end Cause

structure Fault where
  cause : Cause
  span : Span
deriving DecidableEq

/-! ### categories -/

inductive Category where
  | lexical | syntactic | typing | reference | redeclaration
deriving DecidableEq

namespace Category

def text : Category → String
  | lexical => "lexical"
  | syntactic => "syntax"
  | typing => "type"
  | reference => "reference"
  | redeclaration => "redeclaration"

def all : List Category := [lexical, syntactic, typing, reference, redeclaration]

/-- the category with a given name -/
def ofText? (s : String) : Option Category := all.find? fun c => c.text == s

/-- hundreds of codes share a category; the last one is open above -/
def ofCode (code : Nat) : Category :=
  if code < 100 then lexical
  else if code < 200 then syntactic
  else if code < 300 then typing
  else if code < 400 then reference
  else redeclaration

end Category

/-! ### diagnostics -/

structure Diagnostic where
  file : String
  code : Nat
  category : Category
  message : String
  span : Span
  sourceLine : String
deriving DecidableEq

namespace Diagnostic

/-- a diagnostic whose category is that of its code -/
def new (file : String) (code : Nat) (message : String) (span : Span) (sourceLine : String) :
    Diagnostic :=
  ⟨file, code, .ofCode code, message, span, sourceLine⟩

/-- the letter `E` and the code in at least three digits -/
def codeText (d : Diagnostic) : String :=
  let digits := toString d.code
  "E" ++ String.ofList (List.replicate (3 - digits.length) '0') ++ digits

def text (d : Diagnostic) : String :=
  d.span.text ++ ": " ++ d.codeText ++ " [" ++ d.category.text ++ "] " ++ d.message

end Diagnostic

/-- the report of a fault; a line outside the file is shown empty -/
def SourceFile.diagnose (file : SourceFile) (fault : Fault) : Diagnostic :=
  .new file.name fault.cause.code fault.cause.message fault.span
    ((file.line fault.span.first.line).getD "")

end Wattle
