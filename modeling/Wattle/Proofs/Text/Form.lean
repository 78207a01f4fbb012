import Wattle.Module
import Wattle.Proofs.Text.SExpr

/-!
# Reading module texts

What a module text says, read off its S-expression without regard to how it was written: the
functions in order, each with its parameters, result, variables and code, and the exports.  The
expression is read from the inside: `Form` is what an expression says by itself, and
`Form.ofList?` finds out what a list says from what is in it.  In a row of instructions a word may
be followed by its operand, and a conditional is one instruction with the code of its branches.

The number of arguments of a call is not written, and is read as `0` throughout.
-/

namespace Wattle

/-! ### words -/

namespace Word

/-- a name of a function or of a variable -/
def name? (s : String) : Option String :=
  match s.toList with
  | '$' :: cs => some (String.ofList cs)
  | _ => none

/-- a name in quotes -/
def quoted? (s : String) : Option String :=
  match s.toList with
  | '"' :: cs => if cs.getLast? = some '"' then some (String.ofList cs.dropLast) else none
  | _ => none

def type? (s : String) : Option DataType :=
  if s = "i32" then some .int else if s = "f64" then some .double else none

/-- digits, behind a minus sign or none -/
def int? (s : String) : Option Int :=
  match s.toList with
  | '-' :: cs => if cs.isEmpty || !cs.all Char.isDigit then none else some (-digitsValue cs)
  | cs => if cs.isEmpty || !cs.all Char.isDigit then none else some (digitsValue cs)

def operators : List BinaryOp := [.add, .sub, .mul, .div, .eq, .ne, .lt, .le, .gt, .ge]

/-- an operator and the type of its operands -/
def binary? (s : String) : Option (BinaryOp × DataType) :=
  (operators.flatMap fun op => [(op, .int), (op, .double)]).find? fun p => p.1.opcode p.2 == s

/-- an instruction of one word -/
def bare? (s : String) : Option Instr :=
  if s = "drop" then some .drop
  else if s = "f64.convert_i32_s" then some .convert
  else (binary? s).map fun p => .binary p.1 p.2

/-- an instruction of two words -/
def withOperand? (s operand : String) : Option Instr :=
  if s = "i32.const" then (int? operand).map .intConst
  else if s = "f64.const" then
    if operand = "0" then some .doubleZero else (Double.ofText? operand).map .doubleConst
  else if s = "local.get" then (name? operand).map .localGet
  else if s = "local.set" then (name? operand).map .localSet
  else if s = "call" then (name? operand).map fun callee => .call callee 0
  else none

end Word

/-! ### forms -/

/-- what a module text says: the functions, and the names under which functions are exported -/
structure Listing where
  funcs : List Func
  /-- each with the name of the function that is exported -/
  exports : List (String × String)

/-- what an expression of a module text says by itself -/
inductive Form where
  | word (text : String)
  | instr (i : Instr)
  | consequent (code : List Instr)
  | alternate (code : List Instr)
  | param (s : Slot)
  | result (type : DataType)
  | localVar (s : Slot)
  | func (f : Func)
  | funcName (name : String)
  | exported (name target : String)
  | module (m : Listing)

namespace Form

/-! ### instructions -/

/-- the code in a row of forms, behind a word that needs an operand -/
def code? : Option String → List Form → Option (List Instr)
  | none, [] => some []
  | none, instr i :: fs => (code? none fs).map (i :: ·)
  | none, word s :: fs =>
    match Word.bare? s with
    | some i => (code? none fs).map (i :: ·)
    | none => code? (some s) fs
  | some s, word operand :: fs =>
    match Word.withOperand? s operand with
    | some i => (code? none fs).map (i :: ·)
    | none => none
  | _, _ => none

def conditional? : List Form → Option Instr
  | [consequent code] => some (.conditional code none)
  | [consequent code, alternate other] => some (.conditional code (some other))
  | _ => none

/-! ### functions and modules -/

/-- the forms at the front that `f` makes something of, and the others -/
def splitWhile {α : Type} (f : Form → Option α) : List Form → List α × List Form
  | [] => ([], [])
  | form :: forms =>
    match f form with
    | none => ([], form :: forms)
    | some a => (a :: (splitWhile f forms).1, (splitWhile f forms).2)

def param? : Form → Option Slot
  | param s => some s
  | _ => none

def localVar? : Form → Option Slot
  | localVar s => some s
  | _ => none

def func? : Form → Option Func
  | func f => some f
  | _ => none

def exported? : Form → Option (String × String)
  | exported name target => some (name, target)
  | _ => none

def slot? : List Form → Option Slot
  | [word name, word type] => (Word.name? name).bind fun name => (Word.type? type).map (⟨name, ·⟩)
  | _ => none

def result? : List Form → Option DataType
  | [word type] => Word.type? type
  | _ => none

/-- a function from what stands behind its name -/
def ofParts? (name : String) (parts : List Form) : Option Func :=
  match splitWhile param? parts with
  | (params, result type :: parts) =>
    match splitWhile localVar? parts with
    | (locals, code) => (code? none code).map fun body => ⟨name, params, type, locals, body⟩
  | _ => none

/-- a function, or the name of one -/
def funcOrName? : List Form → Option Form
  | [word name] => (Word.name? name).map funcName
  | word name :: parts => (Word.name? name).bind fun name => (ofParts? name parts).map func
  | _ => none

def export? : List Form → Option Form
  | [word name, funcName target] => (Word.quoted? name).map (exported · target)
  | _ => none

/-- a module from its functions and exports -/
def listing? (parts : List Form) : Option Listing :=
  match splitWhile func? parts with
  | (funcs, parts) =>
    match splitWhile exported? parts with
    | (exports, []) => some ⟨funcs, exports⟩
    | _ => none

/-! ### lists -/

/-- what a list says -/
def ofList? : List Form → Option Form
  | word head :: fs =>
    if head = "then" then (code? none fs).map consequent
    else if head = "else" then (code? none fs).map alternate
    else if head = "if" then (conditional? fs).map instr
    else if head = "param" then (slot? fs).map param
    else if head = "local" then (slot? fs).map localVar
    else if head = "result" then (result? fs).map result
    else if head = "func" then funcOrName? fs
    else if head = "export" then export? fs
    else if head = "module" then (listing? fs).map module
    else none
  | _ => none

mutual

def ofSExpr? : SExpr → Option Form
  | .atom text => some (word text)
  | .list es =>
    match ofSExprs? es with
    | some fs => ofList? fs
    | none => none

def ofSExprs? : List SExpr → Option (List Form)
  | [] => some []
  | e :: es =>
    match ofSExpr? e, ofSExprs? es with
    | some f, some fs => some (f :: fs)
    | _, _ => none

end

end Form

/-- what a module text says, if it is one -/
def Listing.ofText? (s : String) : Option Listing :=
  match (SExpr.ofText? s).bind Form.ofSExpr? with
  | some (.module m) => some m
  | _ => none

end Wattle
