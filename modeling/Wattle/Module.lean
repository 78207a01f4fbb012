import Wattle.Lowering

/-!
# Modules

A module is what a program is lowered to: for each function its parameters, its result, its
variables and its code.  `Module.text` is its text form, in which every function is also exported
under its own name.
-/

namespace Wattle

/-- a variable of the machine: a name and a type -/
structure Slot where
  name : String
  type : DataType
deriving DecidableEq

def Binding.slot (b : Binding) : Slot := ⟨b.name.name, b.type⟩

structure Func where
  name : String
  params : List Slot
  result : DataType
  locals : List Slot
  body : List Instr

structure Module where
  funcs : List Func

/-! ### from programs -/

/-- the variables that are declared for a function -/
def FunctionDecl.slots (options : EmitOptions) (f : FunctionDecl) : List Slot :=
  (if options.hoistNestedLocals then Stmt.branchDeclarations f.body else f.locals).map Binding.slot

def FunctionDecl.lower (options : EmitOptions) (f : FunctionDecl) : Func where
  name := f.name.name
  params := f.params.map Binding.slot
  result := f.returnType
  locals := f.slots options
  body := Stmt.bodyCode options f.body

def Program.lower (options : EmitOptions) (p : Program) : Module :=
  ⟨p.functions.map (·.lower options)⟩

/-! ### the text form -/

/-- a declaration of a parameter or a variable -/
def Slot.text (word : String) (s : Slot) : String :=
  "(" ++ word ++ " $" ++ s.name ++ " " ++ s.type.machineText ++ ")"

namespace Func

/-- the parts of a function, its whole code being the last one -/
def parts (f : Func) : List String :=
  ("$" ++ f.name) :: f.params.map (Slot.text "param") ++
    ("(result " ++ f.result.machineText ++ ")") :: f.locals.map (Slot.text "local") ++
    if f.body.isEmpty then [] else ["\n".intercalate (Instr.texts f.body)]

def text (f : Func) : String := "(func " ++ " ".intercalate f.parts ++ ")"

def exportText (f : Func) : String :=
  "(export \"" ++ f.name ++ "\" (func $" ++ f.name ++ "))"

end Func

def Module.text (m : Module) : String :=
  if m.funcs.isEmpty then "(module)"
  else
    "(module\n" ++ "\n".intercalate (m.funcs.map Func.text) ++ "\n" ++
      "\n".intercalate (m.funcs.map Func.exportText) ++ "\n)"

/-- the module text of a program -/
def Program.moduleText (options : EmitOptions) (p : Program) : String := (p.lower options).text

end Wattle
