/-!
# Options

Three switches, each off by default, make the emitted code acceptable to a strict validator at the
price of more instructions.
-/

namespace Wattle

structure EmitOptions where
  /-- drop the values of expression statements, other than assignments and the last statement of a
  function -/
  dropExpressionValues : Bool
  /-- declare the variables of conditionals too -/
  hoistNestedLocals : Bool
  /-- convert the `Int` operands of operators on `Double` -/
  convertMixedOperands : Bool
deriving DecidableEq

namespace EmitOptions

def plain : EmitOptions := ⟨false, false, false⟩
def strict : EmitOptions := ⟨true, true, true⟩

end EmitOptions

/-- the options of a whole compilation -/
structure CompileOptions where
  codegen : EmitOptions
deriving DecidableEq

def CompileOptions.plain : CompileOptions := ⟨.plain⟩

end Wattle
