import Wattle.Json.Reader
import Wattle.Options

/-!
# Options as JSON

A document of options is an object, or an array with the values of the members in order.  What is
missing is off.  In an object other keys may occur with any values; a known key occurs at most once,
and every key has to be a text.
-/

namespace Wattle

namespace Json

/-- a switch among the members of an object, off if it is missing -/
def switch? (key : String) (members : List (Option String × Json)) : Option Bool :=
  match values key members with
  | [] => some false
  | [bool b] => some b
  | _ => none

end Json

namespace EmitOptions

def toJson (o : EmitOptions) : Json :=
  .record [
    ("drop_expression_values", .bool o.dropExpressionValues),
    ("hoist_nested_locals", .bool o.hoistNestedLocals),
    ("convert_mixed_operands", .bool o.convertMixedOperands)]

def ofJson? : Json → Option EmitOptions
  | .object members =>
    if members.all (·.1.isSome) then do
      let drop ← Json.switch? "drop_expression_values" members
      let hoist ← Json.switch? "hoist_nested_locals" members
      let convert ← Json.switch? "convert_mixed_operands" members
      some ⟨drop, hoist, convert⟩
    else none
  | .array [] => some ⟨false, false, false⟩
  | .array [.bool drop] => some ⟨drop, false, false⟩
  | .array [.bool drop, .bool hoist] => some ⟨drop, hoist, false⟩
  | .array [.bool drop, .bool hoist, .bool convert] => some ⟨drop, hoist, convert⟩
  | _ => none

end EmitOptions

namespace CompileOptions

def toJson (o : CompileOptions) : Json := .record [("codegen", o.codegen.toJson)]

def ofJson? : Json → Option CompileOptions
  | .object members =>
    if members.all (·.1.isSome) then
      match Json.values "codegen" members with
      | [] => some plain
      | [codegen] => (EmitOptions.ofJson? codegen).map CompileOptions.mk
      | _ => none
    else none
  | .array [] => some plain
  | .array [codegen] => (EmitOptions.ofJson? codegen).map CompileOptions.mk
  | _ => none

/-- the options of a JSON text -/
def read? (s : String) : Option CompileOptions := (Json.read? s).bind ofJson?

end CompileOptions

end Wattle
