import Wattle.Diagnostic
import Wattle.Json.Reader

/-!
# Diagnostics as JSON

The document of a diagnostic holds its span beside its other members.  `Diagnostic.ofJson?` reads it
back, each member by itself: the category is any of the five, whatever the code is, the code is a
number of 16 bits, and lines and columns are numbers of 32 bits.
-/

namespace Wattle

/-- a number of so many bits -/
def Json.word? (bits : Nat) (j : Json) : Option Nat := j.nat?.filter (· < 2 ^ bits)

namespace Diagnostic

def toJson (d : Diagnostic) : Json :=
  .record [
    ("file", .text d.file),
    ("code", .nat d.code),
    ("category", .text d.category.text),
    ("message", .text d.message),
    ("line", .nat d.span.first.line),
    ("column", .nat d.span.first.column),
    ("end_line", .nat d.span.last.line),
    ("end_column", .nat d.span.last.column),
    ("source_line", .text d.sourceLine)]

def ofJson? : Json → Option Diagnostic
  | .object members => do
    let file ← (← Json.value? "file" members).text?
    let code ← (← Json.value? "code" members).word? 16
    let category ← Category.ofText? (← (← Json.value? "category" members).text?)
    let message ← (← Json.value? "message" members).text?
    let line ← (← Json.value? "line" members).word? 32
    let column ← (← Json.value? "column" members).word? 32
    let endLine ← (← Json.value? "end_line" members).word? 32
    let endColumn ← (← Json.value? "end_column" members).word? 32
    let sourceLine ← (← Json.value? "source_line" members).text?
    pure ⟨file, code, category, message, ⟨⟨line, column⟩, ⟨endLine, endColumn⟩⟩, sourceLine⟩
  | _ => none

/-- the diagnostic of a JSON text -/
def read? (s : String) : Option Diagnostic := (Json.read? s).bind ofJson?

end Diagnostic

end Wattle
