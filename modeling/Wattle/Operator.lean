/-!
# Binary operators

Four operators compute and six compare.  A comparison gives an `Int` whatever it compares.
-/

namespace Wattle

inductive BinaryOp where
  | add | sub | mul | div
  | eq | ne | lt | le | gt | ge
deriving DecidableEq

namespace BinaryOp

/-- the operator as it is written -/
def text : BinaryOp → String
  | add => "+"
  | sub => "-"
  | mul => "*"
  | div => "/"
  | eq => "=="
  | ne => "!="
  | lt => "<"
  | le => "<="
  | gt => ">"
  | ge => ">="

def isComparison : BinaryOp → Bool
  | add | sub | mul | div => false
  | eq | ne | lt | le | gt | ge => true

end BinaryOp

end Wattle
