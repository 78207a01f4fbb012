import Wattle.Report
import Wattle.Proofs.Printing
import Wattle.Proofs.Lowering.Preservation
import Wattle.Proofs.Lowering.StackHeight
import Wattle.Proofs.Lowering.Validity
import Wattle.Proofs.Joining
import Wattle.Proofs.Lowering.Insertions
import Wattle.Proofs.Lowering.Variables
import Wattle.Proofs.Text.ReadBack
import Wattle.Proofs.LineEnds
import Wattle.Proofs.Token.Positions
import Wattle.Proofs.Height
import Wattle.Proofs.Parser.Nesting
import Wattle.Proofs.Parser.MissingEnd
import Wattle.Proofs.Diagnosis
import Wattle.Proofs.Parser.Renaming
import Wattle.Proofs.Token.Joining
import Wattle.Proofs.Numerals
import Wattle.Proofs.Json.Program
import Wattle.Proofs.Json.Options
import Wattle.Proofs.Parser.Restoration
