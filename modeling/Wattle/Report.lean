import Wattle.Digest.Sha256
import Wattle.Json.Diagnostic
import Wattle.Json.Options
import Wattle.Json.Program
import Wattle.Module
import Wattle.Parser.Program

/-!
# Compiling

`SourceFile.compile` goes from a text to a program and its module text.  A `Report` is the outcome
with the fingerprints of both texts, made for a reader of JSON.
-/

namespace Wattle

structure Compilation where
  program : Program
  wat : String

namespace SourceFile

def compile (options : CompileOptions) (file : SourceFile) : Except Diagnostic Compilation :=
  match file.parse with
  | .error d => .error d
  | .ok program => .ok ⟨program, program.moduleText options.codegen⟩

/-- what is wrong with a text, if anything is -/
def typeCheck (file : SourceFile) : Option Diagnostic :=
  match file.parse with
  | .error d => some d
  | .ok _ => none

end SourceFile

/-! ### reports -/

structure Report where
  outcome : Except Diagnostic Compilation
  sourceHash : String

namespace Report

def wat? (r : Report) : Option String :=
  match r.outcome with
  | .ok c => some c.wat
  | .error _ => none

def program? (r : Report) : Option Program :=
  match r.outcome with
  | .ok c => some c.program
  | .error _ => none

def error? (r : Report) : Option Diagnostic :=
  match r.outcome with
  | .ok _ => none
  | .error d => some d

def success (r : Report) : Bool := r.error?.isNone

def watHash? (r : Report) : Option String := r.wat?.map Sha256.hex

def toJson (r : Report) : Json :=
  .record [
    ("success", .bool r.success),
    ("wat", .option .text r.wat?),
    ("ast", .option Program.toJson r.program?),
    ("error", .option Diagnostic.toJson r.error?),
    ("source_hash", .text r.sourceHash),
    ("wat_hash", .option .text r.watHash?)]

end Report

def SourceFile.report (options : CompileOptions) (file : SourceFile) : Report :=
  ⟨file.compile options, Sha256.hex file.text⟩

/-! ### options in a document -/

/-- compiles under the options of a JSON text; `none` if it does not hold options -/
def SourceFile.compileWith? (optionsText : String) (file : SourceFile) :
    Option (Except Diagnostic Compilation) :=
  (CompileOptions.read? optionsText).map (file.compile ·)

def SourceFile.reportWith? (optionsText : String) (file : SourceFile) : Option Report :=
  (CompileOptions.read? optionsText).map (file.report ·)

/-! ### from text to text -/

def version : String := "0.1.0"

/-- what is answered in place of a report when the options cannot be read -/
def failureJson (message : String) : Json :=
  .record [
    ("ast", .null),
    ("error", .record [("message", .text message)]),
    ("success", .bool false),
    ("wat", .null)]

namespace SourceFile

def compileText (file : SourceFile) : String := (file.report .plain).toJson.write

def compileTextWith (optionsText : String) (file : SourceFile) : String :=
  match file.reportWith? optionsText with
  | some r => r.toJson.write
  | none => (failureJson "invalid compile options").write

/-- the document of what is wrong with a text, `null` if nothing is -/
def typeCheckText (file : SourceFile) : String :=
  (Json.option Diagnostic.toJson file.typeCheck).write

end SourceFile

end Wattle
