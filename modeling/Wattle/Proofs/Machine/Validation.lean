import Wattle.Module
import Wattle.Proofs.Machine.Numeric

/-!
# Valid code

The stack rules of the machine for code in its text form.  `Valid F entries st st'` says that the
entries, each read as the instruction that it spells, take a stack of the types `st`, its top
first, to one of the types `st'`.  Every instruction finds its operands on the stack, names a
variable that is declared once, or calls a function that is defined once, and a branch neither
finds nor leaves anything on the stack.
-/

namespace Wattle

/-- the names that the code of a function can use -/
structure Frame where
  slots : List Slot
  funcs : List Func

/-- the frame of a function in a module -/
def Func.frame (m : Module) (f : Func) : Frame := ⟨f.params ++ f.locals, m.funcs⟩

/-- `x` is declared, just once, as a variable of a type -/
def Frame.HasSlot (F : Frame) (x : String) (type : DataType) : Prop :=
  F.slots.filter (·.name == x) = [⟨x, type⟩]

/-- `g` is the only function of its name -/
def Frame.HasFunc (F : Frame) (name : String) (g : Func) : Prop :=
  F.funcs.filter (·.name == name) = [g]

/-! ### rules -/

/-- the branch for `0`, if there is one -/
def elsePart (alternate : Option (List String)) : String :=
  alternate.elim "" fun entries => " " ++ Instr.branchText "else" entries

inductive Valid (F : Frame) : List String → List DataType → List DataType → Prop
  | nil {st} : Valid F [] st st
  /-- a constant of 32 bits may be written with a sign or without -/
  | intConst {n : Int} {entries st st'} (hlow : -2 ^ 31 ≤ n) (hhigh : n < 2 ^ 32)
      (h : Valid F entries (.int :: st) st') :
      Valid F (("i32.const " ++ toString n) :: entries) st st'
  | doubleConst {x : Double} {entries st st'} (hx : x.isNaN = false)
      (h : Valid F entries (.double :: st) st') :
      Valid F (("f64.const " ++ Instr.constLayout.text x) :: entries) st st'
  | doubleZero {entries st st'} (h : Valid F entries (.double :: st) st') :
      Valid F ("f64.const 0" :: entries) st st'
  | localGet {x type entries st st'} (hx : F.HasSlot x type)
      (h : Valid F entries (type :: st) st') :
      Valid F (("local.get $" ++ x) :: entries) st st'
  | localSet {x type entries st st'} (hx : F.HasSlot x type) (h : Valid F entries st st') :
      Valid F (("local.set $" ++ x) :: entries) (type :: st) st'
  | numeric {entry op entries st st'} (hop : Numeric.ofText? entry = some op)
      (h : Valid F entries (op.result :: st) st') :
      Valid F (entry :: entries) (op.operand :: op.operand :: st) st'
  | convert {entries st st'} (h : Valid F entries (.double :: st) st') :
      Valid F ("f64.convert_i32_s" :: entries) (.int :: st) st'
  | drop {type entries st st'} (h : Valid F entries st st') :
      Valid F ("drop" :: entries) (type :: st) st'
  | call {name g entries st st'} (hg : F.HasFunc name g)
      (h : Valid F entries (g.result :: st) st') :
      Valid F (("call $" ++ name) :: entries) ((g.params.map (·.type)).reverse ++ st) st'
  | conditional {consequent alternate entries st st'} (ht : Valid F consequent [] [])
      (hf : Valid F (alternate.getD []) [] []) (h : Valid F entries st st') :
      Valid F (("(if " ++ Instr.branchText "then" consequent ++ elsePart alternate ++ ")") ::
        entries) (.int :: st) st'

namespace Valid

variable {F : Frame} {entries entries' : List String} {st st₁ st' : List DataType}

theorem append (h : Valid F entries st st₁) (h' : Valid F entries' st₁ st') :
    Valid F (entries ++ entries') st st' := by
  induction h with
  | nil => exact h'
  | intConst hlow hhigh _ ih => exact .intConst hlow hhigh (ih h')
  | doubleConst hx _ ih => exact .doubleConst hx (ih h')
  | doubleZero _ ih => exact .doubleZero (ih h')
  | localGet hx _ ih => exact .localGet hx (ih h')
  | localSet hx _ ih => exact .localSet hx (ih h')
  | numeric hop _ ih => exact .numeric hop (ih h')
  | convert _ ih => exact .convert (ih h')
  | drop _ ih => exact .drop (ih h')
  | call hg _ ih => exact .call hg (ih h')
  | conditional ht hf _ _ _ ih => exact .conditional ht hf (ih h')

end Valid

/-! ### instructions -/

/-- code that takes the types `pops` off the stack and leaves the types `pushes`, top first -/
def Takes (F : Frame) (code : List Instr) (pops pushes : List DataType) : Prop :=
  ∀ st, Valid F (Instr.texts code) (pops ++ st) (pushes ++ st)

namespace Takes

variable {F : Frame} {code code' : List Instr} {pops pushes pops' : List DataType}

theorem nil : Takes F [] pops pops := fun _ => .nil

theorem append (h : Takes F code pops pushes) (h' : Takes F code' pushes pops') :
    Takes F (code ++ code') pops pops' := by
  intro st
  rw [Instr.texts_eq_map, List.map_append, ← Instr.texts_eq_map, ← Instr.texts_eq_map]
  exact (h st).append (h' st)

/-- what lies under the operands does not matter -/
theorem under (h : Takes F code pops pushes) (st : List DataType) :
    Takes F code (pops ++ st) (pushes ++ st) := by
  intro st'
  simpa using h (st ++ st')

theorem binary (op : BinaryOp) (type : DataType) :
    Takes F [.binary op type] [type, type] [(op.numeric type).result] := by
  intro st
  have hnil : Valid F [] ((op.numeric type).result :: st) ((op.numeric type).result :: st) := .nil
  have h := Valid.numeric (op.ofText?_opcode type) hnil
  rwa [BinaryOp.operand_numeric] at h

end Takes

end Wattle
