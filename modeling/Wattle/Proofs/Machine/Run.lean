import Wattle.Proofs.Machine.Numeric
import Wattle.Proofs.Semantics.Source

/-!
# Running code

The machine runs code on a stack of values and a store of variables.  `Exec m code st locals o`
says that the run of `code` ends with the outcome `o`: with a stack and a store, or in a trap.  A
function starts with its arguments, zeros and an empty stack, and a branch with an empty stack, and
both run to their ends.  There is at most one outcome (`Exec.deterministic`), and none if an
instruction does not find its operands.
-/

namespace Wattle

/-! ### numeric instructions -/

/-- division traps for the divisor `0`, and for the one quotient that is too large -/
def WordOp.run : WordOp → BitVec 32 → BitVec 32 → Except Halt Value
  | add, a, b => .ok (.int (a + b))
  | sub, a, b => .ok (.int (a - b))
  | mul, a, b => .ok (.int (a * b))
  | divS, a, b =>
    if b = 0 ∨ a = BitVec.intMin 32 ∧ b = -1 then .error .trap else .ok (.int (a.sdiv b))
  | eq, a, b => .ok (.ofBool (a == b))
  | ne, a, b => .ok (.ofBool (a != b))
  | ltS, a, b => .ok (.ofBool (a.slt b))
  | leS, a, b => .ok (.ofBool (a.sle b))
  | gtS, a, b => .ok (.ofBool (b.slt a))
  | geS, a, b => .ok (.ofBool (b.sle a))

def FloatOp.run : FloatOp → Double → Double → Value
  | add, x, y => .double (x.add y)
  | sub, x, y => .double (x.sub y)
  | mul, x, y => .double (x.mul y)
  | div, x, y => .double (x.div y)
  | eq, x, y => .ofBool (x.eq y)
  | ne, x, y => .ofBool (!x.eq y)
  | lt, x, y => .ofBool (x.lt y)
  | le, x, y => .ofBool (x.le y)
  | gt, x, y => .ofBool (y.lt x)
  | ge, x, y => .ofBool (y.le x)

def Numeric.run : Numeric → Value → Value → Except Halt Value
  | word op, .int a, .int b => op.run a b
  | float op, .double x, .double y => .ok (op.run x y)
  | _, _, _ => .error .stuck

/-! ### runs -/

namespace Func

/-- the store at the start of a function -/
def store (g : Func) (args : List Value) : Store := fun x =>
  (((g.params.map (·.name)).zip args).lookup x).or
    ((g.locals.find? (·.name == x)).map (Value.zero ·.type))

/-- the arguments have the types of the parameters -/
def Accepts (g : Func) (args : List Value) : Prop :=
  args.map Value.type = g.params.map (·.type)

end Func

/-- the function of a name -/
def Module.func? (m : Module) (name : String) : Option Func := m.funcs.find? (·.name == name)

inductive Outcome where
  | done (st : List Value) (locals : Store)
  | trap

inductive Exec (m : Module) : List Instr → List Value → Store → Outcome → Prop
  | nil {st locals} : Exec m [] st locals (.done st locals)
  | intConst {n code st locals o} (h : Exec m code (.wrap n :: st) locals o) :
      Exec m (.intConst n :: code) st locals o
  | doubleConst {x code st locals o} (h : Exec m code (.double x :: st) locals o) :
      Exec m (.doubleConst x :: code) st locals o
  | doubleZero {code st locals o} (h : Exec m code (.double (.zero false) :: st) locals o) :
      Exec m (.doubleZero :: code) st locals o
  | localGet {x v code st locals o} (hx : locals x = some v)
      (h : Exec m code (v :: st) locals o) : Exec m (.localGet x :: code) st locals o
  /-- a variable keeps its type -/
  | localSet {x u v code st locals o} (hx : locals x = some u) (ht : u.type = v.type)
      (h : Exec m code st (locals.set x v) o) : Exec m (.localSet x :: code) (v :: st) locals o
  | binary {op type n u v w code st locals o} (hop : Numeric.ofText? (op.opcode type) = some n)
      (hw : n.run u v = .ok w) (h : Exec m code (w :: st) locals o) :
      Exec m (.binary op type :: code) (v :: u :: st) locals o
  | binaryTrap {op type n u v code st locals} (hop : Numeric.ofText? (op.opcode type) = some n)
      (hw : n.run u v = .error .trap) :
      Exec m (.binary op type :: code) (v :: u :: st) locals .trap
  | convert {n code st locals o} (h : Exec m code (.double (.ofInt n.toInt) :: st) locals o) :
      Exec m (.convert :: code) (.int n :: st) locals o
  | drop {v code st locals o} (h : Exec m code st locals o) :
      Exec m (.drop :: code) (v :: st) locals o
  | call {name arity g args v code st st' locals locals' o} (hg : m.func? name = some g)
      (hargs : g.Accepts args) (hst : st' = args.reverse ++ st)
      (hbody : Exec m g.body [] (g.store args) (.done [v] locals'))
      (h : Exec m code (v :: st) locals o) : Exec m (.call name arity :: code) st' locals o
  | callTrap {name arity g args code st st' locals} (hg : m.func? name = some g)
      (hargs : g.Accepts args) (hst : st' = args.reverse ++ st)
      (hbody : Exec m g.body [] (g.store args) .trap) :
      Exec m (.call name arity :: code) st' locals .trap
  | conditional {n consequent alternate code st locals locals' o}
      (hbranch : Exec m (if n = 0 then alternate.getD [] else consequent) [] locals
        (.done [] locals'))
      (h : Exec m code st locals' o) :
      Exec m (.conditional consequent alternate :: code) (.int n :: st) locals o
  | conditionalTrap {n consequent alternate code st locals}
      (hbranch : Exec m (if n = 0 then alternate.getD [] else consequent) [] locals .trap) :
      Exec m (.conditional consequent alternate :: code) (.int n :: st) locals .trap

/-- arguments of a function can be taken off a stack in one way only -/
theorem Func.Accepts.unique {g : Func} {args args' st st' : List Value} (h : g.Accepts args)
    (h' : g.Accepts args') (hst : args.reverse ++ st = args'.reverse ++ st') :
    args = args' ∧ st = st' := by
  have hlength : args.length = args'.length := by
    have ht := congrArg List.length (h.trans h'.symm)
    rwa [List.length_map, List.length_map] at ht
  obtain ⟨hargs, hrest⟩ := List.append_inj hst (by simpa using hlength)
  exact ⟨List.reverse_inj.1 hargs, hrest⟩

theorem Exec.deterministic {m : Module} {code : List Instr} {st : List Value} {locals : Store}
    {o o' : Outcome} (h : Exec m code st locals o) (h' : Exec m code st locals o') : o = o' := by
  induction h generalizing o' with
  | nil => cases h'; rfl
  | intConst _ ih => cases h' with | intConst h' => exact ih h'
  | doubleConst _ ih => cases h' with | doubleConst h' => exact ih h'
  | doubleZero _ ih => cases h' with | doubleZero h' => exact ih h'
  | localGet hx _ ih =>
    cases h' with
    | localGet hx' h' =>
      obtain rfl := Option.some.inj (hx.symm.trans hx')
      exact ih h'
  | localSet _ _ _ ih => cases h' with | localSet _ _ h' => exact ih h'
  | binary hop hw _ ih =>
    cases h' with
    | binary hop' hw' h' =>
      obtain rfl := Option.some.inj (hop.symm.trans hop')
      obtain rfl := Except.ok.inj (hw.symm.trans hw')
      exact ih h'
    | binaryTrap hop' hw' =>
      obtain rfl := Option.some.inj (hop.symm.trans hop')
      cases hw.symm.trans hw'
  | binaryTrap hop hw =>
    cases h' with
    | binary hop' hw' h' =>
      obtain rfl := Option.some.inj (hop.symm.trans hop')
      cases hw.symm.trans hw'
    | binaryTrap => rfl
  | convert _ ih => cases h' with | convert h' => exact ih h'
  | drop _ ih => cases h' with | drop h' => exact ih h'
  | call hg hargs hst _ _ ihb ih =>
    cases h' with
    | call hg' hargs' hst' hbody' h' =>
      obtain rfl := Option.some.inj (hg.symm.trans hg')
      obtain ⟨rfl, rfl⟩ := hargs.unique hargs' (hst.symm.trans hst')
      cases ihb hbody'
      exact ih h'
    | callTrap hg' hargs' hst' hbody' =>
      obtain rfl := Option.some.inj (hg.symm.trans hg')
      obtain ⟨rfl, rfl⟩ := hargs.unique hargs' (hst.symm.trans hst')
      cases ihb hbody'
  | callTrap hg hargs hst _ ihb =>
    cases h' with
    | call hg' hargs' hst' hbody' h' =>
      obtain rfl := Option.some.inj (hg.symm.trans hg')
      obtain ⟨rfl, rfl⟩ := hargs.unique hargs' (hst.symm.trans hst')
      cases ihb hbody'
    | callTrap => rfl
  | conditional _ _ ihb ih =>
    cases h' with
    | conditional hbranch' h' =>
      cases ihb hbranch'
      exact ih h'
    | conditionalTrap hbranch' => cases ihb hbranch'
  | conditionalTrap _ ihb =>
    cases h' with
    | conditional hbranch' => cases ihb hbranch'
    | conditionalTrap => rfl

end Wattle
