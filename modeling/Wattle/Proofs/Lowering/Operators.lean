import Wattle.Proofs.Machine.Run

/-!
# Operators and their instructions

The instruction of an operator does on words what the operator does on whole numbers
(`BinaryOp.run_wordOp`): wrapping comes from the ring of words, and the quotient that is too large
is the one of the least word by `-1`.  `BinaryOp.run_numeric` puts this together with the
conversion of operands.
-/

namespace Wattle

/-! ### words -/

section
variable (a b : BitVec 32)

theorem wrap_add_toInt : Value.wrap (a.toInt + b.toInt) = .int (a + b) := by
  rw [Value.wrap, BitVec.ofInt_add, BitVec.ofInt_toInt, BitVec.ofInt_toInt]

theorem wrap_mul_toInt : Value.wrap (a.toInt * b.toInt) = .int (a * b) := by
  rw [Value.wrap, BitVec.ofInt_mul, BitVec.ofInt_toInt, BitVec.ofInt_toInt]

theorem wrap_sub_toInt : Value.wrap (a.toInt - b.toInt) = .int (a - b) := by
  have h : BitVec.ofInt 32 (a.toInt - b.toInt) = a - b := by
    apply BitVec.eq_of_toInt_eq
    rw [BitVec.toInt_ofInt, BitVec.toInt_sub]
  rw [Value.wrap, h]

/-- only the least word by `-1` has a quotient that is too large -/
theorem tdiv_toInt_eq_iff : a.toInt.tdiv b.toInt = 2 ^ 31 ↔ a = BitVec.intMin 32 ∧ b = -1 := by
  constructor
  · intro h
    by_cases hlarge : a = BitVec.intMin 32 ∧ b = -1
    · exact hlarge
    · have hlt := (a.sdiv b).toInt_lt
      rw [BitVec.toInt_sdiv_of_ne_or_ne a b (Decidable.not_and_iff_not_or_not.1 hlarge), h] at hlt
      omega
  · rintro ⟨rfl, rfl⟩
    decide

theorem wrap_tdiv_toInt (h : ¬(a = BitVec.intMin 32 ∧ b = -1)) :
    Value.wrap (a.toInt.tdiv b.toInt) = .int (a.sdiv b) := by
  have hne : a ≠ BitVec.intMin 32 ∨ b ≠ -1#32 := Decidable.not_and_iff_not_or_not.1 h
  rw [Value.wrap, ← BitVec.toInt_sdiv_of_ne_or_ne a b hne, BitVec.ofInt_toInt]

theorem beq_toInt : (a.toInt == b.toInt) = (a == b) := by
  rw [Bool.eq_iff_iff, beq_iff_eq, beq_iff_eq, BitVec.toInt_inj]

theorem BinaryOp.run_wordOp (op : BinaryOp) : op.wordOp.run a b = op.onInts a.toInt b.toInt := by
  cases op with
  | add => rw [onInts, wrap_add_toInt]; rfl
  | sub => rw [onInts, wrap_sub_toInt]; rfl
  | mul => rw [onInts, wrap_mul_toInt]; rfl
  | div =>
    have hzero : b.toInt = 0 ↔ b = 0 := by
      rw [← BitVec.toInt_inj]
      rfl
    simp only [wordOp, WordOp.run, onInts, hzero, tdiv_toInt_eq_iff]
    split
    · rfl
    · next h =>
      rw [wrap_tdiv_toInt a b fun hlarge => h (.inr hlarge)]
  | eq => rw [onInts, beq_toInt]; rfl
  | ne => rw [onInts, bne, beq_toInt]; rfl
  | lt | le | gt | ge => rfl

end

theorem BinaryOp.run_floatOp (op : BinaryOp) (x y : Double) :
    op.floatOp.run x y = op.onDoubles x y := by
  cases op <;> rfl

/-! ### conversions -/

/-- a value as an operand of a type -/
def Value.convert (v : Value) : DataType → Value
  | .int => v
  | .double => .double v.toDouble

theorem BinaryOp.run_numeric (op : BinaryOp) {u v : Value} {wanted : DataType}
    (h : wanted = if u.type = .double ∨ v.type = .double then .double else .int) :
    (op.numeric wanted).run (u.convert wanted) (v.convert wanted) = op.apply u v := by
  subst h
  cases u <;> cases v
  · exact op.run_wordOp _ _
  all_goals exact congrArg Except.ok (op.run_floatOp _ _)

/-- a quotient of whole numbers traps or is one -/
theorem BinaryOp.onInts_cases (op : BinaryOp) (a b : Int) :
    op.onInts a b = .error .trap ∨ ∃ w, op.onInts a b = .ok w ∧ w.type = .int := by
  cases op with
  | div =>
    rw [onInts]
    split
    · exact .inl rfl
    · exact .inr ⟨_, rfl, rfl⟩
  | _ => exact .inr ⟨_, rfl, rfl⟩

theorem BinaryOp.type_onDoubles (op : BinaryOp) (x y : Double) :
    (op.onDoubles x y).type = if op.isComparison then .int else .double := by
  cases op <;> rfl

/-- an operator traps, or it gives a value of its type -/
theorem BinaryOp.apply_cases (op : BinaryOp) (u v : Value) :
    op.apply u v = .error .trap ∨ ∃ w, op.apply u v = .ok w ∧
      w.type = if op.isComparison then .int
        else if u.type = .double ∨ v.type = .double then .double else .int := by
  cases u <;> cases v
  case int.int a b => simpa [apply, Value.type] using op.onInts_cases a.toInt b.toInt
  all_goals exact .inr ⟨_, rfl, op.type_onDoubles _ _⟩

end Wattle
