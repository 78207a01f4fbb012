import Wattle.Proofs.Machine.Run

/-!
# Code that simulates an evaluation

`Runs m code st locals r Q` ties a run of `code`, from the values `st` on the top of any stack, to
the result `r` of an evaluation.  Both trap, or `r` has a value and the code goes on with values
and a store that `Q` allows for it.  What follows the code does not matter, so that runs compose as
the evaluations do (`Runs.bind`).
-/

namespace Wattle

/-! ### code with more code behind it -/

/-- a run of `code` goes on from a stack and a store, whatever code follows -/
def Reaches (m : Module) (code : List Instr) (st : List Value) (locals : Store)
    (st' : List Value) (locals' : Store) : Prop :=
  ∀ rest o, Exec m rest st' locals' o → Exec m (code ++ rest) st locals o

def Traps (m : Module) (code : List Instr) (st : List Value) (locals : Store) : Prop :=
  ∀ rest, Exec m (code ++ rest) st locals .trap

section
variable {m : Module} {code code' : List Instr} {st st₁ st' : List Value}
  {locals locals₁ locals' : Store}

theorem Reaches.append (h : Reaches m code st locals st₁ locals₁)
    (h' : Reaches m code' st₁ locals₁ st' locals') :
    Reaches m (code ++ code') st locals st' locals' := by
  intro rest o ho
  rw [List.append_assoc]
  exact h _ _ (h' _ _ ho)

theorem Reaches.traps (h : Reaches m code st locals st₁ locals₁)
    (h' : Traps m code' st₁ locals₁) : Traps m (code ++ code') st locals := by
  intro rest
  rw [List.append_assoc]
  exact h _ _ (h' _)

theorem Traps.append (h : Traps m code st locals) (code' : List Instr) :
    Traps m (code ++ code') st locals := by
  intro rest
  rw [List.append_assoc]
  exact h _

end

/-! ### code and results -/

def Runs {α : Type} (m : Module) (code : List Instr) (st : List Value) (locals : Store)
    (r : Except Halt α) (Q : α → List Value → Store → Prop) : Prop :=
  (r = .error .trap ∧ ∀ under, Traps m code (st ++ under) locals) ∨
    ∃ a st' locals', r = .ok a ∧ Q a st' locals' ∧
      ∀ under, Reaches m code (st ++ under) locals (st' ++ under) locals'

namespace Runs

section
variable {α β : Type} {m : Module} {code code' : List Instr} {st st' : List Value}
  {locals locals' : Store} {r : Except Halt α} {Q Q' : α → List Value → Store → Prop}

/-- no code -/
theorem nil {a : α} (h : Q a st locals) : Runs m [] st locals (.ok a) Q :=
  .inr ⟨a, st, locals, rfl, h, fun _ _ _ ho => ho⟩

/-- an instruction that does not trap -/
theorem instr {i : Instr} {a : α} (h : Q a st' locals')
    (hi : ∀ under rest o, Exec m rest (st' ++ under) locals' o →
      Exec m (i :: rest) (st ++ under) locals o) : Runs m [i] st locals (.ok a) Q :=
  .inr ⟨a, st', locals', rfl, h, fun under rest o ho => hi under rest o ho⟩

theorem bind {k : α → Except Halt β} {R : β → List Value → Store → Prop}
    (h : Runs m code st locals r Q)
    (hk : ∀ a st' locals', Q a st' locals' → Runs m code' st' locals' (k a) R) :
    Runs m (code ++ code') st locals (r >>= k) R := by
  obtain ⟨rfl, ht⟩ | ⟨a, st₁, locals₁, rfl, hQ, hr⟩ := h
  · exact .inl ⟨rfl, fun under => (ht under).append code'⟩
  · obtain ⟨hk, ht⟩ | ⟨b, st₂, locals₂, hk, hR, hr'⟩ := hk a st₁ locals₁ hQ
    · exact .inl ⟨hk, fun under => (hr under).traps (ht under)⟩
    · exact .inr ⟨b, st₂, locals₂, hk, hR, fun under => (hr under).append (hr' under)⟩

/-- more code for the same evaluation -/
theorem andThen {R : α → List Value → Store → Prop} (h : Runs m code st locals r Q)
    (hk : ∀ a st' locals', Q a st' locals' → Runs m code' st' locals' (.ok a) R) :
    Runs m (code ++ code') st locals r R := by
  have hbind := h.bind hk
  cases r <;> exact hbind

theorem mono (h : Runs m code st locals r Q)
    (hQ : ∀ a st' locals', Q a st' locals' → Q' a st' locals') :
    Runs m code st locals r Q' := by
  obtain ht | ⟨a, st', locals', rfl, h, hr⟩ := h
  · exact .inl ht
  · exact .inr ⟨a, st', locals', rfl, hQ _ _ _ h, hr⟩

/-- the evaluation goes on without code -/
theorem map {f : α → β} {R : β → List Value → Store → Prop} (h : Runs m code st locals r Q)
    (hf : ∀ a st' locals', Q a st' locals' → R (f a) st' locals') :
    Runs m code st locals (r >>= fun a => .ok (f a)) R := by
  obtain ⟨rfl, ht⟩ | ⟨a, st', locals', rfl, h, hr⟩ := h
  · exact .inl ⟨rfl, ht⟩
  · exact .inr ⟨f a, st', locals', rfl, hf _ _ _ h, hr⟩

/-- values that lie under the others stay there -/
theorem above (h : Runs m code st locals r Q) (low : List Value) :
    Runs m code (st ++ low) locals r fun a st' locals' =>
      ∃ high, st' = high ++ low ∧ Q a high locals' := by
  obtain ⟨rfl, ht⟩ | ⟨a, st', locals', rfl, hQ, hr⟩ := h
  · refine .inl ⟨rfl, fun under => ?_⟩
    rw [List.append_assoc]
    exact ht _
  · refine .inr ⟨a, st' ++ low, locals', rfl, ⟨st', rfl, hQ⟩, fun under => ?_⟩
    rw [List.append_assoc, List.append_assoc]
    exact hr _

/-- the outcome of code that stands alone, on an empty stack -/
theorem alone (h : Runs m code [] locals r Q) :
    (r = .error .trap ∧ Exec m code [] locals .trap) ∨
      ∃ a st' locals', r = .ok a ∧ Q a st' locals' ∧ Exec m code [] locals (.done st' locals') := by
  obtain ⟨rfl, ht⟩ | ⟨a, st', locals', rfl, hQ, hr⟩ := h
  · exact .inl ⟨rfl, by simpa using ht [] []⟩
  · exact .inr ⟨a, st', locals', rfl, hQ, by simpa using hr [] [] _ .nil⟩

end

end Runs

end Wattle
