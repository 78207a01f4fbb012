import Wattle.Proofs.Number.Layout

/-!
# Runs of digits

A run of digits spells a value, however long it is.  Only zeros in front tell the runs with one
value apart (`IsDigits.eq_zeros_append`), so that one of them is the shortest (`Shortest`).
-/

namespace Wattle

theorem exists_digitChar {c : Char} (h : c.isDigit = true) : ∃ d < 10, c = Nat.digitChar d := by
  have hchar : ∀ d < 10, Nat.digitChar d = Char.ofNat (48 + d) := by decide
  have hrange : 48 ≤ c.toNat ∧ c.toNat ≤ 57 := by
    simpa [Char.isDigit, UInt32.le_iff_toNat_le] using h
  refine ⟨c.toNat - 48, by omega, ?_⟩
  rw [hchar _ (by omega), Nat.add_sub_cancel' hrange.1, Char.ofNat_toNat]

/-- more digits behind those of a number other than `0` -/
theorem toDigits_append {cs : List Char} (hcs : ∀ c ∈ cs, c.isDigit = true) {n : Nat} (hn : 0 < n) :
    Nat.toDigits 10 n ++ cs = Nat.toDigits 10 (Nat.ofDigitChars 10 cs n) := by
  induction cs generalizing n with
  | nil => rw [List.append_nil, Nat.ofDigitChars_nil]
  | cons c cs ih =>
    rw [List.forall_mem_cons] at hcs
    obtain ⟨d, hd, rfl⟩ := exists_digitChar hcs.1
    rw [Nat.ofDigitChars_cons_digitChar_of_lt_ten hd, ← ih hcs.2 (by omega),
      ← Nat.toDigits_append_toDigits (by omega) hn hd, Nat.toDigits_of_lt_base hd,
      List.append_assoc]
    rfl

/-- only zeros in front tell a run of digits from the digits of its value -/
theorem IsDigits.eq_zeros_append {cs : List Char} (h : IsDigits cs) :
    ∃ z, cs = Layout.zeros z ++ Nat.toDigits 10 (digitsValue cs) := by
  obtain ⟨hne, hdigits⟩ := h
  induction cs with
  | nil => exact absurd rfl hne
  | cons c cs ih =>
    rw [List.forall_mem_cons] at hdigits
    obtain ⟨d, hd, rfl⟩ := exists_digitChar hdigits.1
    have hvalue : digitsValue (d.digitChar :: cs) = Nat.ofDigitChars 10 cs d := by
      rw [digitsValue, Nat.ofDigitChars_cons_digitChar_of_lt_ten hd, Nat.mul_zero, Nat.zero_add]
    rw [hvalue]
    rcases Nat.eq_zero_or_pos d with rfl | hpos
    · by_cases hcs : cs = []
      · exact ⟨0, by rw [hcs]; rfl⟩
      · obtain ⟨z, hz⟩ := ih hcs hdigits.2
        exact ⟨z + 1, congrArg ('0' :: ·) hz⟩
    · refine ⟨0, ?_⟩
      rw [← toDigits_append hdigits.2 hpos, Nat.toDigits_of_lt_base hd]
      rfl

/-- the run of digits that spells a value in the shortest way -/
structure Shortest (n : Nat) (ds : List Char) : Prop where
  isDigits : IsDigits ds
  value : digitsValue ds = n
  /-- every other one is longer, by zeros in front -/
  least : ∀ cs, IsDigits cs → digitsValue cs = n → ∃ z, cs = List.replicate z '0' ++ ds

theorem shortest_toDigits (n : Nat) : Shortest n (Nat.toDigits 10 n) where
  isDigits := ⟨Nat.toDigits_ne_nil, isDigit_of_mem_toDigits⟩
  value := (toDigits_ok n).2
  least cs hcs hvalue := by
    obtain ⟨z, hz⟩ := hcs.eq_zeros_append
    rw [hvalue] at hz
    exact ⟨z, hz⟩

/-- no zero stands in front of the shortest run of digits -/
theorem Shortest.head_ne {n : Nat} {ds : List Char} (h : Shortest n ds) (hn : n ≠ 0) :
    ds.head? ≠ some '0' := by
  intro hzero
  obtain ⟨rest, rfl⟩ := List.head?_eq_some_iff.1 hzero
  have hvalue : digitsValue rest = n := (digitsValue_zeros_append rest 1).symm.trans h.value
  have hne : rest ≠ [] := by
    rintro rfl
    exact hn hvalue.symm
  have hdigits : IsDigits rest := ⟨hne, fun c hc => h.isDigits.2 c (List.mem_cons_of_mem _ hc)⟩
  obtain ⟨z, hz⟩ := h.least rest hdigits hvalue
  have hlength := congrArg List.length hz
  rw [List.length_append, List.length_cons] at hlength
  omega

end Wattle
