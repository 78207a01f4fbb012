import Wattle.Json.Program
import Wattle.Proofs.Json.RoundTrip

/-!
# Doubles are spelled as numbers

In every layout the text of a finite number is a number of JSON (`Layout.isNumber_text`): no zero
stands in front of other digits, and a point stands between digits.  No other number has the
document of a finite number (`Json.double_inj`).
-/

namespace Wattle

namespace Layout

/-- zeros at the end have no part in the first digit -/
theorem head?_trimZeros {ds : List Char} (h : ds ≠ []) : (trimZeros ds).head? = ds.head? := by
  obtain ⟨z, hz⟩ := eq_trimZeros_append h
  obtain ⟨d, ds', hds⟩ := List.exists_cons_of_ne_nil (trimZeros_ne_nil ds)
  rw [hds] at hz
  rw [hds, hz]
  rfl

section
variable {sign ds : List Char} {k : Int} (hsign : sign = [] ∨ sign = ['-']) (hds : IsDigits ds)
include hsign hds

/-- no zero stands in front of the point but a single one -/
theorem isNumber_plain (hfirst : ds = ['0'] ∧ k = 0 ∨ ds.head? ≠ some '0') :
    Json.IsNumber (sign ++ plain ds k) := by
  obtain ⟨d, ds', rfl⟩ := List.exists_cons_of_ne_nil hds.1
  have hzeros (n : Nat) : ∀ c ∈ zeros n, c.isDigit = true := isDigit_of_mem_zeros
  unfold plain
  split
  · have hfraction : IsDigits (zeros ((-k).toNat - 1) ++ d :: ds') :=
      ⟨by simp, List.forall_mem_append.2 ⟨hzeros _, hds.2⟩⟩
    simpa using Json.IsNumber.intro hsign (.inl rfl) (.inr ⟨_, hfraction, rfl⟩) (.inl rfl)
  · simp only
    split
    · have hwhole : d :: ds' ++ zeros (k.toNat + 1 - (d :: ds').length) = ['0'] ∨
          IsDigits (d :: ds' ++ zeros (k.toNat + 1 - (d :: ds').length)) ∧
            (d :: ds' ++ zeros (k.toNat + 1 - (d :: ds').length)).head? ≠ some '0' := by
        obtain ⟨hzero, rfl⟩ | hfirst := hfirst
        · exact .inl (by rw [hzero]; rfl)
        · exact .inr ⟨⟨by simp, List.forall_mem_append.2 ⟨hds.2, hzeros _⟩⟩, hfirst⟩
      have hfraction : IsDigits ['0'] := ⟨by simp, by simp⟩
      simpa using Json.IsNumber.intro hsign hwhole (.inr ⟨_, hfraction, rfl⟩) (.inl rfl)
    · next hlength =>
      have hfirst : d ≠ '0' := by
        obtain ⟨hzero, rfl⟩ | hfirst := hfirst
        · exact absurd (Nat.le_of_eq (congrArg List.length hzero)) hlength
        · simpa using hfirst
      have hwhole : IsDigits ((d :: ds').take (k.toNat + 1)) :=
        ⟨by simp, fun c hc => hds.2 c (List.mem_of_mem_take hc)⟩
      have hfraction : IsDigits ((d :: ds').drop (k.toNat + 1)) :=
        ⟨fun hnil => hlength (List.drop_eq_nil_iff.1 hnil),
          fun c hc => hds.2 c (List.mem_of_mem_drop hc)⟩
      simpa using Json.IsNumber.intro hsign (.inr ⟨hwhole, by simpa using hfirst⟩)
        (.inr ⟨_, hfraction, rfl⟩) (.inl rfl)

/-- one digit stands in front of the point of a fraction with an exponent -/
theorem isNumber_scientific (hfirst : ds.head? ≠ some '0') (plusSign : Bool) :
    Json.IsNumber (sign ++ scientific plusSign ds k) := by
  obtain ⟨d, ds', rfl⟩ := List.exists_cons_of_ne_nil hds.1
  obtain ⟨hd, hds'⟩ := List.forall_mem_cons.1 hds.2
  have hexponent : IsDigits (Nat.toDigits 10 k.natAbs) :=
    ⟨Nat.toDigits_ne_nil, isDigit_of_mem_toDigits⟩
  unfold scientific
  extract_lets fraction exponentSign
  have hfraction : fraction = [] ∨ ∃ ds, IsDigits ds ∧ fraction = '.' :: ds := by
    cases ds' with
    | nil => exact .inl rfl
    | cons e es => exact .inr ⟨e :: es, ⟨List.cons_ne_nil _ _, hds'⟩, rfl⟩
  have hexponentSign : exponentSign ∈ [[], ['+'], ['-']] := by
    simp only [exponentSign]
    split
    · decide
    · split <;> decide
  have hwhole : IsDigits [d] := ⟨by simp, by simpa using hd⟩
  simpa using Json.IsNumber.intro hsign (.inr ⟨hwhole, by simpa using hfirst⟩) hfraction
    (.inr ⟨'e', exponentSign, _, .inl rfl, hexponentSign, hexponent, rfl⟩)

end

theorem isNumber_decimal (layout : Layout) {sign : List Char} (hsign : sign = [] ∨ sign = ['-'])
    {d : Decimal} (h : d.digits = 0 → d.exponent = 0) :
    Json.IsNumber (sign ++ layout.decimal d) := by
  have hds : IsDigits (trimZeros (Nat.toDigits 10 d.digits)) :=
    ⟨trimZeros_ne_nil _, isDigit_of_mem_trimZeros isDigit_of_mem_toDigits Nat.toDigits_ne_nil⟩
  have hfirst (h0 : d.digits ≠ 0) : (trimZeros (Nat.toDigits 10 d.digits)).head? ≠ some '0' := by
    rw [head?_trimZeros Nat.toDigits_ne_nil]
    exact (shortest_toDigits d.digits).head_ne h0
  unfold decimal
  simp only
  split
  · refine isNumber_plain hsign hds ?_
    by_cases h0 : d.digits = 0
    · rw [h h0, h0]
      exact .inl ⟨rfl, rfl⟩
    · exact .inr (hfirst h0)
  · next hplain => exact isNumber_scientific hsign hds (hfirst fun h0 => hplain (.inl h0)) _

end Layout

namespace Double

variable {x : Double}

theorem isNaN_of_isFinite (h : x.isFinite = true) : x.isNaN = false := by
  have hscale : x.scale ≠ 2047 := by simpa [isFinite] using h
  simp [isNaN, hscale]

theorem isInfinite_of_isFinite (h : x.isFinite = true) : x.isInfinite = false := by
  have hscale : x.scale ≠ 2047 := by simpa [isFinite] using h
  simp [isInfinite, hscale]

/-- only zero has a shortest fraction without digits -/
theorem exponent_shortest {tie : Tie} (h : (x.shortest tie).digits = 0) :
    (x.shortest tie).exponent = 0 := by
  by_cases h0 : x.units = 0
  · rw [shortest, if_pos h0]
  · have hpos : 0 < x.interval.low * 10 ^ (-(x.shortest tie).exponent).toNat :=
      Nat.mul_pos (Nat.lt_of_lt_of_le Nat.zero_lt_two (two_le_low h0)) (Nat.pow_pos (by omega))
    have hlow := (Interval.contains_iff.1 (contains_shortest h0 tie)).1
    rw [h, Nat.zero_mul, Nat.zero_mul] at hlow
    omega

end Double

namespace Layout

/-- **Finite numbers are spelled as numbers of JSON**, in any layout. -/
theorem isNumber_text (layout : Layout) {x : Double} (h : x.isFinite = true) :
    Json.IsNumber (layout.text x).toList := by
  have hsign : (if x.negative then ['-'] else []) = [] ∨
      (if x.negative then ['-'] else []) = ['-'] := by
    cases x.negative
    · exact .inl rfl
    · exact .inr rfl
  unfold text
  rw [Double.isNaN_of_isFinite h, Double.isInfinite_of_isFinite h, if_neg Bool.false_ne_true]
  simp only [Bool.false_eq_true, if_false]
  rw [toList_sign_append, String.toList_ofList]
  exact layout.isNumber_decimal hsign Double.exponent_shortest

end Layout

namespace Json

variable {x y : Double}

/-- a number that is not finite has `null` in its place -/
@[simp] theorem wellFormed_double : (double x).WellFormed := by
  unfold double
  split
  · next hx => exact numberLayout.isNumber_text hx
  · trivial

/-- **Finite numbers have documents of their own.** -/
theorem double_inj (hx : x.isFinite = true) (h : double x = double y) : x = y := by
  unfold double at h
  rw [if_pos hx] at h
  split at h
  · next hy =>
    have hread := numberLayout.ofText?_text (Double.isNaN_of_isFinite hx)
    rw [Json.number.inj h, numberLayout.ofText?_text (Double.isNaN_of_isFinite hy)] at hread
    exact (Option.some.inj hread).symm
  · cases h

end Json

end Wattle
