import Wattle.Number.Decimal

/-!
# Whole numbers are exact

The fields of the words that `Double.ofMagnitude` makes, and from them the magnitude of
`Double.ofNat n`.  Rounding never gives not-a-number, so that a spelling with a point is a number
(`Double.isNaN_of_ofText?`).  Below `2 ^ 53` nothing is rounded: `n` has as many binary places as
its significand, or fewer (`Double.units_ofNat`).
-/

namespace Wattle

namespace Double

/-! ### the fields of a new word -/

section
variable (negative : Bool) {m : Nat} (h : m < 2 ^ 63)
include h

theorem bits_ofMagnitude : (ofMagnitude negative m).bits.toNat =
    if negative then 2 ^ 63 + m else m := by
  unfold ofMagnitude
  rw [UInt64.toNat_ofNat']
  cases negative <;> simp <;> omega

theorem negative_ofMagnitude : (ofMagnitude negative m).negative = negative := by
  unfold Double.negative
  rw [bits_ofMagnitude negative h]
  cases negative <;> simp
  omega

theorem scale_ofMagnitude : (ofMagnitude negative m).scale = m / 2 ^ 52 := by
  unfold scale
  rw [bits_ofMagnitude negative h]
  cases negative <;> simp <;> omega

theorem fraction_ofMagnitude : (ofMagnitude negative m).fraction = m % 2 ^ 52 := by
  unfold fraction
  rw [bits_ofMagnitude negative h]
  cases negative <;> simp
  omega

end

/-- no number is written with the words behind those of the infinities -/
theorem isNaN_ofMagnitude (negative : Bool) {m : Nat} (h : m ≤ 2047 * 2 ^ 52) :
    (ofMagnitude negative m).isNaN = false := by
  have hm : m < 2 ^ 63 := by omega
  unfold isNaN
  rw [scale_ofMagnitude negative hm, fraction_ofMagnitude negative hm]
  by_cases hlt : m < 2047 * 2 ^ 52
  · have hscale : m / 2 ^ 52 ≠ 2047 := by omega
    rw [beq_false_of_ne hscale, Bool.false_and]
  · have hfraction : m % 2 ^ 52 = 0 := by omega
    rw [hfraction, bne_self_eq_false, Bool.and_false]

/-- a word is a significand of 53 places, or fewer at the smallest shift, and its shift -/
theorem units_ofMagnitude (negative : Bool) {q s : Nat} (hq : q < 2046) (hs : s < 2 ^ 53)
    (hlead : 2 ^ 52 ≤ s ∨ q = 0) :
    (ofMagnitude negative (q * 2 ^ 52 + s)).units = s * 2 ^ q := by
  have hm : q * 2 ^ 52 + s < 2 ^ 63 := by omega
  unfold units significand shift
  rw [scale_ofMagnitude negative hm, fraction_ofMagnitude negative hm]
  by_cases hlt : s < 2 ^ 52
  · obtain rfl : q = 0 := by omega
    rw [Nat.zero_mul, Nat.zero_add, Nat.div_eq_of_lt hlt, Nat.mod_eq_of_lt hlt, if_pos rfl]
  · have hscale : (q * 2 ^ 52 + s) / 2 ^ 52 = q + 1 := by omega
    have hfraction : 2 ^ 52 + (q * 2 ^ 52 + s) % 2 ^ 52 = s := by omega
    rw [hscale, if_neg (Nat.succ_ne_zero q), hfraction, Nat.add_sub_cancel]

/-! ### rounded numbers -/

theorem magnitude_le (num den : Nat) : magnitude num den ≤ 2047 * 2 ^ 52 := by
  unfold magnitude
  exact Nat.min_le_left ..

theorem isNaN_ofNat (n : Nat) : (ofNat n).isNaN = false :=
  isNaN_ofMagnitude false (magnitude_le n 1)

theorem isNaN_ofDecimal (negative : Bool) (d : Decimal) : (ofDecimal negative d).isNaN = false := by
  unfold ofDecimal
  extract_lets places
  split
  · exact isNaN_ofMagnitude negative (by omega)
  · split
    · exact isNaN_ofMagnitude negative (by omega)
    · exact isNaN_ofMagnitude negative (magnitude_le ..)

/-- the names without a point are those of infinity and not-a-number -/
theorem isNaN_of_ofText? {s : String} {x : Double} (h : ofText? s = some x)
    (hdot : '.' ∈ s.toList) : x.isNaN = false := by
  have hrest : '.' ∈ (Decimal.splitSign s.toList).2 := by
    unfold Decimal.splitSign
    split <;> simp_all
  have hname : '.' ∈ (String.ofList ((Decimal.splitSign s.toList).2.map Char.toLower)).toList := by
    rw [String.toList_ofList]
    exact List.mem_map.2 ⟨'.', hrest, rfl⟩
  unfold ofText? at h
  simp only at h
  split at h
  · next hinf =>
    rcases hinf with e | e <;> simp [e] at hname
  · split at h
    · next e => simp [e] at hname
    · obtain ⟨d, -, rfl⟩ := Option.map_eq_some_iff.1 h
      exact isNaN_ofDecimal _ d

/-! ### whole numbers -/

theorem magnitude_zero (den : Nat) : magnitude 0 den = 0 := by
  unfold magnitude
  generalize 2 ^ 1074 = unit
  simp [roundHalfEven]

section
variable {n : Nat} (h0 : n ≠ 0) (h : n < 2 ^ 53)
include h0

theorem log2_mul_two_pow (k : Nat) : (n * 2 ^ k).log2 = n.log2 + k := by
  obtain ⟨hlow, hhigh⟩ := (Nat.log2_eq_iff h0).1 rfl
  have hne : n * 2 ^ k ≠ 0 := Nat.mul_ne_zero h0 (Nat.pos_iff_ne_zero.1 (Nat.two_pow_pos k))
  refine (Nat.log2_eq_iff hne).2 ⟨?_, ?_⟩
  · rw [Nat.pow_add]
    exact Nat.mul_le_mul_right _ hlow
  · rw [Nat.add_right_comm, Nat.pow_add]
    exact Nat.mul_lt_mul_of_pos_right hhigh (Nat.two_pow_pos k)

include h

/-- the significand of a whole number: `n` with zeros behind it -/
theorem significand_bounds :
    n.log2 ≤ 52 ∧ 2 ^ 52 ≤ n * 2 ^ (52 - n.log2) ∧ n * 2 ^ (52 - n.log2) < 2 ^ 53 := by
  have hlog : n.log2 ≤ 52 := Nat.le_of_lt_succ ((Nat.log2_lt h0).2 h)
  have hs : n * 2 ^ (52 - n.log2) ≠ 0 :=
    Nat.mul_ne_zero h0 (Nat.pos_iff_ne_zero.1 (Nat.two_pow_pos _))
  have hlog' : (n * 2 ^ (52 - n.log2)).log2 = 52 := by
    rw [log2_mul_two_pow h0]
    omega
  exact ⟨hlog, (Nat.log2_eq_iff hs).1 hlog'⟩

/-- shifting to the significand and on to the units gives the number in units -/
theorem significand_mul_two_pow {k : Nat} (hk : 52 ≤ k) :
    n * 2 ^ (52 - n.log2) * 2 ^ (n.log2 + k - 52) = n * 2 ^ k := by
  have hlog := (significand_bounds h0 h).1
  rw [Nat.mul_assoc, ← Nat.pow_add, show 52 - n.log2 + (n.log2 + k - 52) = k by omega]

theorem magnitude_one :
    magnitude n 1 = (n.log2 + 1022) * 2 ^ 52 + n * 2 ^ (52 - n.log2) := by
  obtain ⟨hlog, -, hlt⟩ := significand_bounds h0 h
  have hround : roundHalfEven (n * 2 ^ 1074) (1 * 2 ^ (n.log2 + 1074 - 52)) =
      n * 2 ^ (52 - n.log2) := by
    rw [Nat.one_mul, ← significand_mul_two_pow h0 h (k := 1074) (by omega),
      roundHalfEven_mul (Nat.two_pow_pos _)]
  unfold magnitude
  simp only [Nat.div_one, log2_mul_two_pow h0]
  rw [hround]
  omega

end

section
variable {n : Nat} (h : n < 2 ^ 53)
include h

theorem magnitude_one_lt : magnitude n 1 < 2047 * 2 ^ 52 := by
  by_cases h0 : n = 0
  · subst h0
    rw [magnitude_zero]
    omega
  · obtain ⟨hlog, -, hlt⟩ := significand_bounds h0 h
    rw [magnitude_one h0 h]
    omega

theorem units_ofNat : (ofNat n).units = n * 2 ^ 1074 := by
  unfold ofNat ofRatio
  by_cases h0 : n = 0
  · have hzero := units_ofMagnitude (q := 0) (s := 0) false (by omega) (by omega) (.inr rfl)
    generalize 2 ^ 1074 = unit
    subst h0
    rw [magnitude_zero]
    simpa using hzero
  · obtain ⟨hlog, hle, hlt⟩ := significand_bounds h0 h
    rw [magnitude_one h0 h, units_ofMagnitude false (by omega) hlt (.inl hle),
      ← significand_mul_two_pow h0 h (k := 1074) (by omega)]
    congr 2

theorem negative_ofNat : (ofNat n).negative = false :=
  negative_ofMagnitude false (Nat.lt_trans (magnitude_one_lt h) (by omega))

theorem whole_ofNat : (ofNat n).units / 2 ^ 1074 = n := by
  rw [units_ofNat h, Nat.mul_div_cancel _ (Nat.two_pow_pos 1074)]

theorem toWord_ofNat : (ofNat n).toWord = n := by
  unfold toWord
  simp only [isNaN_ofNat, whole_ofNat h, negative_ofNat h, Bool.false_eq_true, if_false]
  omega

end

end Double

end Wattle
