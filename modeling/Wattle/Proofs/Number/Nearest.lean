import Wattle.Number.Shortest
import Wattle.Proofs.Number.Exact

/-!
# Numbers are read from their intervals

A number that is not zero is its sign, its shift `q` and its significand `s`, and its magnitude in
units is `s * 2 ^ q`.  A quotient within half a unit of the significand is rounded to it, where
below a power of two, whose lower neighbour is twice as close, a quarter stands for the half
(`Double.magnitude_eq`).  That is what `Double.interval` says, and so every decimal fraction of the
interval of a number is read as that number (`Double.ofDecimal_of_contains`); the thresholds below
and above which fractions are not rounded as quotients lie outside of all intervals.
-/

namespace Wattle

/-! ### rounding -/

/-- a quotient is rounded to a whole number that is half a unit away, if that is even, or less -/
theorem roundHalfEven_eq {n d s : Nat} (hd : 0 < d) (hlow : 2 * (s * d) ≤ 2 * n + d)
    (hhigh : 2 * n ≤ 2 * (s * d) + d)
    (hodd : s % 2 = 1 → 2 * (s * d) < 2 * n + d ∧ 2 * n < 2 * (s * d) + d) :
    roundHalfEven n d = s := by
  have hn := Nat.div_add_mod' n d
  have hr := Nat.mod_lt n hd
  have hq : n / d = s ∨ n / d + 1 = s := by
    have hlt : n / d < s + 1 := by
      rw [Nat.div_lt_iff_lt_mul hd, Nat.add_mul]
      omega
    have hle : s ≤ n / d + 1 := by
      rw [← Nat.add_div_right n hd, Nat.le_div_iff_mul_le hd]
      omega
    omega
  unfold roundHalfEven
  simp only
  generalize n / d = q at *
  generalize n % d = r at *
  rcases hq with rfl | rfl
  · split
    · rfl
    · split
      · omega
      · by_cases hodd' : q % 2 = 1
        · omega
        · omega
  · rw [Nat.add_mul] at hlow hhigh hodd
    split
    · omega
    · split
      · rfl
      · omega

namespace Double

/-! ### the fields of a number -/

section
variable (x : Double)

theorem fraction_lt : x.fraction < 2 ^ 52 := Nat.mod_lt _ (Nat.two_pow_pos 52)

theorem significand_lt : x.significand < 2 ^ 53 := by
  have hfraction := x.fraction_lt
  unfold significand
  split <;> omega

theorem significand_lead : 2 ^ 52 ≤ x.significand ∨ x.shift = 0 := by
  unfold significand shift
  split
  · right
    omega
  · left
    omega

theorem shift_lt {x : Double} (h : x.isFinite = true) : x.shift < 2046 := by
  have hscale : x.scale < 2 ^ 11 := Nat.mod_lt _ (Nat.two_pow_pos 11)
  have hne : x.scale ≠ 2047 := by simpa [isFinite] using h
  unfold shift
  omega

/-- a number is its sign, its shift and its significand -/
theorem eq_ofMagnitude : ofMagnitude x.negative (x.shift * 2 ^ 52 + x.significand) = x := by
  have hword : x.shift * 2 ^ 52 + x.significand = x.bits.toNat % 2 ^ 63 := by
    unfold shift significand scale fraction
    split <;> omega
  have hlt := x.bits.toNat_lt
  cases x with
  | mk bits =>
    rw [hword, ofMagnitude, negative]
    congr 1
    rw [← UInt64.toNat_inj, UInt64.toNat_ofNat']
    simp only [decide_eq_true_eq] at *
    split <;> omega

end

theorem isFinite_of_not {x : Double} (hnan : x.isNaN = false) (hinf : x.isInfinite = false) :
    x.isFinite = true := by
  unfold isNaN at hnan
  unfold isInfinite at hinf
  unfold isFinite
  cases hscale : x.scale == 2047 with
  | false => rw [bne, hscale, Bool.not_false]
  | true => simp_all

theorem eq_infinity {x : Double} (h : x.isInfinite = true) : infinity x.negative = x := by
  simp only [isInfinite, Bool.and_eq_true, beq_iff_eq] at h
  have hword : x.shift * 2 ^ 52 + x.significand = 2047 * 2 ^ 52 := by
    unfold shift significand
    split <;> omega
  rw [infinity, ← hword, eq_ofMagnitude]

theorem significand_ne_zero {x : Double} (h : x.units ≠ 0) : x.significand ≠ 0 := fun h0 =>
  h (by rw [units, h0, Nat.zero_mul])

theorem eq_zero {x : Double} (h : x.units = 0) : zero x.negative = x := by
  have hsignificand : x.significand = 0 :=
    (Nat.mul_eq_zero.1 h).resolve_right (Nat.pos_iff_ne_zero.1 (Nat.two_pow_pos _))
  have hshift : x.shift = 0 := x.significand_lead.resolve_left (by omega)
  have hx := x.eq_ofMagnitude
  rwa [hsignificand, hshift] at hx

/-! ### the interval of a number -/

/-- the shift of a quotient whose significand has 53 places, or fewer at the smallest shift -/
theorem log2_div_sub {v den q : Nat} (hden : 0 < den)
    (hlead : 2 ^ 52 * (den * 2 ^ q) ≤ v ∨ q = 0) (hlt : v < 2 ^ 53 * (den * 2 ^ q)) :
    (v / den).log2 - 52 = q := by
  have hpow : ∀ k, 2 ^ k * (den * 2 ^ q) = 2 ^ (q + k) * den := fun k => by
    rw [Nat.pow_add, Nat.mul_comm den, ← Nat.mul_assoc, Nat.mul_comm (2 ^ k)]
  rw [hpow, ← Nat.div_lt_iff_lt_mul hden] at hlt
  rcases hlead with hlead | rfl
  · rw [hpow, ← Nat.le_div_iff_mul_le hden] at hlead
    have h0 : v / den ≠ 0 := Nat.pos_iff_ne_zero.1 (Nat.lt_of_lt_of_le (Nat.two_pow_pos _) hlead)
    rw [(Nat.log2_eq_iff h0).2 ⟨hlead, hlt⟩, Nat.add_sub_cancel]
  · by_cases h0 : v / den = 0
    · rw [h0]
      rfl
    · have hlog := (Nat.log2_lt h0).2 hlt
      omega

section
variable {q s num den : Nat} (hden : 0 < den) (hs : s < 2 ^ 53) (hlead : 2 ^ 52 ≤ s ∨ q = 0)
  (hlow : 4 * (s * (den * 2 ^ q)) ≤
    4 * (num * 2 ^ 1074) + (if s = 2 ^ 52 ∧ 0 < q then 1 else 2) * (den * 2 ^ q))
  (hhigh : 4 * (num * 2 ^ 1074) ≤ 4 * (s * (den * 2 ^ q)) + 2 * (den * 2 ^ q))
  (hodd : s % 2 = 1 → 4 * (s * (den * 2 ^ q)) < 4 * (num * 2 ^ 1074) + 2 * (den * 2 ^ q) ∧
    4 * (num * 2 ^ 1074) < 4 * (s * (den * 2 ^ q)) + 2 * (den * 2 ^ q))
include hden hs hlead hlow hhigh hodd

/-- a quotient within half a unit of `s * 2 ^ q` is rounded to that, and within a quarter of a unit
below a power of two -/
theorem magnitude_eq (hq : q < 2046) : magnitude num den = q * 2 ^ 52 + s := by
  have hunit : 0 < den * 2 ^ q := Nat.mul_pos hden (Nat.two_pow_pos q)
  unfold magnitude
  simp only
  generalize num * 2 ^ 1074 = v at *
  have hlt : v < 2 ^ 53 * (den * 2 ^ q) := by
    have hle : s * (den * 2 ^ q) ≤ (2 ^ 53 - 1) * (den * 2 ^ q) :=
      Nat.mul_le_mul_right _ (by omega)
    omega
  by_cases hbinade : 2 ^ 52 * (den * 2 ^ q) ≤ v ∨ q = 0
  · have hround : roundHalfEven v (den * 2 ^ q) = s := by
      refine roundHalfEven_eq hunit ?_ ?_ ?_
      · split at hlow <;> omega
      · omega
      · omega
    rw [log2_div_sub hden hbinade hlt, hround]
    omega
  · -- the quotient is below the power of two, where a unit is half as large
    obtain ⟨hbelow, hq0⟩ := not_or.1 hbinade
    have hs' : s = 2 ^ 52 := by
      refine Nat.le_antisymm (Nat.le_of_not_lt fun hgt => hbelow ?_) (hlead.resolve_right hq0)
      have hle : (2 ^ 52 + 1) * (den * 2 ^ q) ≤ s * (den * 2 ^ q) := Nat.mul_le_mul_right _ hgt
      split at hlow <;> omega
    obtain ⟨k, rfl⟩ := Nat.exists_eq_succ_of_ne_zero hq0
    have hhalf : den * 2 ^ k.succ = 2 * (den * 2 ^ k) := by
      rw [Nat.pow_succ, ← Nat.mul_assoc, Nat.mul_comm]
    subst hs'
    rw [if_pos ⟨rfl, Nat.succ_pos k⟩] at hlow
    have hround : roundHalfEven v (den * 2 ^ k) = 2 ^ 53 := by
      refine roundHalfEven_eq (by omega) ?_ ?_ ?_
      · omega
      · omega
      · omega
    rw [log2_div_sub (q := k) hden (.inl (by omega)) (by omega), hround]
    omega

end

end Double

/-! ### decimal digits -/

theorem lt_ten_pow_length (n : Nat) : n < 10 ^ (Nat.toDigits 10 n).length :=
  (Nat.length_toDigits_le_iff (by omega) Nat.length_toDigits_pos).1 (Nat.le_refl _)

theorem ten_pow_length_le {n : Nat} (h : n ≠ 0) : 10 ^ ((Nat.toDigits 10 n).length - 1) ≤ n := by
  refine Nat.le_of_not_lt fun hlt => ?_
  by_cases hlen : (Nat.toDigits 10 n).length - 1 = 0
  · rw [hlen] at hlt
    omega
  · have hle := (Nat.length_toDigits_le_iff (by omega) (Nat.pos_of_ne_zero hlen)).2 hlt
    omega

/-! ### reading a fraction of the interval -/

namespace Interval

variable {i : Interval} {a : Nat} {e : Int}

theorem contains_iff : i.contains a e = true ↔
    i.low * 10 ^ (-e).toNat ≤ a * 10 ^ e.toNat * i.den ∧
      a * 10 ^ e.toNat * i.den ≤ i.high * 10 ^ (-e).toNat ∧
      (i.closed = false → i.low * 10 ^ (-e).toNat < a * 10 ^ e.toNat * i.den ∧
        a * 10 ^ e.toNat * i.den < i.high * 10 ^ (-e).toNat) := by
  unfold contains
  simp only
  generalize i.low * 10 ^ (-e).toNat = low, i.high * 10 ^ (-e).toNat = high,
    a * 10 ^ e.toNat * i.den = num
  cases i.closed with
  | true => simp
  | false =>
    simp only [Bool.false_eq_true, if_false, Bool.and_eq_true, decide_eq_true_eq, true_implies]
    omega

end Interval

namespace Double

/-- between the thresholds a fraction is rounded as a quotient -/
theorem ofDecimal_eq_ofRatio {negative : Bool} {d : Decimal}
    (hlow : 10 ^ (-d.exponent).toNat ≤ d.digits * 10 ^ (d.exponent.toNat + 324))
    (hhigh : d.digits * 10 ^ d.exponent.toNat < 10 ^ (309 + (-d.exponent).toNat)) :
    ofDecimal negative d =
      ofRatio negative (d.digits * 10 ^ d.exponent.toNat) (10 ^ (-d.exponent).toNat) := by
  have hdigits : d.digits ≠ 0 := fun h0 => by
    rw [h0, Nat.zero_mul] at hlow
    exact absurd hlow (Nat.not_le_of_gt (Nat.pow_pos (by omega)))
  have hlt := lt_ten_pow_length d.digits
  have hle := ten_pow_length_le hdigits
  unfold ofDecimal
  extract_lets places
  rw [if_neg, if_neg]
  · intro hlarge
    refine Nat.not_le_of_gt hhigh ?_
    calc 10 ^ (309 + (-d.exponent).toNat)
      _ ≤ 10 ^ (places - 1 + d.exponent.toNat) := Nat.pow_le_pow_right (by omega) (by omega)
      _ = 10 ^ (places - 1) * 10 ^ d.exponent.toNat := Nat.pow_add ..
      _ ≤ d.digits * 10 ^ d.exponent.toNat := Nat.mul_le_mul_right _ hle
  · rintro (h0 | hsmall)
    · exact hdigits h0
    · refine Nat.not_lt_of_ge hlow ?_
      calc d.digits * 10 ^ (d.exponent.toNat + 324)
        _ < 10 ^ places * 10 ^ (d.exponent.toNat + 324) :=
          Nat.mul_lt_mul_of_pos_right hlt (Nat.pow_pos (by omega))
        _ = 10 ^ (places + (d.exponent.toNat + 324)) := (Nat.pow_add ..).symm
        _ ≤ 10 ^ (-d.exponent).toNat := Nat.pow_le_pow_right (by omega) (by omega)

section
variable {x : Double}

theorem den_interval (x : Double) : x.interval.den = 4 * 2 ^ 1074 := by simp only [interval]

/-- the ends of an interval in units of its significand -/
theorem interval_ends :
    x.interval.low = 4 * (x.significand * 2 ^ x.shift) -
      (if x.significand = 2 ^ 52 ∧ 0 < x.shift then 1 else 2) * 2 ^ x.shift ∧
    x.interval.high = 4 * (x.significand * 2 ^ x.shift) + 2 * 2 ^ x.shift := by
  have hscale : 1 < x.scale ↔ 0 < x.shift := by
    unfold shift
    omega
  unfold interval units
  simp only [hscale, and_self]

/-- the ends of an interval as numerators of quotients with denominator `den` -/
theorem interval_mul (den : Nat) :
    x.interval.low * den = 4 * (x.significand * (den * 2 ^ x.shift)) -
      (if x.significand = 2 ^ 52 ∧ 0 < x.shift then 1 else 2) * (den * 2 ^ x.shift) ∧
    x.interval.high * den =
      4 * (x.significand * (den * 2 ^ x.shift)) + 2 * (den * 2 ^ x.shift) := by
  rw [interval_ends.1, interval_ends.2, Nat.sub_mul, Nat.add_mul]
  constructor <;> congr 1 <;> ac_rfl

theorem unit_le_units (h0 : x.units ≠ 0) : 2 ^ x.shift ≤ x.significand * 2 ^ x.shift :=
  Nat.le_mul_of_pos_left _ (Nat.pos_of_ne_zero (significand_ne_zero h0))

theorem units_le_unit : x.significand * 2 ^ x.shift ≤ (2 ^ 53 - 1) * 2 ^ x.shift :=
  Nat.mul_le_mul_right _ (Nat.le_sub_one_of_lt x.significand_lt)

theorem two_le_low (h0 : x.units ≠ 0) : 2 ≤ x.interval.low := by
  have hunit : 0 < 2 ^ x.shift := Nat.two_pow_pos _
  have hunits := unit_le_units h0
  have hlow := (interval_ends (x := x)).1
  split at hlow <;> omega

theorem high_lt (hfinite : x.isFinite = true) : x.interval.high < 10 ^ 309 * x.interval.den := by
  have hunits := units_le_unit (x := x)
  have hpow : ∀ k, x.shift ≤ k → 2 ^ x.shift ≤ 2 ^ k := fun _ => Nat.pow_le_pow_right Nat.two_pos
  have hshift := hpow 2045 (Nat.le_of_lt_succ (shift_lt hfinite))
  have hhuge : 2 ^ 55 * 2 ^ 2045 ≤ 10 ^ 309 * (4 * 2 ^ 1074) := by decide +kernel
  rw [den_interval, interval_ends.2]
  refine Nat.lt_of_lt_of_le ?_ hhuge
  have hunit : 0 < 2 ^ x.shift := Nat.two_pow_pos _
  generalize 2 ^ x.shift = unit at *
  generalize 2 ^ 2045 = bound at *
  omega

variable {d : Decimal} (hfinite : x.isFinite = true)
  (h : x.interval.contains d.digits d.exponent = true)
include hfinite h

theorem ofRatio_of_contains :
    ofRatio x.negative (d.digits * 10 ^ d.exponent.toNat) (10 ^ (-d.exponent).toNat) = x := by
  obtain ⟨hlow, hhigh, hopen⟩ := Interval.contains_iff.1 h
  have hden : ∀ n, n * x.interval.den = 4 * (n * 2 ^ 1074) := fun n => by
    rw [den_interval]
    generalize 2 ^ 1074 = unit
    exact Nat.mul_left_comm ..
  have hclosed : x.interval.closed = (x.significand % 2 == 0) := rfl
  rw [(interval_mul _).1, hden] at hlow hopen
  rw [(interval_mul _).2, hden] at hhigh
  rw [(interval_mul _).2] at hopen
  unfold ofRatio
  rw [magnitude_eq (q := x.shift) (s := x.significand) (Nat.pow_pos (by omega)) x.significand_lt
    x.significand_lead (by omega) hhigh ?_ (shift_lt hfinite), eq_ofMagnitude]
  intro hodd
  rw [hclosed] at hopen
  have h := hopen (by simp [hodd])
  split at h <;> omega

/-- **Fractions of the interval of a number are read as the number.** -/
theorem ofDecimal_of_contains (h0 : x.units ≠ 0) : ofDecimal x.negative d = x := by
  obtain ⟨hlow, hhigh, -⟩ := Interval.contains_iff.1 h
  have htiny : 4 * 2 ^ 1074 ≤ 2 * 10 ^ 324 := by decide +kernel
  rw [← x.den_interval] at htiny
  rw [ofDecimal_eq_ofRatio, ofRatio_of_contains hfinite h]
  · refine Nat.le_of_mul_le_mul_left (c := 2) ?_ Nat.zero_lt_two
    calc 2 * 10 ^ (-d.exponent).toNat
      _ ≤ x.interval.low * 10 ^ (-d.exponent).toNat := Nat.mul_le_mul_right _ (two_le_low h0)
      _ ≤ d.digits * 10 ^ d.exponent.toNat * x.interval.den := hlow
      _ ≤ d.digits * 10 ^ d.exponent.toNat * (2 * 10 ^ 324) := Nat.mul_le_mul_left _ htiny
      _ = 2 * (d.digits * 10 ^ (d.exponent.toNat + 324)) := by
        rw [Nat.pow_add]
        generalize 10 ^ 324 = bound
        rw [Nat.mul_left_comm, Nat.mul_assoc]
  · refine Nat.lt_of_mul_lt_mul_right (a := x.interval.den) ?_
    calc d.digits * 10 ^ d.exponent.toNat * x.interval.den
      _ ≤ x.interval.high * 10 ^ (-d.exponent).toNat := hhigh
      _ < 10 ^ 309 * x.interval.den * 10 ^ (-d.exponent).toNat :=
        Nat.mul_lt_mul_of_pos_right (high_lt hfinite) (Nat.pow_pos (by omega))
      _ = 10 ^ (309 + (-d.exponent).toNat) * x.interval.den := by
        rw [Nat.pow_add]
        generalize 10 ^ 309 = bound
        exact Nat.mul_right_comm ..

end

end Double

end Wattle
