import Wattle.Proofs.Number.Nearest

/-!
# Shortest decimals lie in the interval

Of the two neighbours of a number among the multiples of a power of ten, one lies in the interval if
this is wider than the distance between them (`Interval.isSome_nearest?`).  At seventeen digits the
intervals of all numbers are, so that the search for the shortest fraction always ends in the
interval (`Double.contains_shortest`).
-/

namespace Wattle

namespace Interval

variable {i : Interval} {tie : Tie} {e : Int}

/-! ### the first digit -/

/-- the first digit of a quotient is worth no more than the quotient -/
theorem leading_le {num den : Nat} (hnum : num ≠ 0) (hden : 0 < den) :
    den * 10 ^ (leading num den).toNat ≤ num * 10 ^ (-leading num den).toNat := by
  unfold leading
  split
  · next h =>
    have hpos : 0 < (Nat.toDigits 10 (num / den)).length := Nat.length_toDigits_pos
    have hle := ten_pow_length_le (Nat.pos_iff_ne_zero.1 (Nat.div_pos h hden))
    rw [Nat.le_div_iff_mul_le hden, Nat.mul_comm] at hle
    have hexp : ((Nat.toDigits 10 (num / den)).length - 1 : Int).toNat =
        (Nat.toDigits 10 (num / den)).length - 1 := by omega
    have hexp' : (-((Nat.toDigits 10 (num / den)).length - 1 : Int)).toNat = 0 := by omega
    rwa [hexp, hexp', Nat.pow_zero, Nat.mul_one]
  · have hlt := lt_ten_pow_length ((den - 1) / num)
    rw [Nat.div_lt_iff_lt_mul (Nat.pos_of_ne_zero hnum), Nat.mul_comm] at hlt
    have hexp : (-((Nat.toDigits 10 ((den - 1) / num)).length : Int)).toNat = 0 := by omega
    rw [hexp, Int.neg_neg, Int.toNat_natCast, Nat.pow_zero, Nat.mul_one]
    omega

/-! ### the nearest multiples -/

theorem contains_of_lt {a : Nat} (hlow : i.low * 10 ^ (-e).toNat < a * 10 ^ e.toNat * i.den)
    (hhigh : a * 10 ^ e.toNat * i.den < i.high * 10 ^ (-e).toNat) : i.contains a e = true :=
  contains_iff.2 ⟨Nat.le_of_lt hlow, Nat.le_of_lt hhigh, fun _ => ⟨hlow, hhigh⟩⟩

theorem contains_of_nearest? {a : Nat} (h : i.nearest? tie e = some a) : i.contains a e = true := by
  unfold nearest? at h
  simp only at h
  split at h
  · cases h
  · next hlow _ =>
    obtain rfl := Option.some.inj h
    exact hlow
  · next hhigh =>
    obtain rfl := Option.some.inj h
    exact hhigh
  · next hlow hhigh =>
    generalize i.mid * 10 ^ (-e).toNat / (i.den * 10 ^ e.toNat) = b at *
    have hcases : a = b ∨ a = b + 1 := by
      split at h
      · simp_all
      · split at h
        · simp_all
        · split at h
          · simp_all
          · have := Option.some.inj h
            omega
    rcases hcases with rfl | rfl
    · exact hlow
    · exact hhigh

/-- one of two neighbours lies in an interval that is wider than the distance between them -/
theorem isSome_nearest? (hlow : i.low < i.mid) (hhigh : i.mid < i.high) (hden : 0 < i.den)
    (hwidth : i.den * 10 ^ e.toNat < (i.high - i.low) * 10 ^ (-e).toNat) :
    (i.nearest? tie e).isSome = true := by
  have hten : 0 < 10 ^ (-e).toNat := Nat.pow_pos (by omega)
  have hbelow := Nat.mul_lt_mul_of_pos_right hlow hten
  have habove := Nat.mul_lt_mul_of_pos_right hhigh hten
  have hunit : 0 < i.den * 10 ^ e.toNat := Nat.mul_pos hden (Nat.pow_pos (by omega))
  have hfloor := Nat.div_mul_le_self (i.mid * 10 ^ (-e).toNat) (i.den * 10 ^ e.toNat)
  have hceil := Nat.lt_div_mul_add hunit (a := i.mid * 10 ^ (-e).toNat)
  unfold nearest?
  simp only
  generalize i.mid * 10 ^ (-e).toNat / (i.den * 10 ^ e.toNat) = a at *
  have hx : a * 10 ^ e.toNat * i.den = a * (i.den * 10 ^ e.toNat) := by
    rw [Nat.mul_assoc, Nat.mul_comm i.den]
  have hx' : (a + 1) * 10 ^ e.toNat * i.den =
      a * (i.den * 10 ^ e.toNat) + i.den * 10 ^ e.toNat := by
    rw [Nat.mul_assoc, Nat.mul_comm i.den, Nat.add_mul, Nat.one_mul]
  rw [Nat.sub_mul] at hwidth
  -- were both outside, the interval would not be wider than the distance between them
  have hsome : i.contains a e = true ∨ i.contains (a + 1) e = true := by
    by_cases hin : i.low * 10 ^ (-e).toNat < a * 10 ^ e.toNat * i.den
    · exact .inl (contains_of_lt hin (by omega))
    · exact .inr (contains_of_lt (by omega) (by omega))
  split
  · next hno hno' => simp [hno, hno'] at hsome
  · rfl
  · rfl
  · split
    · rfl
    · split
      · rfl
      · split <;> rfl

/-! ### the search -/

theorem contains_search {n : Nat} (h : ∃ k < n, (i.nearest? tie (e - k)).isSome = true) :
    i.contains (i.search tie n e).digits (i.search tie n e).exponent = true := by
  induction n generalizing e with
  | zero =>
    obtain ⟨k, hk, -⟩ := h
    omega
  | succ n ih =>
    unfold search
    split
    · next a ha => exact contains_of_nearest? ha
    · next hnone =>
      obtain ⟨k, hk, hsome⟩ := h
      cases k with
      | zero => simp [hnone] at hsome
      | succ k =>
        refine ih ⟨k, by omega, ?_⟩
        rwa [show e - 1 - (k : Int) = e - (k + 1 : Nat) by omega]

/-- seventeen digits are enough for an interval that is not too narrow -/
theorem contains_shortest (hlow : i.low < i.mid) (hhigh : i.mid < i.high) (hden : 0 < i.den)
    (hwidth : i.mid < (i.high - i.low) * 10 ^ 16) :
    i.contains (i.shortest tie).digits (i.shortest tie).exponent = true := by
  have hmid : i.mid ≠ 0 := Nat.pos_iff_ne_zero.1 (Nat.zero_lt_of_lt hlow)
  have hlead := leading_le hmid hden
  refine contains_search ⟨16, by omega, isSome_nearest? hlow hhigh hden ?_⟩
  generalize leading i.mid i.den = k at *
  refine Nat.lt_of_mul_lt_mul_right (a := 10 ^ (16 + (-k).toNat)) ?_
  calc i.den * 10 ^ (k - (16 : Nat)).toNat * 10 ^ (16 + (-k).toNat)
    _ = i.den * 10 ^ k.toNat * 10 ^ (-(k - (16 : Nat))).toNat := by
      rw [Nat.mul_assoc, Nat.mul_assoc, ← Nat.pow_add, ← Nat.pow_add]
      congr 2
      omega
    _ ≤ i.mid * 10 ^ (-k).toNat * 10 ^ (-(k - (16 : Nat))).toNat := Nat.mul_le_mul_right _ hlead
    _ = i.mid * (10 ^ (-k).toNat * 10 ^ (-(k - (16 : Nat))).toNat) := Nat.mul_assoc ..
    _ < (i.high - i.low) * 10 ^ 16 * (10 ^ (-k).toNat * 10 ^ (-(k - (16 : Nat))).toNat) :=
      Nat.mul_lt_mul_of_pos_right hwidth
        (Nat.mul_pos (Nat.pow_pos (by omega)) (Nat.pow_pos (by omega)))
    _ = (i.high - i.low) * 10 ^ (-(k - (16 : Nat))).toNat * 10 ^ (16 + (-k).toNat) := by
      rw [Nat.pow_add]
      ac_rfl

end Interval

namespace Double

variable {x : Double}

theorem contains_shortest (h0 : x.units ≠ 0) (tie : Tie) :
    x.interval.contains (x.shortest tie).digits (x.shortest tie).exponent = true := by
  unfold shortest
  rw [if_neg h0]
  have hunit : 0 < 2 ^ x.shift := Nat.two_pow_pos _
  have hunits := unit_le_units h0
  have hunits' := units_le_unit (x := x)
  obtain ⟨hlow, hhigh⟩ := interval_ends (x := x)
  have hmid : x.interval.mid = 4 * (x.significand * 2 ^ x.shift) := rfl
  have hden : 0 < x.interval.den := by
    have hpow : ∀ k, 0 < 4 * 2 ^ k := fun k => Nat.mul_pos (by omega) (Nat.two_pow_pos k)
    rw [den_interval]
    exact hpow 1074
  refine Interval.contains_shortest ?_ ?_ hden ?_
  · split at hlow <;> omega
  · omega
  · -- a power of two has a narrower interval, but its significand is the smallest one
    split at hlow
    · next h =>
      rw [h.1] at hlow hhigh hmid
      omega
    · omega

end Double

end Wattle
