import Wattle.Number.Layout
import Wattle.Proofs.Number.Shortest
import Wattle.Proofs.Token.Lexemes

/-!
# Spelled numbers are read back

A layout takes the zeros from the end of the digits of a fraction and may put others there, which
does not change whether the fraction lies in an interval (`Interval.contains_extended`).  Apart from
that a spelled fraction is read as what it was (`Layout.ofChars?_decimal`), and with it the number
(`Layout.ofText?_text`): in every layout the text of a number identifies it.
-/

namespace Wattle

/-! ### zeros at the end of the digits -/

/-- the same fraction with zeros at the end of its digits -/
def Decimal.extended (n : Nat) (d : Decimal) : Decimal := ⟨d.digits * 10 ^ n, d.exponent - n⟩

theorem le_iff_of_mul_eq {a b c d t t' : Nat} (ht : 0 < t) (ht' : 0 < t') (h : a * t = c * t')
    (h' : b * t = d * t') : a ≤ b ↔ c ≤ d := by
  rw [← Nat.mul_le_mul_right_iff ht, h, h', Nat.mul_le_mul_right_iff ht']

theorem Interval.contains_extended (i : Interval) (d : Decimal) (n : Nat) :
    i.contains (d.extended n).digits (d.extended n).exponent =
      i.contains d.digits d.exponent := by
  obtain ⟨a, e⟩ := d
  have hpos : ∀ k, 0 < 10 ^ k := fun k => Nat.pow_pos (by omega)
  have hnum : a * 10 ^ n * 10 ^ (e - n).toNat * i.den * 10 ^ (-e).toNat =
      a * 10 ^ e.toNat * i.den * 10 ^ (-(e - n)).toNat := by
    have hexp : 10 ^ n * 10 ^ (e - n).toNat * 10 ^ (-e).toNat =
        10 ^ e.toNat * 10 ^ (-(e - n)).toNat := by
      rw [← Nat.pow_add, ← Nat.pow_add, ← Nat.pow_add]
      congr 1
      omega
    calc a * 10 ^ n * 10 ^ (e - n).toNat * i.den * 10 ^ (-e).toNat
      _ = a * i.den * (10 ^ n * 10 ^ (e - n).toNat * 10 ^ (-e).toNat) := by ac_rfl
      _ = a * 10 ^ e.toNat * i.den * 10 ^ (-(e - n)).toNat := by
        rw [hexp]
        ac_rfl
  have hend : ∀ l : Nat, l * 10 ^ (-(e - n)).toNat * 10 ^ (-e).toNat =
      l * 10 ^ (-e).toNat * 10 ^ (-(e - n)).toNat := fun l => Nat.mul_right_comm ..
  have hlow := le_iff_of_mul_eq (hpos _) (hpos _) (hend i.low) hnum
  have hlow' := le_iff_of_mul_eq (hpos _) (hpos _) hnum (hend i.low)
  have hhigh := le_iff_of_mul_eq (hpos _) (hpos _) hnum (hend i.high)
  have hhigh' := le_iff_of_mul_eq (hpos _) (hpos _) (hend i.high) hnum
  rw [Bool.eq_iff_iff, contains_iff, contains_iff]
  simp only [Decimal.extended, ← Nat.not_le, hlow, hlow', hhigh, hhigh']

/-! ### the values of digits -/

theorem digitsValue_append_zeros (cs : List Char) (n : Nat) :
    digitsValue (cs ++ Layout.zeros n) = digitsValue cs * 10 ^ n := by
  unfold digitsValue Layout.zeros
  rw [Nat.ofDigitChars_append, Nat.ofDigitChars_replicate_zero, Nat.mul_comm]

theorem digitsValue_zeros_append (cs : List Char) (n : Nat) :
    digitsValue (Layout.zeros n ++ cs) = digitsValue cs := by
  unfold digitsValue Layout.zeros
  rw [Nat.ofDigitChars_append, Nat.ofDigitChars_replicate_zero, Nat.mul_zero]

theorem isDigit_of_mem_toDigits {n : Nat} : ∀ c ∈ Nat.toDigits 10 n, c.isDigit = true :=
  fun _ hc => Nat.isDigit_of_mem_toDigits (by omega) (by omega) hc

/-- the digits of a whole number are read as the number -/
theorem toDigits_ok (n : Nat) :
    ((Nat.toDigits 10 n).isEmpty || !(Nat.toDigits 10 n).all Char.isDigit) = false ∧
      digitsValue (Nat.toDigits 10 n) = n := by
  refine ⟨?_, Nat.ofDigitChars_ten_toDigits⟩
  rw [List.all_eq_true.2 isDigit_of_mem_toDigits, List.isEmpty_eq_false_iff.2 Nat.toDigits_ne_nil]
  rfl

namespace Layout

theorem isDigit_of_mem_zeros {n : Nat} : ∀ c ∈ zeros n, c.isDigit = true := by
  intro c hc
  rw [List.eq_of_mem_replicate hc]
  rfl

/-- digits without the zeros at their end, and these -/
theorem eq_trimZeros_append {ds : List Char} (h : ds ≠ []) :
    ∃ z, ds = trimZeros ds ++ zeros z := by
  have hzeros : (ds.reverse.takeWhile (· = '0')).reverse =
      zeros (ds.reverse.takeWhile (· = '0')).length := by
    refine List.eq_replicate_iff.2 ⟨List.length_reverse, fun c hc => ?_⟩
    simpa using List.all_eq_true.1 List.all_takeWhile c (List.mem_reverse.1 hc)
  have hsplit : ds = (ds.reverse.dropWhile (· = '0')).reverse ++
      (ds.reverse.takeWhile (· = '0')).reverse := by
    rw [← List.reverse_append, List.takeWhile_append_dropWhile, List.reverse_reverse]
  rw [hzeros] at hsplit
  generalize (ds.reverse.takeWhile (· = '0')).length = z at hsplit
  unfold trimZeros
  split
  · next hnil =>
    rw [hnil, List.nil_append] at hsplit
    cases z with
    | zero => exact absurd hsplit h
    | succ z => exact ⟨z, hsplit⟩
  · exact ⟨z, hsplit⟩

theorem trimZeros_ne_nil (ds : List Char) : trimZeros ds ≠ [] := by
  unfold trimZeros
  split
  · exact List.cons_ne_nil _ _
  · next h => exact fun hnil => h hnil

theorem isDigit_of_mem_trimZeros {ds : List Char} (h : ∀ c ∈ ds, c.isDigit = true) (hne : ds ≠ []) :
    ∀ c ∈ trimZeros ds, c.isDigit = true := by
  obtain ⟨z, hz⟩ := eq_trimZeros_append hne
  intro c hc
  refine h c ?_
  rw [hz]
  exact List.mem_append_left _ hc

end Layout

/-! ### reading spelled fractions -/

namespace Decimal

section
variable {w f r : List Char} (hw : ∀ c ∈ w, c.isDigit = true) (hne : w ≠ [])
include hw hne

theorem ofChars?_point (hf : ∀ c ∈ f, c.isDigit = true)
    (hr : ∀ c ∈ r.head?, c.isDigit = false) :
    ofChars? (w ++ '.' :: (f ++ r)) =
      (exponent? r).map fun e => ⟨digitsValue (w ++ f), e - f.length⟩ := by
  have hpoint : ∀ c ∈ ('.' :: (f ++ r)).head?, c.isDigit = false := by
    rintro c ⟨⟩
    rfl
  unfold ofChars?
  rw [takeWhile_append_of_head hw hpoint, dropWhile_append_of_head hw hpoint]
  simp [takeWhile_append_of_head hf hr, dropWhile_append_of_head hf hr, hne]

theorem ofChars?_fraction (hf : ∀ c ∈ f, c.isDigit = true) :
    ofChars? (w ++ '.' :: f) = some ⟨digitsValue (w ++ f), -f.length⟩ := by
  have h := ofChars?_point hw hne hf (r := []) nofun
  rwa [List.append_nil, exponent?, Option.map_some, Int.zero_sub] at h

theorem ofChars?_whole (hr : ∀ c ∈ r.head?, c.isDigit = false ∧ c ≠ '.') :
    ofChars? (w ++ r) = (exponent? r).map fun e => ⟨digitsValue w, e⟩ := by
  have hdigit : ∀ c ∈ r.head?, c.isDigit = false := fun c hc => (hr c hc).1
  unfold ofChars?
  rw [takeWhile_append_of_head hw hdigit, dropWhile_append_of_head hw hdigit]
  split
  next whole fraction tail heq =>
    split at heq
    · simp at hr
    · cases heq
      simp [hne]

end

theorem splitSign_of_digit {cs : List Char} (h : ∀ c ∈ cs.head?, c.isDigit = true) :
    splitSign cs = (false, cs) := by
  unfold splitSign
  split
  · cases h '-' rfl
  · cases h '+' rfl
  · rfl

/-- a sign and digits behind an `e` are read as an exponent -/
theorem exponent?_spelled {sign : List Char} {k : Int}
    (h : sign = ['-'] ∧ k < 0 ∨ (sign = [] ∨ sign = ['+']) ∧ 0 ≤ k) :
    exponent? ('e' :: (sign ++ Nat.toDigits 10 k.natAbs)) = some k := by
  obtain ⟨hok, hvalue⟩ := toDigits_ok k.natAbs
  have hsign : splitSign (sign ++ Nat.toDigits 10 k.natAbs) =
      (decide (k < 0), Nat.toDigits 10 k.natAbs) := by
    obtain ⟨rfl, hk⟩ | ⟨rfl | rfl, hk⟩ := h
    · simp [splitSign, hk]
    · rw [List.nil_append, splitSign_of_digit fun c hc =>
        isDigit_of_mem_toDigits c (List.mem_of_mem_head? hc), decide_eq_false (Int.not_lt.2 hk)]
    · simp [splitSign, Int.not_lt.2 hk]
  simp only [exponent?, true_or, if_true, hsign, hok, hvalue, Bool.false_eq_true, if_false,
    decide_eq_true_eq]
  congr 1
  omega

end Decimal

/-! ### spelled fractions -/

namespace Layout

section
variable {ds : List Char} (hds : ∀ c ∈ ds, c.isDigit = true) (hne : ds ≠ []) (k : Int)
include hds hne

/-- digits written out are a fraction whose first digit is worth `10 ^ k` -/
theorem ofChars?_plain : ∃ n, Decimal.ofChars? (plain ds k) =
    some (Decimal.extended n ⟨digitsValue ds, k + 1 - ds.length⟩) := by
  have hlen := List.length_pos_iff.2 hne
  unfold plain Decimal.extended
  split
  · have hf : ∀ c ∈ zeros ((-k).toNat - 1) ++ ds, c.isDigit = true :=
      List.forall_mem_append.2 ⟨isDigit_of_mem_zeros, hds⟩
    have hvalue : digitsValue (['0'] ++ (zeros ((-k).toNat - 1) ++ ds)) = digitsValue ds := by
      rw [← List.append_assoc]
      exact digitsValue_zeros_append ds ((-k).toNat - 1 + 1)
    have hread := Decimal.ofChars?_fraction (w := ['0']) (by simp) (by simp) hf
    rw [hvalue] at hread
    refine ⟨0, hread.trans ?_⟩
    simp [zeros]
    omega
  · simp only
    split
    · have hw : ∀ c ∈ ds ++ zeros (k.toNat + 1 - ds.length), c.isDigit = true :=
        List.forall_mem_append.2 ⟨hds, isDigit_of_mem_zeros⟩
      have hvalue : digitsValue (ds ++ zeros (k.toNat + 1 - ds.length) ++ ['0']) =
          digitsValue ds * 10 ^ (k.toNat + 1 - ds.length + 1) := by
        rw [← digitsValue_append_zeros, List.append_assoc, zeros, zeros, List.replicate_succ']
      have hread := Decimal.ofChars?_fraction (f := ['0']) hw (by simp [hne]) (by simp)
      rw [hvalue] at hread
      refine ⟨k.toNat + 1 - ds.length + 1, hread.trans ?_⟩
      simp
      omega
    · have hw : ∀ c ∈ ds.take (k.toNat + 1), c.isDigit = true := fun c hc =>
        hds c (List.mem_of_mem_take hc)
      have hf : ∀ c ∈ ds.drop (k.toNat + 1), c.isDigit = true := fun c hc =>
        hds c (List.mem_of_mem_drop hc)
      have hread := Decimal.ofChars?_fraction hw (by simp [hne]) hf
      rw [List.take_append_drop] at hread
      refine ⟨0, hread.trans ?_⟩
      simp
      omega

theorem ofChars?_scientific (plusSign : Bool) : Decimal.ofChars? (scientific plusSign ds k) =
    some ⟨digitsValue ds, k + 1 - ds.length⟩ := by
  obtain ⟨c, cs, rfl⟩ := List.exists_cons_of_ne_nil hne
  obtain ⟨hc, hcs⟩ := List.forall_mem_cons.1 hds
  unfold scientific
  extract_lets fraction sign
  have hexp : Decimal.exponent? ('e' :: (sign ++ Nat.toDigits 10 k.natAbs)) = some k := by
    refine Decimal.exponent?_spelled ?_
    by_cases hk : k < 0
    · exact .inl ⟨if_pos hk, hk⟩
    · refine .inr ⟨?_, by omega⟩
      cases plusSign <;> simp [sign, hk]
  cases cs with
  | nil =>
    have hread := Decimal.ofChars?_whole (w := [c]) (by simpa using hc) (by simp)
      (r := 'e' :: (sign ++ Nat.toDigits 10 k.natAbs)) (by simp)
    rw [hexp] at hread
    simpa [fraction] using hread
  | cons d ds =>
    have hread := Decimal.ofChars?_point (w := [c]) (by simpa using hc) (by simp) hcs
      (r := 'e' :: (sign ++ Nat.toDigits 10 k.natAbs)) (by simp)
    have hplaces : k - ((d :: ds).length : Int) = k + 1 - (c :: d :: ds).length := by
      simp only [List.length_cons]
      omega
    rw [hexp, Option.map_some, hplaces] at hread
    simpa [fraction] using hread

end

/-- a fraction is read as it was before it was spelled, up to zeros at the end of its digits -/
theorem ofChars?_decimal (layout : Layout) (d : Decimal) :
    ∃ t n z, Decimal.ofChars? (layout.decimal d) = some (Decimal.extended n t) ∧
      t.extended z = d := by
  obtain ⟨a, e⟩ := d
  have hall : ∀ c ∈ Nat.toDigits 10 a, c.isDigit = true := isDigit_of_mem_toDigits
  have hvalue : digitsValue (Nat.toDigits 10 a) = a := (toDigits_ok a).2
  have hne : Nat.toDigits 10 a ≠ [] := Nat.toDigits_ne_nil
  unfold decimal
  simp only
  generalize Nat.toDigits 10 a = ds at *
  obtain ⟨z, hz⟩ := eq_trimZeros_append hne
  have hne' := trimZeros_ne_nil ds
  have hts := isDigit_of_mem_trimZeros hall hne
  generalize trimZeros ds = ts at *
  subst hz
  rw [digitsValue_append_zeros] at hvalue
  generalize hk : e + (ts ++ zeros z).length - 1 = k
  have hextended : Decimal.extended z ⟨digitsValue ts, k + 1 - ts.length⟩ = ⟨a, e⟩ := by
    have hexponent : k + 1 - ts.length - z = e := by
      simp [zeros] at hk
      omega
    simp only [Decimal.extended, hvalue, hexponent]
  split
  · obtain ⟨n, hn⟩ := ofChars?_plain hts hne' k
    exact ⟨_, n, z, hn, hextended⟩
  · refine ⟨_, 0, z, (ofChars?_scientific hts hne' k layout.plusSign).trans ?_, hextended⟩
    simp [Decimal.extended]

/-! ### the characters of a number -/

/-- a digit, a point, the sign of an exponent or a sign in front of one -/
def IsNumeral (c : Char) : Prop := c.isDigit = true ∨ c ∈ ['.', 'e', '-', '+']

instance : DecidablePred IsNumeral := fun _ => inferInstanceAs (Decidable (_ ∨ _))

/-- a digit, and numerals that are not all digits -/
structure IsFraction (cs : List Char) : Prop where
  first : ∀ c ∈ cs.head?, c.isDigit = true
  chars : ∀ c ∈ cs, IsNumeral c
  mark : '.' ∈ cs ∨ 'e' ∈ cs

section
variable {ds : List Char} (hds : ∀ c ∈ ds, c.isDigit = true) (hne : ds ≠ []) (k : Int)
include hds hne

theorem isFraction_plain : IsFraction (plain ds k) := by
  have hds' : ∀ c ∈ ds, IsNumeral c := fun c hc => .inl (hds c hc)
  have hzeros : ∀ n, ∀ c ∈ zeros n, IsNumeral c :=
    fun n c hc => .inl (isDigit_of_mem_zeros c hc)
  have hfirst : ∀ c ∈ ds.head?, c.isDigit = true := fun c hc => hds c (List.mem_of_mem_head? hc)
  obtain ⟨d, ds', rfl⟩ := List.exists_cons_of_ne_nil hne
  unfold plain
  split
  · refine ⟨by simp, ?_, by simp⟩
    simp only [List.cons_append, List.forall_mem_cons, List.forall_mem_append]
    exact ⟨by decide, by decide, hzeros _, List.forall_mem_cons.1 hds'⟩
  · simp only
    split
    · refine ⟨by simpa using hfirst, ?_, by simp⟩
      simp only [List.forall_mem_append]
      exact ⟨⟨hds', hzeros _⟩, by simp [IsNumeral]⟩
    · refine ⟨by simpa using hfirst, ?_, by simp⟩
      simp only [List.forall_mem_cons, List.forall_mem_append]
      exact ⟨fun c hc => hds' c (List.mem_of_mem_take hc), by decide,
        fun c hc => hds' c (List.mem_of_mem_drop hc)⟩

theorem isFraction_scientific (plusSign : Bool) : IsFraction (scientific plusSign ds k) := by
  have hdigits : ∀ c ∈ Nat.toDigits 10 k.natAbs, IsNumeral c :=
    fun c hc => .inl (isDigit_of_mem_toDigits c hc)
  obtain ⟨d, ds', rfl⟩ := List.exists_cons_of_ne_nil hne
  obtain ⟨hd, hds'⟩ := List.forall_mem_cons.1 hds
  unfold scientific
  extract_lets fraction sign
  have hfraction : ∀ c ∈ fraction, IsNumeral c := by
    cases ds' with
    | nil => exact List.forall_mem_nil _
    | cons e es => exact List.forall_mem_cons.2 ⟨by decide, fun c hc => .inl (hds' c hc)⟩
  have hsign : ∀ c ∈ sign, IsNumeral c := by
    simp only [sign]
    split
    · exact List.forall_mem_singleton.2 (by decide)
    · split
      · exact List.forall_mem_singleton.2 (by decide)
      · exact List.forall_mem_nil _
  refine ⟨by simpa using hd, ?_, by simp⟩
  simp only [List.take_succ_cons, List.take_zero, List.cons_append, List.nil_append,
    List.forall_mem_cons, List.forall_mem_append]
  exact ⟨.inl hd, ⟨hfraction, by decide, hsign⟩, hdigits⟩

end

theorem isFraction_decimal (layout : Layout) (d : Decimal) : IsFraction (layout.decimal d) := by
  have hds : ∀ c ∈ trimZeros (Nat.toDigits 10 d.digits), c.isDigit = true :=
    isDigit_of_mem_trimZeros isDigit_of_mem_toDigits Nat.toDigits_ne_nil
  have hne := trimZeros_ne_nil (Nat.toDigits 10 d.digits)
  unfold decimal
  extract_lets digits k
  split
  · exact isFraction_plain hds hne k
  · exact isFraction_scientific hds hne k layout.plusSign

end Layout

/-! ### the text of a number -/

theorem toLower_of_isDigit {c : Char} (h : c.isDigit = true) : c.toLower = c := by
  unfold Char.toLower
  rw [dif_neg]
  rintro ⟨hle, -⟩
  have hletter : 65 ≤ c.toNat := UInt32.le_iff_toNat_le.1 hle
  have hdigit := isDigit_iff_toNat.1 h
  omega

namespace Layout

theorem toList_sign_append (negative : Bool) (s : String) :
    ((if negative then "-" else "") ++ s).toList =
      (if negative then ['-'] else []) ++ s.toList := by
  cases negative <;> simp

/-- a number is spelled by a fraction or by the name of infinity, behind a minus sign or none -/
theorem toList_text (layout : Layout) {x : Double} (h : x.isNaN = false) :
    ∃ cs, (layout.text x).toList = (if x.negative then ['-'] else []) ++ cs ∧
      (IsFraction cs ∨ cs = ['i', 'n', 'f']) := by
  unfold text
  rw [h, if_neg Bool.false_ne_true]
  simp only
  split
  · exact ⟨_, toList_sign_append .., .inr rfl⟩
  · refine ⟨_, toList_sign_append .., .inl ?_⟩
    rw [String.toList_ofList]
    exact isFraction_decimal ..

theorem ofText?_fraction {cs : List Char} (h : IsFraction cs) (negative : Bool) :
    Double.ofText? ((if negative then "-" else "") ++ String.ofList cs) =
      (Decimal.ofChars? cs).map (Double.ofDecimal negative) := by
  have hsign : Decimal.splitSign ((if negative then ['-'] else []) ++ cs) = (negative, cs) := by
    cases negative with
    | true => rfl
    | false => exact Decimal.splitSign_of_digit h.first
  have hname : ∀ s : String, s.toList.head?.map Char.isDigit ≠ some true →
      String.ofList (cs.map Char.toLower) ≠ s := by
    rintro s hs rfl
    cases cs with
    | nil => exact absurd h.mark (by simp)
    | cons c cs =>
      have hc := h.first c rfl
      simp [toLower_of_isDigit hc, hc] at hs
  unfold Double.ofText?
  rw [toList_sign_append, String.toList_ofList, hsign]
  simp only
  rw [if_neg, if_neg]
  · exact hname _ (by decide)
  · exact not_or.2 ⟨hname _ (by decide), hname _ (by decide)⟩

theorem ofText?_inf (negative : Bool) :
    Double.ofText? ((if negative then "-" else "") ++ "inf") = some (Double.infinity negative) := by
  cases negative <;> rfl

/-- **Numbers are read back from their texts**, in any layout. -/
theorem ofText?_text (layout : Layout) {x : Double} (h : x.isNaN = false) :
    Double.ofText? (layout.text x) = some x := by
  unfold text
  rw [h, if_neg Bool.false_ne_true]
  simp only
  cases hinf : x.isInfinite with
  | true =>
    rw [if_pos rfl, ofText?_inf, Double.eq_infinity hinf]
  | false =>
    rw [if_neg Bool.false_ne_true, ofText?_fraction (isFraction_decimal ..)]
    obtain ⟨t, n, z, hread, ht⟩ := ofChars?_decimal layout (x.shortest layout.tie)
    rw [hread, Option.map_some]
    congr 1
    by_cases h0 : x.units = 0
    · rw [Double.shortest, if_pos h0] at ht
      have hdigits : (t.extended n).digits = 0 := by
        have hzero : t.digits * 10 ^ z = 0 := congrArg Decimal.digits ht
        have ht0 := (Nat.mul_eq_zero.1 hzero).resolve_right
          (Nat.pos_iff_ne_zero.1 (Nat.pow_pos (by omega)))
        rw [Decimal.extended, ht0, Nat.zero_mul]
      rw [Double.ofDecimal, if_pos (.inl hdigits), Double.eq_zero h0]
    · refine Double.ofDecimal_of_contains (Double.isFinite_of_not h hinf) ?_ h0
      rw [Interval.contains_extended, ← Interval.contains_extended _ t z, ht]
      exact Double.contains_shortest h0 layout.tie

end Layout

end Wattle
