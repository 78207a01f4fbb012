import Wattle.Json.Reader
import Wattle.Proofs.Token.Lexemes

/-!
# Strings and numbers of JSON

A character is written as one piece of a string (`escapeChar_cases`), and the pieces of a text are
joined to it again (`joinPieces_map`).  A number is read up to a character that does not go on with
it (`readNumber_append`).  Nothing that is written is a control character.
-/

namespace Wattle.Json

/-! ### strings -/

/-- the piece that a character is spelled as: control characters without a short escape are named
by their number -/
def Piece.of (c : Char) : Piece :=
  if c ∉ ['\x08', '\x0c', '\n', '\r', '\t'] ∧ c.toNat < 32 then .unit c.toNat else .char c

theorem unit?_digitChar : ∀ n < 32,
    unit? '0' '0' (Nat.digitChar (n / 16)) (Nat.digitChar (n % 16)) = some n := by
  decide

section
variable {c : Char}

/-- there are three ways to spell a character -/
theorem escapeChar_cases (c : Char) :
    (∃ e, escapeChar c = ['\\', e] ∧ unescape? e = some c ∧ Piece.of c = .char c) ∨
      (c.toNat < 32 ∧ escapeChar c = ['\\', 'u', '0', '0', Nat.digitChar (c.toNat / 16),
        Nat.digitChar (c.toNat % 16)] ∧ Piece.of c = .unit c.toNat) ∨
      (32 ≤ c.toNat ∧ c ≠ '"' ∧ c ≠ '\\' ∧ escapeChar c = [c] ∧ Piece.of c = .char c) := by
  by_cases hc : c ∈ ['"', '\\', '\x08', '\x0c', '\n', '\r', '\t']
  · refine .inl ?_
    simp only [List.mem_cons, List.not_mem_nil, or_false] at hc
    rcases hc with rfl | rfl | rfl | rfl | rfl | rfl | rfl <;> exact ⟨_, rfl, rfl, rfl⟩
  · simp only [List.mem_cons, List.not_mem_nil, or_false, not_or] at hc
    obtain ⟨h₁, h₂, h₃, h₄, h₅, h₆, h₇⟩ := hc
    by_cases hlow : c.toNat < 32
    · exact .inr (.inl ⟨hlow, by simp [escapeChar, *], by simp [Piece.of, *]⟩)
    · exact .inr (.inr ⟨by omega, h₁, h₂, by simp [escapeChar, *], by simp [Piece.of, *]⟩)

theorem readPieces_short {e : Char} (h : unescape? e = some c) (rest : List Char) :
    readPieces ('\\' :: e :: rest) =
      (readPieces rest).map fun (pieces, rest) => (.char c :: pieces, rest) := by
  have he : e ≠ 'u' := by
    rintro rfl
    cases h
  rw [readPieces, h]
  · cases readPieces rest <;> rfl
  · exact fun a b d f rest he' _ => he he'

theorem readPieces_unit {n : Nat} {a b d e : Char} (h : unit? a b d e = some n) (rest : List Char) :
    readPieces ('\\' :: 'u' :: a :: b :: d :: e :: rest) =
      (readPieces rest).map fun (pieces, rest) => (.unit n :: pieces, rest) := by
  rw [readPieces, h]
  cases readPieces rest <;> rfl

theorem readPieces_plain (hlow : 32 ≤ c.toNat) (hquote : c ≠ '"') (hslash : c ≠ '\\')
    (rest : List Char) :
    readPieces (c :: rest) =
      (readPieces rest).map fun (pieces, rest) => (.char c :: pieces, rest) := by
  rw [readPieces, if_neg (by simp [hslash, hlow])]
  · cases readPieces rest <;> rfl
  all_goals simp_all

end

/-- a unit that is no surrogate is a character -/
theorem joinPieces_unit {n : Nat} (hhigh : isHighSurrogate n = false)
    (hlow : isLowSurrogate n = false) (pieces : List Piece) :
    joinPieces (.unit n :: pieces) = (joinPieces pieces).map (Char.ofNat n :: ·) := by
  cases pieces with
  | nil => simp [joinPieces, hhigh, hlow]
  | cons piece pieces => cases piece <;> simp [joinPieces, hhigh, hlow]

theorem not_surrogate_of_lt {n : Nat} (hn : n < 32) :
    isHighSurrogate n = false ∧ isLowSurrogate n = false := by
  simp [isHighSurrogate, isLowSurrogate]
  omega

/-- the pieces of a text are joined to it -/
theorem joinPieces_map (cs : List Char) : joinPieces (cs.map .of) = some cs := by
  induction cs with
  | nil => rfl
  | cons c cs ih =>
    rw [List.map_cons]
    obtain ⟨e, -, -, hpiece⟩ | ⟨hlow, -, hpiece⟩ | ⟨-, -, -, -, hpiece⟩ := escapeChar_cases c <;>
      rw [hpiece]
    · rw [joinPieces, ih, Option.map_some]
    · obtain ⟨hhigh, hlow⟩ := not_surrogate_of_lt hlow
      rw [joinPieces_unit hhigh hlow, ih, Option.map_some, Char.ofNat_toNat]
    · rw [joinPieces, ih, Option.map_some]

/-! ### numbers -/

/-- the spellings of numbers: a sign, digits without leading zeros, a fraction and an exponent, of
which only the digits have to be there -/
inductive IsNumber : List Char → Prop
  | intro {sign whole fraction exponent : List Char} (hsign : sign = [] ∨ sign = ['-'])
      (hwhole : whole = ['0'] ∨ IsDigits whole ∧ whole.head? ≠ some '0')
      (hfraction : fraction = [] ∨ ∃ ds, IsDigits ds ∧ fraction = '.' :: ds)
      (hexponent : exponent = [] ∨ ∃ e sign ds, (e = 'e' ∨ e = 'E') ∧
        sign ∈ [[], ['+'], ['-']] ∧ IsDigits ds ∧ exponent = e :: (sign ++ ds)) :
      IsNumber (sign ++ whole ++ fraction ++ exponent)

/-- whether a number may go on with a character -/
def goesOn (c : Char) : Bool := c.isDigit || c == '.' || c == 'e' || c == 'E'

/-- a number ends in front of the rest of a text -/
def Ends (rest : List Char) : Prop := ∀ c ∈ rest.head?, goesOn c = false

section
variable {ds rest : List Char}

theorem readDigits_append (h : IsDigits ds) (hrest : ∀ c ∈ rest.head?, c.isDigit = false) :
    readDigits (ds ++ rest) = some (ds, rest) := by
  rw [readDigits, takeWhile_append_of_head h.2 hrest, dropWhile_append_of_head h.2 hrest,
    List.isEmpty_eq_false_iff.2 h.1]
  rfl

theorem readWhole_append {whole : List Char}
    (h : whole = ['0'] ∨ IsDigits whole ∧ whole.head? ≠ some '0')
    (hrest : ∀ c ∈ rest.head?, c.isDigit = false) :
    readWhole (whole ++ rest) = some (whole, rest) := by
  obtain rfl | ⟨hdigits, hzero⟩ := h
  · rfl
  · obtain ⟨d, ds, rfl⟩ := List.exists_cons_of_ne_nil hdigits.1
    rw [List.cons_append, readWhole, ← List.cons_append, readDigits_append hdigits hrest]
    intro more hmore
    exact hzero (congrArg some (List.cons.inj hmore).1)

theorem readFraction_append {fraction : List Char}
    (h : fraction = [] ∨ ∃ ds, IsDigits ds ∧ fraction = '.' :: ds)
    (hrest : ∀ c ∈ rest.head?, c.isDigit = false ∧ c ≠ '.') :
    readFraction (fraction ++ rest) = some (fraction, rest) := by
  obtain rfl | ⟨ds, hdigits, rfl⟩ := h
  · rw [List.nil_append, readFraction]
    rintro more rfl
    exact (hrest '.' rfl).2 rfl
  · rw [List.cons_append, readFraction, readDigits_append hdigits fun c hc => (hrest c hc).1]
    rfl

theorem readExponent_append {exponent : List Char}
    (h : exponent = [] ∨ ∃ e sign ds, (e = 'e' ∨ e = 'E') ∧
      sign ∈ [[], ['+'], ['-']] ∧ IsDigits ds ∧ exponent = e :: (sign ++ ds))
    (hrest : Ends rest) : readExponent (exponent ++ rest) = some (exponent, rest) := by
  obtain rfl | ⟨e, sign, ds, he, hsign, hdigits, rfl⟩ := h
  · cases rest with
    | nil => rfl
    | cons c rest =>
      have hc : ¬ (c = 'e' ∨ c = 'E') := by
        have hend := hrest c rfl
        rintro (rfl | rfl) <;> cases hend
      rw [List.nil_append, readExponent, if_neg hc]
  · have hsplit : splitSign (sign ++ ds ++ rest) = (sign, ds ++ rest) := by
      simp only [List.mem_cons, List.not_mem_nil, or_false] at hsign
      obtain ⟨d, ds, rfl⟩ := List.exists_cons_of_ne_nil hdigits.1
      rcases hsign with rfl | rfl | rfl
      · have hd : d.isDigit = true := hdigits.2 d List.mem_cons_self
        rw [List.nil_append, List.cons_append, splitSign]
        all_goals
          rintro more hmore
          obtain rfl := (List.cons.inj hmore).1
          cases hd
      · rfl
      · rfl
    have hdigit : ∀ c ∈ rest.head?, c.isDigit = false := fun c hc => by
      have hend := hrest c hc
      simp_all [goesOn]
    rw [List.cons_append, readExponent, if_pos he, hsplit]
    simp [readDigits_append hdigits hdigit]

/-- a number starts with its sign or a digit -/
theorem IsNumber.exists_cons {cs : List Char} (h : IsNumber cs) :
    ∃ d ds, cs = d :: ds ∧ (d = '-' ∨ d.isDigit = true) := by
  obtain @⟨sign, whole, fraction, exponent, hsign, hwhole, -, -⟩ := h
  have hfirst : ∃ d ds, whole = d :: ds ∧ d.isDigit = true := by
    obtain rfl | ⟨hdigits, -⟩ := hwhole
    · exact ⟨'0', [], rfl, rfl⟩
    · obtain ⟨d, ds, rfl⟩ := List.exists_cons_of_ne_nil hdigits.1
      exact ⟨d, ds, rfl, hdigits.2 d List.mem_cons_self⟩
  obtain ⟨d, ds, rfl, hd⟩ := hfirst
  rcases hsign with rfl | rfl
  · exact ⟨d, _, rfl, .inr hd⟩
  · exact ⟨'-', _, rfl, .inl rfl⟩

/-- **A number is read up to its end.** -/
theorem readNumber_append {cs : List Char} (h : IsNumber cs) (hrest : Ends rest) :
    readNumber (cs ++ rest) = some (cs, rest) := by
  obtain @⟨sign, whole, fraction, exponent, hsign, hwhole, hfraction, hexponent⟩ := h
  have hend : ∀ c ∈ rest.head?, c.isDigit = false ∧ c ≠ '.' := fun c hc => by
    have hc := hrest c hc
    simp_all [goesOn]
  have hfollow : ∀ c ∈ (exponent ++ rest).head?, c.isDigit = false ∧ c ≠ '.' := by
    obtain rfl | ⟨e, sign, ds, rfl | rfl, -, -, rfl⟩ := hexponent
    · exact hend
    · rintro c ⟨⟩
      decide
    · rintro c ⟨⟩
      decide
  have hfollow' : ∀ c ∈ (fraction ++ (exponent ++ rest)).head?, c.isDigit = false := by
    obtain rfl | ⟨ds, -, rfl⟩ := hfraction
    · exact fun c hc => (hfollow c hc).1
    · rintro c ⟨⟩
      rfl
  have hminus : ∀ more, whole ++ (fraction ++ (exponent ++ rest)) = '-' :: more → False := by
    intro more hmore
    obtain rfl | ⟨hdigits, -⟩ := hwhole
    · cases hmore
    · obtain ⟨d, ds, rfl⟩ := List.exists_cons_of_ne_nil hdigits.1
      obtain rfl := (List.cons.inj hmore).1
      cases hdigits.2 '-' List.mem_cons_self
  simp only [List.append_assoc]
  have hread := readWhole_append hwhole hfollow'
  rcases hsign with rfl | rfl
  · rw [List.nil_append, readNumber.eq_2 _ hminus]
    simp [hread, readFraction_append hfraction hfollow, readExponent_append hexponent hrest]
  · rw [List.cons_append, List.nil_append, readNumber]
    simp [hread, readFraction_append hfraction hfollow, readExponent_append hexponent hrest]

end

/-! ### no control characters -/

/-- no character is a control character -/
def Printable (cs : List Char) : Prop := ∀ c ∈ cs, 32 ≤ c.toNat

instance (cs : List Char) : Decidable (Printable cs) :=
  List.decidableBAll (fun c : Char => 32 ≤ c.toNat) cs

section
variable {cs ds : List Char}

theorem Printable.cons {c : Char} (hc : 32 ≤ c.toNat) (h : Printable cs) : Printable (c :: cs) :=
  List.forall_mem_cons.2 ⟨hc, h⟩

theorem Printable.append (h : Printable cs) (h' : Printable ds) : Printable (cs ++ ds) :=
  List.forall_mem_append.2 ⟨h, h'⟩

theorem printable_escapeChar (c : Char) : Printable (escapeChar c) := by
  have hdigit : ∀ d < 16, 32 ≤ (Nat.digitChar d).toNat := by decide
  have hescaped : ∀ e d, unescape? e = some d → 32 ≤ e.toNat := by
    intro e d he
    unfold unescape? at he
    split at he <;> first | decide | cases he
  obtain ⟨e, hc, he, -⟩ | ⟨hlow, hc, -⟩ | ⟨hlow, -, -, hc, -⟩ := escapeChar_cases c <;> rw [hc]
  · exact .cons (by decide) (.cons (hescaped e c he) nofun)
  · refine .cons (by decide) (.cons (by decide) (.cons (by decide) (.cons (by decide) ?_)))
    exact .cons (hdigit _ (by omega)) (.cons (hdigit _ (by omega)) nofun)
  · exact .cons hlow nofun

theorem printable_putString (text : Option String) (h : Printable cs) :
    Printable (putString text cs) := by
  have hescape (s : String) : Printable (escape s.toList) := by
    intro c hc
    obtain ⟨d, -, hd⟩ := List.mem_flatMap.1 hc
    exact printable_escapeChar d c hd
  cases text with
  | none =>
    have hlone : Printable ['"', '\\', 'u', 'd', '8', '0', '0', '"'] := by decide
    exact hlone.append h
  | some s => exact .cons (by decide) ((hescape s).append (.cons (by decide) h))

theorem printable_digits (h : IsDigits cs) : Printable cs := by
  intro c hc
  have hdigit := h.2 c hc
  rw [isDigit_iff_toNat] at hdigit
  omega

theorem IsNumber.printable (h : IsNumber cs) : Printable cs := by
  obtain ⟨hsign, hwhole, hfraction, hexponent⟩ := h
  refine (((?_ : Printable _).append ?_).append ?_).append ?_
  · rcases hsign with rfl | rfl <;> decide
  · obtain rfl | ⟨hdigits, -⟩ := hwhole
    · decide
    · exact printable_digits hdigits
  · obtain rfl | ⟨ds, hdigits, rfl⟩ := hfraction
    · exact nofun
    · exact .cons (by decide) (printable_digits hdigits)
  · obtain rfl | ⟨e, sign, ds, he, hsign, hdigits, rfl⟩ := hexponent
    · exact nofun
    · refine .cons ?_ (.append ?_ (printable_digits hdigits))
      · rcases he with rfl | rfl <;> decide
      · simp only [List.mem_cons, List.not_mem_nil, or_false] at hsign
        rcases hsign with rfl | rfl | rfl <;> decide

end

end Wattle.Json
