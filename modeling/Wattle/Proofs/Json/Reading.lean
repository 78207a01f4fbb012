import Wattle.Proofs.Json.Grammar

/-!
# The reader and the grammar agree

The reader takes the spellings of values and nothing else (`read?_eq_some_iff`).

* `spelled_of_readValue`   what is read is a spelling, by induction on the steps;
* `Spelled.readValue_eq`   a spelling is read, wherever its blanks are, if there is a step for each
                           word and the value ends there.
-/

namespace Wattle.Json

/-! ### blanks -/

section
variable {row : List (List Char)} {g w cs cs' rest : List Char}

theorem skipBlanks_append (hg : Blank g) (cs : List Char) :
    skipBlanks (g ++ cs) = skipBlanks cs :=
  List.dropWhile_append_of_pos hg

theorem exists_blank (cs : List Char) : ∃ g, Blank g ∧ cs = g ++ skipBlanks cs :=
  ⟨cs.takeWhile isBlank, List.all_eq_true.1 List.all_takeWhile,
    (List.takeWhile_append_dropWhile ..).symm⟩

theorem skipBlanks_eq_nil_iff : skipBlanks cs = [] ↔ Blank cs := by
  refine ⟨fun h => ?_, fun h => ?_⟩
  · obtain ⟨g, hg, hcs⟩ := exists_blank cs
    rw [h, List.append_nil] at hcs
    exact hcs ▸ hg
  · have happend := skipBlanks_append h []
    rwa [List.append_nil] at happend

theorem starts_not_blank {c : Char} (h : starts c = true) : isBlank c = false := by
  simp_all [starts]

theorem skipBlanks_cons {c : Char} (h : isBlank c = false) (cs : List Char) :
    skipBlanks (c :: cs) = c :: cs := by
  rw [skipBlanks, List.dropWhile_cons, h]
  rfl

/-- the first word of a spacing is found behind the blanks -/
theorem Spaced.skipBlanks_eq {c : Char} (hc : isBlank c = false)
    (h : Spaced ((c :: w) :: row) cs rest) :
    ∃ cs', skipBlanks cs = c :: (w ++ cs') ∧ Spaced row cs' rest := by
  cases h with
  | @cons g _ _ cs' _ hg h =>
    refine ⟨cs', ?_, h⟩
    rw [skipBlanks_append hg, List.cons_append, skipBlanks_cons hc]

theorem Spaced.of_skipBlanks (hw : skipBlanks cs = w ++ cs') (h : Spaced row cs' rest) :
    Spaced (w :: row) cs rest := by
  obtain ⟨g, hg, hcs⟩ := exists_blank cs
  rw [hcs, hw]
  exact .cons hg h

/-- blanks in front of a row with words do not matter -/
theorem Spaced.blank_iff (h : Starts row) :
    Spaced row (skipBlanks cs) rest ↔ Spaced row cs rest := by
  obtain ⟨c, w, more, rfl, hc⟩ := h
  have hskip : ∀ cs', skipBlanks (c :: (w ++ cs')) = c :: w ++ cs' := fun cs' =>
    skipBlanks_cons (starts_not_blank hc) _
  refine ⟨fun h => ?_, fun h => ?_⟩
  · obtain ⟨g, hg, hcs⟩ := exists_blank cs
    generalize skipBlanks cs = found at h hcs
    cases h with
    | @cons g' _ _ cs' _ hg' h =>
      rw [hcs, ← List.append_assoc]
      exact .cons (hg.append hg') h
  · obtain ⟨cs', hcs, h⟩ := h.skipBlanks_eq (starts_not_blank hc)
    rw [hcs]
    exact .of_skipBlanks (hskip cs') h

end

/-! ### strings -/

section
variable {pieces : List Piece} {text : Option String} {cs w rest : List Char}

theorem Piece.Spelled.readPieces_append {piece : Piece} (h : piece.Spelled w) (rest : List Char) :
    readPieces (w ++ rest) =
      (readPieces rest).map fun (pieces, rest) => (piece :: pieces, rest) := by
  cases h with
  | plain hlow hquote hslash => exact readPieces_plain hlow hquote hslash rest
  | short h => exact readPieces_short h rest
  | unit h => exact readPieces_unit h rest

theorem PiecesSpelled.readPieces_append (h : PiecesSpelled pieces cs) (rest : List Char) :
    readPieces (cs ++ '"' :: rest) = some (pieces, rest) := by
  induction h with
  | nil => rfl
  | cons h _ ih => rw [List.append_assoc, h.readPieces_append, ih, Option.map_some]

theorem spelled_of_readPieces (h : readPieces cs = some (pieces, rest)) :
    ∃ w, PiecesSpelled pieces w ∧ cs = w ++ '"' :: rest := by
  fun_induction readPieces cs generalizing pieces with
  | case1 => cases h
  | case2 rest' =>
    cases h
    exact ⟨[], .nil, rfl⟩
  | case3 a b c d rest' ih =>
    simp only [Option.bind_eq_bind, Option.bind_eq_some_iff, Option.some.injEq] at h
    obtain ⟨n, hn, ⟨pieces', rest''⟩, hread, heq⟩ := h
    cases heq
    obtain ⟨w, hw, rfl⟩ := ih hread
    exact ⟨_, .cons (.unit hn) hw, rfl⟩
  | case4 e rest' _ ih =>
    simp only [Option.bind_eq_bind, Option.bind_eq_some_iff, Option.some.injEq] at h
    obtain ⟨c, hc, ⟨pieces', rest''⟩, hread, heq⟩ := h
    cases heq
    obtain ⟨w, hw, rfl⟩ := ih hread
    exact ⟨_, .cons (.short hc) hw, rfl⟩
  | case5 => cases h
  | case6 c rest' hquote _ _ hplain ih =>
    simp only [Option.bind_eq_bind, Option.bind_eq_some_iff, Option.some.injEq] at h
    obtain ⟨⟨pieces', rest''⟩, hread, heq⟩ := h
    cases heq
    obtain ⟨w, hw, rfl⟩ := ih hread
    obtain ⟨hlow, hslash⟩ := not_or.1 hplain
    exact ⟨_, .cons (.plain (Nat.le_of_not_lt hlow) hquote hslash) hw, rfl⟩

theorem Quoted.readString_append (h : Quoted text ('"' :: w)) (rest : List Char) :
    readString (w ++ rest) = some (text, rest) := by
  obtain ⟨pieces, cs, hp, hw, rfl⟩ := quoted_iff.1 h
  obtain rfl := (List.cons.inj hw).2
  rw [readString, List.append_assoc, List.singleton_append, hp.readPieces_append]
  rfl

theorem quoted_of_readString (h : readString cs = some (text, rest)) :
    ∃ w, Quoted text ('"' :: w) ∧ cs = w ++ rest := by
  simp only [readString, Option.bind_eq_bind, Option.bind_eq_some_iff, Option.some.injEq] at h
  obtain ⟨⟨pieces, rest'⟩, hread, heq⟩ := h
  cases heq
  obtain ⟨w, hw, rfl⟩ := spelled_of_readPieces hread
  exact ⟨w ++ ['"'], quoted_iff.2 ⟨pieces, w, hw, rfl, rfl⟩, by simp⟩

theorem quoted_iff_readString : Quoted text ('"' :: w) ↔ readString w = some (text, []) := by
  refine ⟨fun h => ?_, fun h => ?_⟩
  · have hread := h.readString_append []
    rwa [List.append_nil] at hread
  · obtain ⟨w', hw', hw⟩ := quoted_of_readString h
    rwa [hw, List.append_nil]

end

/-! ### numbers -/

section
variable {cs ds rest : List Char}

theorem isDigits_of_readDigits (h : readDigits cs = some (ds, rest)) :
    IsDigits ds ∧ cs = ds ++ rest := by
  rw [readDigits] at h
  split at h
  · cases h
  · next hne =>
    cases h
    refine ⟨⟨fun hnil => hne (by rw [hnil]; rfl), List.all_eq_true.1 List.all_takeWhile⟩, ?_⟩
    exact (List.takeWhile_append_dropWhile ..).symm

theorem readWhole_spelled (h : readWhole cs = some (ds, rest)) :
    (ds = ['0'] ∨ IsDigits ds ∧ ds.head? ≠ some '0') ∧ cs = ds ++ rest := by
  unfold readWhole at h
  split at h
  · cases h
    exact ⟨.inl rfl, rfl⟩
  · next hzero =>
    obtain ⟨hdigits, rfl⟩ := isDigits_of_readDigits h
    refine ⟨.inr ⟨hdigits, fun hhead => ?_⟩, rfl⟩
    obtain ⟨more, rfl⟩ := List.head?_eq_some_iff.1 hhead
    exact hzero _ rfl

theorem readFraction_spelled (h : readFraction cs = some (ds, rest)) :
    (ds = [] ∨ ∃ digits, IsDigits digits ∧ ds = '.' :: digits) ∧ cs = ds ++ rest := by
  unfold readFraction at h
  split at h
  · simp only [Option.bind_eq_bind, Option.bind_eq_some_iff, Option.some.injEq] at h
    obtain ⟨⟨digits, rest'⟩, hread, heq⟩ := h
    cases heq
    obtain ⟨hdigits, rfl⟩ := isDigits_of_readDigits hread
    exact ⟨.inr ⟨digits, hdigits, rfl⟩, rfl⟩
  · cases h
    exact ⟨.inl rfl, rfl⟩

theorem splitSign_spelled (cs : List Char) :
    (splitSign cs).1 ∈ [[], ['+'], ['-']] ∧ cs = (splitSign cs).1 ++ (splitSign cs).2 := by
  unfold splitSign
  split <;> simp

theorem readExponent_spelled (h : readExponent cs = some (ds, rest)) :
    (ds = [] ∨ ∃ e sign digits, (e = 'e' ∨ e = 'E') ∧ sign ∈ [[], ['+'], ['-']] ∧
      IsDigits digits ∧ ds = e :: (sign ++ digits)) ∧ cs = ds ++ rest := by
  unfold readExponent at h
  split at h
  · cases h
    exact ⟨.inl rfl, rfl⟩
  · next c cs =>
    split at h
    · next he =>
      simp only [Option.bind_eq_bind, Option.bind_eq_some_iff, Option.some.injEq] at h
      obtain ⟨⟨digits, rest'⟩, hread, heq⟩ := h
      cases heq
      obtain ⟨hsign, hcs⟩ := splitSign_spelled cs
      obtain ⟨hdigits, hrest⟩ := isDigits_of_readDigits hread
      refine ⟨.inr ⟨c, _, digits, he, hsign, hdigits, rfl⟩, ?_⟩
      rw [List.cons_append, List.cons_append, List.append_assoc, ← hrest, ← hcs]
    · cases h
      exact ⟨.inl rfl, rfl⟩

/-- a number behind its sign -/
theorem isNumber_of_signed {sign body : List Char} (hsign : sign = [] ∨ sign = ['-'])
    (h : (do
      let (whole, rest) ← readWhole body
      let (fraction, rest) ← readFraction rest
      let (exponent, rest) ← readExponent rest
      some (sign ++ whole ++ fraction ++ exponent, rest)) = some (ds, rest)) :
    IsNumber ds ∧ sign ++ body = ds ++ rest := by
  simp only [Option.bind_eq_bind, Option.bind_eq_some_iff, Option.some.injEq] at h
  obtain ⟨⟨whole, rest₁⟩, hread, ⟨fraction, rest₂⟩, hread', ⟨exponent, rest₃⟩, hread'', heq⟩ := h
  cases heq
  obtain ⟨hwhole, rfl⟩ := readWhole_spelled hread
  obtain ⟨hfraction, rfl⟩ := readFraction_spelled hread'
  obtain ⟨hexponent, rfl⟩ := readExponent_spelled hread''
  exact ⟨.intro hsign hwhole hfraction hexponent, by simp⟩

theorem isNumber_of_readNumber (h : readNumber cs = some (ds, rest)) :
    IsNumber ds ∧ cs = ds ++ rest := by
  by_cases hminus : cs.head? = some '-'
  · obtain ⟨body, rfl⟩ := List.head?_eq_some_iff.1 hminus
    exact isNumber_of_signed (.inr rfl) h
  · rw [readNumber.eq_2 cs fun more hcs => hminus (by rw [hcs, List.head?_cons])] at h
    exact isNumber_of_signed (.inl rfl) h

end

/-! ### what is read is a spelling -/

mutual

/-- what is read as a value is one of its spellings, with blanks where they were skipped -/
theorem spelled_of_readValue : ∀ {n : Nat} {cs rest : List Char} {j : Json},
    readValue n cs = some (j, rest) → ∃ row, j.Spelled row ∧ Spaced row cs rest
  | 0, _, _, _, h => nomatch h
  | n + 1, cs, rest, j, h => by
    rw [readValue] at h
    split at h
    case h_1 hword =>
      cases h
      exact ⟨_, .null, .of_skipBlanks hword .nil⟩
    case h_2 hword =>
      cases h
      exact ⟨_, .true, .of_skipBlanks hword .nil⟩
    case h_3 hword =>
      cases h
      exact ⟨_, .false, .of_skipBlanks hword .nil⟩
    case h_4 hquote =>
      simp only [Option.bind_eq_bind, Option.bind_eq_some_iff, Option.some.injEq] at h
      obtain ⟨⟨text, rest⟩, hread, heq⟩ := h
      cases heq
      obtain ⟨w, hw, rfl⟩ := quoted_of_readString hread
      exact ⟨_, .string hw, .of_skipBlanks hquote .nil⟩
    case h_5 hopen =>
      split at h
      · next hclose =>
        cases h
        exact ⟨_, .emptyArray, .of_skipBlanks hopen (.of_skipBlanks hclose .nil)⟩
      · simp only [Option.bind_eq_bind, Option.bind_eq_some_iff, Option.some.injEq] at h
        obtain ⟨⟨items, rest⟩, hread, heq⟩ := h
        cases heq
        obtain ⟨row, hrow, hspaced⟩ := spelled_of_readItems hread
        exact ⟨_, .array hrow,
          .of_skipBlanks hopen ((Spaced.blank_iff (hrow.starts.append _)).1 hspaced)⟩
    case h_6 hopen =>
      split at h
      · next hclose =>
        cases h
        exact ⟨_, .emptyObject, .of_skipBlanks hopen (.of_skipBlanks hclose .nil)⟩
      · simp only [Option.bind_eq_bind, Option.bind_eq_some_iff, Option.some.injEq] at h
        obtain ⟨⟨members, rest⟩, hread, heq⟩ := h
        cases heq
        obtain ⟨row, hrow, hspaced⟩ := spelled_of_readMembers hread
        exact ⟨_, .object hrow,
          .of_skipBlanks hopen ((Spaced.blank_iff (hrow.starts.append _)).1 hspaced)⟩
    case h_7 =>
      simp only [Option.bind_eq_bind, Option.bind_eq_some_iff, Option.some.injEq] at h
      obtain ⟨⟨lexeme, rest⟩, hread, heq⟩ := h
      cases heq
      obtain ⟨hnumber, hlexeme⟩ := isNumber_of_readNumber hread
      have hspelled : IsNumber (String.ofList lexeme).toList := by rwa [String.toList_ofList]
      refine ⟨_, .number hspelled, .of_skipBlanks ?_ .nil⟩
      rwa [String.toList_ofList]

/-- the items of an array with the bracket behind them -/
theorem spelled_of_readItems : ∀ {n : Nat} {cs rest : List Char} {items : List Json},
    readItems n cs = some (items, rest) →
      ∃ row, ItemsSpelled items row ∧ Spaced (row ++ [[']']]) cs rest
  | 0, _, _, _, h => nomatch h
  | n + 1, cs, rest, items, h => by
    simp only [readItems, Option.bind_eq_bind, Option.bind_eq_some_iff] at h
    obtain ⟨⟨item, rest'⟩, hread, h⟩ := h
    obtain ⟨row, hrow, hspaced⟩ := spelled_of_readValue hread
    split at h
    · next hclose =>
      cases h
      exact ⟨row, .last hrow, hspaced.append (.of_skipBlanks hclose .nil)⟩
    · next hcomma =>
      simp only [Option.bind_eq_some_iff, Option.some.injEq] at h
      obtain ⟨⟨items, rest⟩, hread, heq⟩ := h
      cases heq
      obtain ⟨rows, hrows, hspaced'⟩ := spelled_of_readItems hread
      refine ⟨_, .next hrow hrows, ?_⟩
      rw [List.append_assoc]
      exact hspaced.append (.of_skipBlanks hcomma hspaced')
    · cases h

/-- the members of an object with the brace behind them -/
theorem spelled_of_readMembers : ∀ {n : Nat} {cs rest : List Char}
    {members : List (Option String × Json)}, readMembers n cs = some (members, rest) →
      ∃ row, MembersSpelled members row ∧ Spaced (row ++ [['}']]) cs rest
  | 0, _, _, _, h => nomatch h
  | n + 1, cs, rest, members, h => by
    rw [readMembers] at h
    split at h
    case h_2 => cases h
    case h_1 hquote =>
      simp only [Option.bind_eq_bind, Option.bind_eq_some_iff] at h
      obtain ⟨⟨key, behind⟩, hkey, h⟩ := h
      obtain ⟨w, hw, rfl⟩ := quoted_of_readString hkey
      split at h
      case h_2 => cases h
      case h_1 hcolon =>
        simp only [Option.bind_eq_some_iff] at h
        obtain ⟨⟨value, behind⟩, hvalue, h⟩ := h
        obtain ⟨row, hrow, hspaced⟩ := spelled_of_readValue hvalue
        -- the words up to the end of the value
        have hmember {row' : List (List Char)} (h : Spaced row' behind rest) :
            Spaced (('"' :: w) :: [':'] :: (row ++ row')) cs rest :=
          .of_skipBlanks hquote (.of_skipBlanks hcolon (hspaced.append h))
        split at h
        · next hclose =>
          cases h
          exact ⟨_, .last hw hrow, hmember (.of_skipBlanks hclose .nil)⟩
        · next more hcomma =>
          have hcomma : skipBlanks behind = [','] ++ more := hcomma
          simp only [Option.bind_eq_some_iff, Option.some.injEq] at h
          obtain ⟨⟨members, rest⟩, hread, heq⟩ := h
          cases heq
          obtain ⟨rows, hrows, hspaced'⟩ := spelled_of_readMembers hread
          refine ⟨_, .next hw hrow hrows, ?_⟩
          have hrest := hmember (.of_skipBlanks hcomma hspaced')
          simpa using hrest
        · cases h

end

/-! ### a spelling is read -/

section
variable {n : Nat} {row : List (List Char)} {cs ds rest : List Char}

theorem ends_of_closing {c : Char} (hc : c ∈ [',', ']', '}']) (rest : List Char) :
    Ends (c :: rest) := by
  rintro d ⟨⟩
  simp only [List.mem_cons, List.not_mem_nil, or_false] at hc
  rcases hc with rfl | rfl | rfl <;> rfl

/-- a value ends in front of blanks -/
theorem ends_of_blank {g : List Char} (hg : Blank g) (h : Ends rest) : Ends (g ++ rest) := by
  cases g with
  | nil => exact h
  | cons c g =>
    have hblank := hg c List.mem_cons_self
    rintro d ⟨⟩
    simp only [isBlank, Bool.or_eq_true, beq_iff_eq] at hblank
    obtain ((rfl | rfl) | rfl) | rfl := hblank <;> rfl

theorem Spaced.ends {c : Char} (hc : c ∈ [',', ']', '}']) (h : Spaced ([c] :: row) cs rest) :
    Ends cs := by
  cases h with
  | cons hg _ => exact ends_of_blank hg (ends_of_closing hc _)

theorem readValue_array {items : List Json} (hopen : skipBlanks cs = '[' :: ds)
    (hfirst : ∃ c cs', skipBlanks ds = c :: cs' ∧ starts c = true)
    (h : readItems n (skipBlanks ds) = some (items, rest)) :
    readValue (n + 1) cs = some (array items, rest) := by
  obtain ⟨c, cs', hds, hc⟩ := hfirst
  rw [hds] at h
  simp only [readValue, hopen, hds]
  split
  · next hclose =>
    obtain rfl := (List.cons.inj hclose).1
    cases hc
  · simp [h]

theorem readValue_object {members : List (Option String × Json)}
    (hopen : skipBlanks cs = '{' :: ds)
    (hfirst : ∃ c cs', skipBlanks ds = c :: cs' ∧ starts c = true)
    (h : readMembers n (skipBlanks ds) = some (members, rest)) :
    readValue (n + 1) cs = some (object members, rest) := by
  obtain ⟨c, cs', hds, hc⟩ := hfirst
  rw [hds] at h
  simp only [readValue, hopen, hds]
  split
  · next hclose =>
    obtain rfl := (List.cons.inj hclose).1
    cases hc
  · simp [h]

theorem readValue_string {text : Option String} (hquote : skipBlanks cs = '"' :: ds)
    (h : readString ds = some (text, rest)) :
    readValue (n + 1) cs = some (string text, rest) := by
  simp only [readValue, hquote]
  simp [h]

theorem readValue_number {lexeme : String} (h : IsNumber lexeme.toList) (hrest : Ends rest)
    (hcs : skipBlanks cs = lexeme.toList ++ rest) :
    readValue (n + 1) cs = some (number lexeme, rest) := by
  have hread := readNumber_append h hrest
  obtain ⟨c, w, hlexeme, hc⟩ := h.exists_cons
  -- no other value starts as a number does
  have hother {c' : Char} {cs' : List Char} (heq : skipBlanks cs = c' :: cs')
      (hc' : ¬ (c' = '-' ∨ c'.isDigit = true)) : False := by
    rw [hcs, hlexeme] at heq
    exact hc' ((List.cons.inj heq).1 ▸ hc)
  rw [← hcs] at hread
  simp only [readValue]
  split
  case h_7 => simp [hread]
  all_goals
    next heq => exact (hother heq (by decide)).elim

/-- where a row goes on, its first character is no closing bracket -/
theorem Spaced.skipBlanks_starts (hrow : Starts row) (h : Spaced row cs rest) :
    ∃ c cs', skipBlanks cs = c :: cs' ∧ starts c = true := by
  obtain ⟨c, w, more, rfl, hc⟩ := hrow
  obtain ⟨cs', hcs, -⟩ := h.skipBlanks_eq (starts_not_blank hc)
  exact ⟨c, _, hcs, hc⟩

/-- a word of one character is found behind the blanks -/
theorem Spaced.mark {c : Char} (hc : isBlank c = false) (h : Spaced ([c] :: row) cs rest) :
    ∃ cs', skipBlanks cs = c :: cs' ∧ Spaced row cs' rest := h.skipBlanks_eq hc

/-- a key and its colon are read in front of a value -/
theorem Quoted.before_value {key : Option String} {w : List Char} (hkey : Quoted key w)
    (h : Spaced (w :: [':'] :: row) cs rest) :
    ∃ cs₁ cs₂ cs₃, skipBlanks cs = '"' :: cs₁ ∧ readString cs₁ = some (key, cs₂) ∧
      skipBlanks cs₂ = ':' :: cs₃ ∧ Spaced row cs₃ rest := by
  obtain ⟨w, rfl⟩ := hkey.exists_cons
  obtain ⟨cs₂, hquote, h⟩ := h.skipBlanks_eq rfl
  obtain ⟨cs₃, hcolon, h⟩ := h.mark rfl
  exact ⟨w ++ cs₂, cs₂, cs₃, hquote, hkey.readString_append cs₂, hcolon, h⟩

end

mutual

/-- A value is read in as many steps as it has words: a part in brackets takes two steps more than
what is in them, for which its brackets stand. -/
theorem Spelled.readValue_eq : ∀ {n : Nat} {j : Json} {row : List (List Char)}
    {cs rest : List Char}, j.Spelled row → row.length ≤ n → Spaced row cs rest → Ends rest →
      readValue n cs = some (j, rest)
  | 0, _, _, _, _, h, hn, _, _ => by
    obtain ⟨c, w, more, rfl, -⟩ := h.starts
    cases hn
  | n + 1, _, _, cs, rest, h, hn, hspaced, hrest => by
    cases h with
    | null | true | false =>
      obtain ⟨cs', hword, hnil⟩ := hspaced.skipBlanks_eq rfl
      cases hnil
      rw [readValue, hword]
      rfl
    | number h =>
      obtain ⟨c, w, hlexeme, -⟩ := h.exists_cons
      have hstart := (Spelled.number h).starts
      obtain ⟨_, _, _, heq, hc⟩ := hstart
      rw [hlexeme] at heq hspaced
      cases heq
      obtain ⟨cs', hword, hnil⟩ := hspaced.skipBlanks_eq (starts_not_blank hc)
      cases hnil
      refine readValue_number h hrest ?_
      rw [hlexeme, hword, List.cons_append]
    | string h =>
      obtain ⟨w, rfl⟩ := h.exists_cons
      obtain ⟨cs', hword, hnil⟩ := hspaced.skipBlanks_eq rfl
      cases hnil
      exact readValue_string hword (h.readString_append _)
    | emptyArray =>
      obtain ⟨cs', hopen, hspaced⟩ := hspaced.mark rfl
      obtain ⟨cs'', hclose, hnil⟩ := hspaced.mark rfl
      cases hnil
      simp only [readValue, hopen, hclose]
    | emptyObject =>
      obtain ⟨cs', hopen, hspaced⟩ := hspaced.mark rfl
      obtain ⟨cs'', hclose, hnil⟩ := hspaced.mark rfl
      cases hnil
      simp only [readValue, hopen, hclose]
    | array h =>
      obtain ⟨cs', hopen, hspaced⟩ := hspaced.mark rfl
      have hstart := h.starts.append [[']']]
      rw [List.length_cons, List.length_append, List.length_singleton] at hn
      refine readValue_array hopen (hspaced.skipBlanks_starts hstart) ?_
      exact h.readItems_eq (by omega) ((Spaced.blank_iff hstart).2 hspaced)
    | object h =>
      obtain ⟨cs', hopen, hspaced⟩ := hspaced.mark rfl
      have hstart := h.starts.append [['}']]
      rw [List.length_cons, List.length_append, List.length_singleton] at hn
      refine readValue_object hopen (hspaced.skipBlanks_starts hstart) ?_
      exact h.readMembers_eq (by omega) ((Spaced.blank_iff hstart).2 hspaced)

theorem ItemsSpelled.readItems_eq : ∀ {n : Nat} {items : List Json} {row : List (List Char)}
    {cs rest : List Char}, ItemsSpelled items row → row.length < n →
      Spaced (row ++ [[']']]) cs rest → readItems n cs = some (items, rest)
  | 0, _, _, _, _, _, hn, _ => by cases hn
  | n + 1, _, _, cs, rest, h, hn, hspaced => by
    cases h with
    | last h =>
      obtain ⟨cs', hrow, hclose⟩ := hspaced.of_append
      have hread := h.readValue_eq (n := n) (by omega) hrow (hclose.ends (by decide))
      obtain ⟨cs'', hmark, hnil⟩ := hclose.mark rfl
      cases hnil
      simp [readItems, hread, hmark]
    | next h hs =>
      rw [List.append_assoc] at hspaced
      rw [List.length_append, List.length_cons] at hn
      obtain ⟨cs', hrow, hcomma⟩ := hspaced.of_append
      have hread := h.readValue_eq (n := n) (by omega) hrow (hcomma.ends (by decide))
      obtain ⟨cs'', hmark, hspaced⟩ := hcomma.mark rfl
      have hitems := hs.readItems_eq (n := n) (by omega) hspaced
      simp [readItems, hread, hmark, hitems]

theorem MembersSpelled.readMembers_eq : ∀ {n : Nat} {members : List (Option String × Json)}
    {row : List (List Char)} {cs rest : List Char}, MembersSpelled members row → row.length < n →
      Spaced (row ++ [['}']]) cs rest → readMembers n cs = some (members, rest)
  | 0, _, _, _, _, _, hn, _ => by cases hn
  | n + 1, _, _, cs, rest, h, hn, hspaced => by
    cases h with
    | last hkey h =>
      obtain ⟨cs₁, cs₂, cs₃, hquote, hkey, hcolon, hspaced⟩ := hkey.before_value hspaced
      rw [List.length_cons, List.length_cons] at hn
      obtain ⟨cs₄, hrow, hclose⟩ := hspaced.of_append
      have hread := h.readValue_eq (n := n) (by omega) hrow (hclose.ends (by decide))
      obtain ⟨cs₅, hmark, hnil⟩ := hclose.mark rfl
      cases hnil
      simp [readMembers, hquote, hkey, hcolon, hread, hmark]
    | @next _ _ _ row _ rows hkey h hs =>
      obtain ⟨cs₁, cs₂, cs₃, hquote, hkey, hcolon, hspaced⟩ := hkey.before_value hspaced
      rw [List.length_cons, List.length_cons, List.length_append, List.length_cons] at hn
      have hspaced : Spaced (row ++ ([','] :: rows) ++ [['}']]) cs₃ rest := hspaced
      rw [List.append_assoc] at hspaced
      obtain ⟨cs₄, hrow, hcomma⟩ := hspaced.of_append
      have hread := h.readValue_eq (n := n) (by omega) hrow (hcomma.ends (by decide))
      obtain ⟨cs₅, hmark, hspaced⟩ := hcomma.mark rfl
      have hmembers := hs.readMembers_eq (n := n) (by omega) hspaced
      simp [readMembers, hquote, hkey, hcolon, hread, hmark, hmembers]

end

/-! ### texts -/

/-- **A text is read as a value if and only if it spells it.** -/
theorem read?_eq_some_iff {s : String} {j : Json} : read? s = some j ↔ Spells s j := by
  constructor
  · intro h
    rw [read?] at h
    split at h
    · next found last hread =>
      split at h
      · next hlast =>
        cases h
        obtain ⟨row, hrow, hspaced⟩ := spelled_of_readValue hread
        exact ⟨row, hrow, last, hspaced, skipBlanks_eq_nil_iff.1 (List.isEmpty_iff.1 hlast)⟩
      · cases h
    · cases h
  · rintro ⟨row, hrow, last, hspaced, hlast⟩
    have hlength := hspaced.length_le hrow.ne_nil
    have hends : Ends last := by
      have hblank : Ends (last ++ []) := ends_of_blank hlast nofun
      rwa [List.append_nil] at hblank
    rw [read?, hrow.readValue_eq (by omega) hspaced hends]
    simp [skipBlanks_eq_nil_iff.2 hlast]

end Wattle.Json
