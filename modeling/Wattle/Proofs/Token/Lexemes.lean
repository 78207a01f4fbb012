import Wattle.Token.Scan

/-!
# Lexemes

The spellings of tokens, said without the scanner.  `kind.StandsAt cs rest` says that the text `cs`
starts with a lexeme of a kind and goes on with `rest`, and `kind.LongestAt cs rest` that no lexeme
there is longer.  Outside of gaps `scan?` finds just the longest lexeme (`scan?_eq_some_iff`), and
it finds none just where no lexeme stands (`scan?_eq_none_iff`).

`kind.Ends rest` says of the text behind a lexeme that it does not make it longer; with it a lexeme
that has been written is found again (`scan?_of_ends`), and it holds behind the longest one
(`TokenKind.LongestAt.ends`).
-/

namespace Wattle

/-! ### the spellings -/

def IsDigits (cs : List Char) : Prop := cs ≠ [] ∧ ∀ c ∈ cs, c.isDigit = true

/-- digits, and perhaps a point and more digits -/
inductive IsNumber : List Char → Prop
  | whole {w} (hw : IsDigits w) : IsNumber w
  | decimal {w f} (hw : IsDigits w) (hf : IsDigits f) : IsNumber (w ++ '.' :: f)

/-- a letter or an underscore, and more of them and of digits -/
def IsWord (cs : List Char) : Prop :=
  ∃ c w, cs = c :: w ∧ isWordStart c = true ∧ ∀ d ∈ w, isWordPart d = true

instance : DecidablePred IsWord
  | [] => isFalse nofun
  | c :: w => decidable_of_iff (isWordStart c = true ∧ w.all isWordPart = true)
    ⟨fun h => ⟨c, w, rfl, h.1, List.all_eq_true.1 h.2⟩,
      fun ⟨_, _, heq, h⟩ => by cases heq; exact ⟨h.1, List.all_eq_true.2 h.2⟩⟩

namespace TokenKind

/-- the kinds that are spelled in a text -/
def IsLexeme : TokenKind → Prop
  | number lexeme => IsNumber lexeme.toList
  | identifier name => IsWord name.toList ∧ ∀ word : Keyword, word.text ≠ name
  | keyword _ | symbol _ => True
  | endOfFile => False

/-- a lexeme of a kind stands at the front of a text; a slash in front of a slash is none -/
structure StandsAt (kind : TokenKind) (cs rest : List Char) : Prop where
  isLexeme : kind.IsLexeme
  eq : cs = kind.text.toList ++ rest
  slash : kind = .symbol .slash → rest.head? ≠ some '/'

/-- the lexeme at the front of a text that is not shorter than any other one -/
structure LongestAt (kind : TokenKind) (cs rest : List Char) : Prop extends
    StandsAt kind cs rest where
  longest : ∀ ⦃kind' rest'⦄, StandsAt kind' cs rest' →
    kind'.text.toList.length ≤ kind.text.toList.length

/-- what stands behind a lexeme does not make it longer -/
def Ends : TokenKind → List Char → Prop
  | number lexeme, rest => (∀ c ∈ rest.head?, c.isDigit = false) ∧
      ('.' ∉ lexeme.toList → ∀ d rest', rest = '.' :: d :: rest' → d.isDigit = false)
  | identifier _, rest | keyword _, rest => ∀ c ∈ rest.head?, isWordPart c = false
  | symbol .assign, rest | symbol .less, rest | symbol .greater, rest => rest.head? ≠ some '='
  | symbol .slash, rest => rest.head? ≠ some '/'
  | symbol _, _ | endOfFile, _ => True

end TokenKind

/-- a blank or a comment stands at the front of a text -/
def StartsGap : List Char → Prop
  | [] => False
  | c :: cs => isBlank c = true ∨ c = '/' ∧ cs.head? = some '/'

/-! ### characters -/

theorem isAlpha_iff_toNat {c : Char} :
    c.isAlpha = true ↔ 65 ≤ c.toNat ∧ c.toNat ≤ 90 ∨ 97 ≤ c.toNat ∧ c.toNat ≤ 122 := by
  show (decide ('A'.val ≤ c.val ∧ c.val ≤ 'Z'.val) ||
    (decide ('a'.val ≤ c.val) && decide (c.val ≤ 'z'.val))) = true ↔ _
  simp only [Bool.or_eq_true, Bool.and_eq_true, decide_eq_true_eq, UInt32.le_iff_toNat_le]
  exact .rfl

theorem isDigit_iff_toNat {c : Char} : c.isDigit = true ↔ 48 ≤ c.toNat ∧ c.toNat ≤ 57 :=
  Char.isDigit_iff_toNat

theorem isWordStart_not_digit {c : Char} (h : isWordStart c = true) : c.isDigit = false := by
  refine Bool.eq_false_iff.2 fun hd => ?_
  rw [isDigit_iff_toNat] at hd
  obtain h | h := Bool.or_eq_true_iff.1 h
  · rw [isAlpha_iff_toNat] at h
    omega
  · obtain rfl := beq_iff_eq.1 h
    exact absurd hd (by decide)

theorem isWordPart_of_start {c : Char} (h : isWordStart c = true) : isWordPart c = true := by
  obtain h | h := Bool.or_eq_true_iff.1 h
  · simp [isWordPart, Char.isAlphanum, h]
  · simp [isWordPart, h]

theorem isWordPart_of_digit {c : Char} (h : c.isDigit = true) : isWordPart c = true := by
  simp [isWordPart, Char.isAlphanum, h]

section
variable {p : Char → Bool} {w rest : List Char}

theorem takeWhile_append_of_head (hw : ∀ c ∈ w, p c = true) (hr : ∀ c ∈ rest.head?, p c = false) :
    (w ++ rest).takeWhile p = w := by
  rw [List.takeWhile_append_of_pos hw]
  cases rest with
  | nil => simp
  | cons c rest => simp [hr c rfl]

theorem dropWhile_append_of_head (hw : ∀ c ∈ w, p c = true) (hr : ∀ c ∈ rest.head?, p c = false) :
    (w ++ rest).dropWhile p = rest := by
  rw [List.dropWhile_append_of_pos hw]
  cases rest with
  | nil => simp
  | cons c rest => simp [hr c rfl]

end

theorem Keyword.isWord_text (word : Keyword) : IsWord word.text.toList := by
  cases word <;> exact ⟨_, _, rfl, by decide, List.all_eq_true.1 (by decide)⟩

/-! ### a lexeme that has been written is found -/

section
variable {w f rest : List Char}

theorem splitNumber_whole (hw : IsDigits w) (hd : ∀ c ∈ rest.head?, c.isDigit = false)
    (hp : ∀ d rest', rest = '.' :: d :: rest' → d.isDigit = false) :
    splitNumber (w ++ rest) = (w, rest) := by
  unfold splitNumber
  rw [dropWhile_append_of_head hw.2 hd, takeWhile_append_of_head hw.2 hd]
  split
  · next d rest' => simp [hp d rest' rfl]
  · rfl

theorem splitNumber_decimal (hw : IsDigits w) (hf : IsDigits f) :
    splitNumber (w ++ '.' :: f ++ rest) =
      (w ++ '.' :: (f ++ rest).takeWhile Char.isDigit, (f ++ rest).dropWhile Char.isDigit) := by
  obtain ⟨d, f, rfl⟩ := List.exists_cons_of_ne_nil hf.1
  have hd : d.isDigit = true := hf.2 d List.mem_cons_self
  have hpoint : ∀ c ∈ ('.' :: d :: (f ++ rest)).head?, c.isDigit = false := by simp
  have hcs : w ++ '.' :: d :: f ++ rest = w ++ '.' :: d :: (f ++ rest) := by simp
  unfold splitNumber
  rw [hcs, dropWhile_append_of_head hw.2 hpoint, takeWhile_append_of_head hw.2 hpoint]
  simp [hd]

end

theorem scan?_of_digit {c : Char} {cs : List Char} (hc : c.isDigit = true) :
    scan? (c :: cs) = some (.number (String.ofList (splitNumber (c :: cs)).1),
      (splitNumber (c :: cs)).2) := by
  simp [scan?, hc]

theorem scan?_of_wordStart {c : Char} {cs : List Char} (hc : isWordStart c = true) :
    scan? (c :: cs) = some (.ofWord (String.ofList (c :: cs.takeWhile isWordPart)),
      cs.dropWhile isWordPart) := by
  simp [scan?, hc, isWordStart_not_digit hc]

theorem scan?_symbol (sign : Symbol) (rest : List Char) :
    scan? (sign.text.toList ++ rest) =
      (splitSymbol? (sign.text.toList ++ rest)).map fun found =>
        (.symbol found.1, found.2) := by
  have hhead : ∃ c cs, sign.text.toList = c :: cs ∧ c.isDigit = false ∧ isWordStart c = false := by
    cases sign <;> exact ⟨_, _, rfl, by decide, by decide⟩
  obtain ⟨c, cs, hcs, hd, hw⟩ := hhead
  rw [hcs, List.cons_append, scan?, hd, hw]
  simp only [Bool.false_eq_true, if_false]
  cases splitSymbol? (c :: (cs ++ rest)) <;> rfl

namespace TokenKind

theorem ofWord_keyword (word : Keyword) : ofWord word.text = keyword word := by
  simp [ofWord, Keyword.ofText?_text]

theorem ofWord_identifier {name : String} (h : ∀ word : Keyword, word.text ≠ name) :
    ofWord name = identifier name := by
  unfold ofWord
  split
  · next word hword => exact absurd (Keyword.text_of_ofText? hword) (h word)
  · rfl

theorem isLexeme_ofWord {name : String} (h : IsWord name.toList) : (ofWord name).IsLexeme := by
  unfold ofWord
  split
  · trivial
  · next hnone =>
    refine ⟨h, fun word hword => ?_⟩
    rw [← hword, Keyword.ofText?_text] at hnone
    cases hnone

end TokenKind

/-- a word that ends where it should is read as a whole -/
theorem scan?_word {name : String} {rest : List Char} (hw : IsWord name.toList)
    (hr : ∀ c ∈ rest.head?, isWordPart c = false) :
    scan? (name.toList ++ rest) = some (.ofWord name, rest) := by
  obtain ⟨c, w, hname, hc, hparts⟩ := hw
  rw [hname, List.cons_append, scan?_of_wordStart hc, takeWhile_append_of_head hparts hr,
    dropWhile_append_of_head hparts hr, ← hname, String.ofList_toList]

theorem splitNumber_of_ends {cs rest : List Char} (hn : IsNumber cs)
    (hd : ∀ c ∈ rest.head?, c.isDigit = false)
    (hp : '.' ∉ cs → ∀ d rest', rest = '.' :: d :: rest' → d.isDigit = false) :
    splitNumber (cs ++ rest) = (cs, rest) := by
  cases hn with
  | whole hw =>
    have hpoint : '.' ∉ cs := fun hmem => by
      have := hw.2 '.' hmem
      simp at this
    exact splitNumber_whole hw hd (hp hpoint)
  | decimal hw hf =>
    rw [splitNumber_decimal hw hf, takeWhile_append_of_head hf.2 hd,
      dropWhile_append_of_head hf.2 hd]

theorem IsNumber.cons {cs : List Char} (h : IsNumber cs) :
    ∃ d cs', cs = d :: cs' ∧ d.isDigit = true := by
  cases h with
  | whole hw =>
    obtain ⟨d, w, rfl⟩ := List.exists_cons_of_ne_nil hw.1
    exact ⟨d, w, rfl, hw.2 d List.mem_cons_self⟩
  | decimal hw hf =>
    obtain ⟨d, w, rfl⟩ := List.exists_cons_of_ne_nil hw.1
    exact ⟨d, _, rfl, hw.2 d List.mem_cons_self⟩

theorem splitSymbol?_of_ends {sign : Symbol} {rest : List Char}
    (h : (TokenKind.symbol sign).Ends rest) :
    splitSymbol? (sign.text.toList ++ rest) = some (sign, rest) := by
  -- a second sign would have to be the first character of what follows
  cases sign with
  | assign =>
    show splitSymbol? ('=' :: rest) = _
    unfold splitSymbol?
    split <;> simp_all [TokenKind.Ends]
  | less =>
    show splitSymbol? ('<' :: rest) = _
    unfold splitSymbol?
    split <;> simp_all [TokenKind.Ends]
  | greater =>
    show splitSymbol? ('>' :: rest) = _
    unfold splitSymbol?
    split <;> simp_all [TokenKind.Ends]
  | _ => rfl

theorem scan?_of_ends {kind : TokenKind} {rest : List Char} (hk : kind.IsLexeme)
    (hr : kind.Ends rest) : scan? (kind.text.toList ++ rest) = some (kind, rest) := by
  cases kind with
  | number lexeme =>
    have hsplit := splitNumber_of_ends hk hr.1 hr.2
    obtain ⟨d, cs, hcs, hd⟩ := hk.cons
    rw [TokenKind.text, hcs, List.cons_append, scan?_of_digit hd, ← List.cons_append, ← hcs,
      hsplit, String.ofList_toList]
  | identifier name =>
    obtain ⟨hw, hreserved⟩ := hk
    rw [TokenKind.text, scan?_word hw hr, TokenKind.ofWord_identifier hreserved]
  | keyword word =>
    rw [TokenKind.text, scan?_word word.isWord_text hr, TokenKind.ofWord_keyword]
  | symbol sign =>
    rw [TokenKind.text, scan?_symbol, splitSymbol?_of_ends hr, Option.map_some]
  | endOfFile => exact hk.elim

namespace TokenKind

theorem ends_nil (kind : TokenKind) : kind.Ends [] := by
  cases kind with
  | symbol sign => cases sign <;> simp [Ends]
  | _ => simp [Ends]

/-- the spelling of a lexeme decides its kind -/
theorem eq_of_text_eq {kind kind' : TokenKind} (hk : kind.IsLexeme) (hk' : kind'.IsLexeme)
    (h : kind.text.toList = kind'.text.toList) : kind = kind' := by
  have hscan := scan?_of_ends hk kind.ends_nil
  rw [h, scan?_of_ends hk' kind'.ends_nil] at hscan
  simpa using hscan.symm

end TokenKind

/-! ### the longest lexeme is found -/

section
variable {cs rest : List Char} {kind : TokenKind}

theorem length_le_splitNumber (h : IsNumber cs) :
    cs.length ≤ (splitNumber (cs ++ rest)).1.length := by
  cases h with
  | whole hw =>
    have hlong : cs.length ≤ ((cs ++ rest).takeWhile Char.isDigit).length := by
      rw [List.takeWhile_append_of_pos hw.2]
      simp
    unfold splitNumber
    split
    · split
      · rw [List.length_append]
        omega
      · exact hlong
    · exact hlong
  | decimal hw hf =>
    rw [splitNumber_decimal hw hf, List.takeWhile_append_of_pos hf.2]
    simp

theorem length_le_takeWhile {w : List Char} (hw : ∀ d ∈ w, isWordPart d = true) :
    w.length ≤ ((w ++ rest).takeWhile isWordPart).length := by
  rw [List.takeWhile_append_of_pos hw]
  simp

theorem splitSymbol?_length (sign : Symbol) (rest : List Char) :
    ∃ sign' rest', splitSymbol? (sign.text.toList ++ rest) = some (sign', rest') ∧
      sign.text.toList.length ≤ sign'.text.toList.length := by
  by_cases hends : (TokenKind.symbol sign).Ends rest
  · exact ⟨sign, rest, splitSymbol?_of_ends hends, Nat.le_refl _⟩
  · -- an equals sign follows, or a slash
    have hfollow : ∃ c rest', rest = c :: rest' := by
      cases rest with
      | nil => exact absurd (TokenKind.ends_nil _) hends
      | cons c rest' => exact ⟨c, rest', rfl⟩
    obtain ⟨c, rest', rfl⟩ := hfollow
    cases sign with
    | assign | less | greater =>
      obtain rfl : c = '=' := by simpa [TokenKind.Ends] using hends
      exact ⟨_, rest', rfl, by decide⟩
    | _ => exact ⟨_, _, rfl, Nat.le_refl _⟩

theorem scan?_word_length {name : String} (hw : IsWord name.toList) :
    ∃ kind' rest', scan? (name.toList ++ rest) = some (kind', rest') ∧
      name.toList.length ≤ kind'.text.toList.length := by
  obtain ⟨c, w, hname, hc, hparts⟩ := hw
  rw [hname, List.cons_append, scan?_of_wordStart hc]
  refine ⟨_, _, rfl, ?_⟩
  rw [TokenKind.text_ofWord, String.toList_ofList, List.length_cons, List.length_cons]
  exact Nat.succ_le_succ (length_le_takeWhile hparts)

/-- where a lexeme stands, one that is not shorter is found -/
theorem TokenKind.StandsAt.scan? (h : kind.StandsAt cs rest) :
    ∃ kind' rest', scan? cs = some (kind', rest') ∧
      kind.text.toList.length ≤ kind'.text.toList.length := by
  obtain ⟨hk, rfl, -⟩ := h
  cases kind with
  | number lexeme =>
    obtain ⟨d, w, hw, hd⟩ := IsNumber.cons hk
    have hlength : lexeme.toList.length ≤ (splitNumber (lexeme.toList ++ rest)).1.length :=
      length_le_splitNumber hk
    rw [TokenKind.text, hw, List.cons_append, scan?_of_digit hd, ← List.cons_append, ← hw]
    exact ⟨_, _, rfl, by simpa [TokenKind.text] using hlength⟩
  | identifier name => exact scan?_word_length hk.1
  | keyword word => exact scan?_word_length word.isWord_text
  | symbol sign =>
    obtain ⟨sign', rest', hsplit, hlength⟩ := splitSymbol?_length sign rest
    refine ⟨.symbol sign', rest', ?_, hlength⟩
    rw [TokenKind.text, scan?_symbol, hsplit, Option.map_some]
  | endOfFile => exact hk.elim

end

/-! ### what is found is the longest lexeme -/

section
variable {cs rest : List Char} {kind : TokenKind}

theorem isDigits_takeWhile {c : Char} (hc : c.isDigit = true) :
    IsDigits ((c :: cs).takeWhile Char.isDigit) := by
  refine ⟨by simp [hc], fun d hd => ?_⟩
  exact List.all_eq_true.1 List.all_takeWhile d hd

theorem isNumber_splitNumber {c : Char} (hc : c.isDigit = true) :
    IsNumber (splitNumber (c :: cs)).1 := by
  unfold splitNumber
  split
  · split
    · next d rest _ hd =>
      have hf : IsDigits ((d :: rest).takeWhile Char.isDigit) := isDigits_takeWhile hd
      rw [List.takeWhile_cons_of_pos hd] at hf
      exact .decimal (isDigits_takeWhile hc) hf
    · exact .whole (isDigits_takeWhile hc)
  · exact .whole (isDigits_takeWhile hc)

theorem isLexeme_of_scan? (h : scan? cs = some (kind, rest)) : kind.IsLexeme := by
  unfold scan? at h
  split at h
  · cases h
  · next c cs =>
    split at h
    · next hc =>
      cases h
      simpa [TokenKind.IsLexeme] using isNumber_splitNumber hc
    · split at h
      · next hc =>
        cases h
        refine TokenKind.isLexeme_ofWord ⟨c, _, String.toList_ofList, hc, fun d hd => ?_⟩
        exact List.all_eq_true.1 List.all_takeWhile d hd
      · split at h <;> cases h
        trivial

theorem standsAt_of_scan? (hgap : ¬ StartsGap cs) (h : scan? cs = some (kind, rest)) :
    kind.StandsAt cs rest := by
  have hcs := scan?_append h
  refine ⟨isLexeme_of_scan? h, hcs.symm, fun hslash hrest => hgap ?_⟩
  subst hslash
  rw [← hcs]
  exact .inr ⟨rfl, hrest⟩

theorem longestAt_of_scan? (hgap : ¬ StartsGap cs) (h : scan? cs = some (kind, rest)) :
    kind.LongestAt cs rest := by
  refine ⟨standsAt_of_scan? hgap h, fun kind' rest' h' => ?_⟩
  obtain ⟨found, behind, hfound, hlength⟩ := h'.scan?
  rw [h] at hfound
  cases hfound
  exact hlength

namespace TokenKind

/-- where a lexeme stands, no gap starts -/
theorem StandsAt.not_startsGap (h : kind.StandsAt cs rest) : ¬ StartsGap cs := by
  obtain ⟨hk, rfl, hslash⟩ := h
  have hword : ∀ {c : Char} {w : List Char}, isWordStart c = true ∨ c.isDigit = true →
      ¬ StartsGap (c :: w) := by
    rintro c w hc (hblank | ⟨rfl, -⟩)
    · simp only [isBlank, Bool.or_eq_true, beq_iff_eq] at hblank
      obtain ((rfl | rfl) | rfl) | rfl := hblank <;> revert hc <;> decide
    · revert hc
      decide
  cases kind with
  | number lexeme =>
    obtain ⟨d, w, hw, hd⟩ := IsNumber.cons hk
    rw [text, hw]
    exact hword (.inr hd)
  | identifier name =>
    obtain ⟨c, w, hw, hc, -⟩ := hk.1
    rw [text, hw]
    exact hword (.inl hc)
  | keyword word =>
    obtain ⟨c, w, hw, hc, -⟩ := word.isWord_text
    rw [text, hw]
    exact hword (.inl hc)
  | symbol sign =>
    cases sign with
    | slash => exact fun h => (hslash rfl) (h.resolve_left (by decide)).2
    | _ => exact fun h => h.elim (by decide) (fun h => absurd h.1 (by decide))
  | endOfFile => exact hk.elim

/-- two lexemes of one length at one place are one -/
theorem StandsAt.eq_of_length {kind' : TokenKind} {rest' : List Char}
    (h : kind.StandsAt cs rest) (h' : kind'.StandsAt cs rest')
    (hlength : kind.text.toList.length = kind'.text.toList.length) :
    kind = kind' ∧ rest = rest' := by
  obtain ⟨htext, hrest⟩ := List.append_inj (h.eq.symm.trans h'.eq) hlength
  exact ⟨eq_of_text_eq h.isLexeme h'.isLexeme htext, hrest⟩

theorem LongestAt.unique {kind' : TokenKind} {rest' : List Char}
    (h : kind.LongestAt cs rest) (h' : kind'.LongestAt cs rest') : kind = kind' ∧ rest = rest' :=
  h.toStandsAt.eq_of_length h'.toStandsAt
    (Nat.le_antisymm (h'.longest h.toStandsAt) (h.longest h'.toStandsAt))

end TokenKind

theorem scan?_eq_some_iff (hgap : ¬ StartsGap cs) :
    scan? cs = some (kind, rest) ↔ kind.LongestAt cs rest := by
  refine ⟨longestAt_of_scan? hgap, fun h => ?_⟩
  obtain ⟨kind', rest', hscan, -⟩ := h.toStandsAt.scan?
  obtain ⟨rfl, rfl⟩ := h.unique (longestAt_of_scan? hgap hscan)
  exact hscan

theorem scan?_eq_none_iff (hgap : ¬ StartsGap cs) :
    scan? cs = none ↔ ∀ kind rest, ¬ TokenKind.StandsAt kind cs rest := by
  constructor
  · intro h kind rest hstands
    obtain ⟨kind', rest', hscan, -⟩ := hstands.scan?
    rw [h] at hscan
    cases hscan
  · intro h
    cases hscan : scan? cs with
    | none => rfl
    | some found => exact absurd (standsAt_of_scan? hgap hscan) (h _ _)

end

/-! ### the longest lexeme ends there -/

theorem IsWord.snoc {w : List Char} {c : Char} (h : IsWord w) (hc : isWordPart c = true) :
    IsWord (w ++ [c]) := by
  obtain ⟨first, w, rfl, hfirst, hw⟩ := h
  exact ⟨first, w ++ [c], rfl, hfirst,
    List.forall_mem_append.2 ⟨hw, List.forall_mem_singleton.2 hc⟩⟩

theorem IsDigits.snoc {w : List Char} {c : Char} (h : IsDigits w) (hc : c.isDigit = true) :
    IsDigits (w ++ [c]) :=
  ⟨by simp, List.forall_mem_append.2 ⟨h.2, List.forall_mem_singleton.2 hc⟩⟩

theorem IsNumber.snoc {w : List Char} {c : Char} (h : IsNumber w) (hc : c.isDigit = true) :
    IsNumber (w ++ [c]) := by
  cases h with
  | whole hw => exact .whole (hw.snoc hc)
  | decimal hw hf =>
    rw [List.append_assoc]
    exact .decimal hw (hf.snoc hc)

namespace TokenKind

section
variable {cs rest : List Char} {kind kind' : TokenKind}

/-- the longest lexeme does not go on with what stands behind it -/
theorem LongestAt.not_longer {c : Char} (h : kind.LongestAt cs (c :: rest)) {more rest' : List Char}
    (hrest : more ++ rest' = rest) (hk : kind'.IsLexeme) (hslash : kind' ≠ .symbol .slash) :
    kind'.text.toList ≠ kind.text.toList ++ c :: more := by
  intro htext
  have hstands : kind'.StandsAt cs rest' := by
    refine ⟨hk, ?_, fun h => absurd h hslash⟩
    rw [h.eq, htext, ← hrest]
    simp
  have hlength := h.longest hstands
  rw [htext, List.length_append, List.length_cons] at hlength
  omega

theorem LongestAt.ends_word (h : kind.LongestAt cs rest) (hw : IsWord kind.text.toList) :
    ∀ c ∈ rest.head?, isWordPart c = false := by
  intro c hc
  obtain ⟨rest, rfl⟩ := List.head?_eq_some_iff.1 hc
  refine Bool.eq_false_iff.2 fun hpart => ?_
  have hword : (ofWord (String.ofList (kind.text.toList ++ [c]))).IsLexeme :=
    isLexeme_ofWord (by simpa using hw.snoc hpart)
  have hslash : ofWord (String.ofList (kind.text.toList ++ [c])) ≠ .symbol .slash := by
    unfold ofWord
    split <;> simp
  exact h.not_longer (List.nil_append rest) hword hslash (by simp)

theorem LongestAt.ends_number {lexeme : String} (h : (number lexeme).LongestAt cs rest) :
    (number lexeme).Ends rest := by
  have hlonger : ∀ c more rest', rest = c :: (more ++ rest') →
      ¬ IsNumber (lexeme.toList ++ c :: more) := by
    rintro c more rest' rfl hn
    have hk : (number (String.ofList (lexeme.toList ++ c :: more))).IsLexeme := by
      simpa [IsLexeme] using hn
    exact h.not_longer rfl hk (by simp) (by simp [text])
  have hn : IsNumber lexeme.toList := h.isLexeme
  refine ⟨fun c hc => ?_, fun hpoint d rest' hrest => ?_⟩
  · obtain ⟨rest, rfl⟩ := List.head?_eq_some_iff.1 hc
    exact Bool.eq_false_iff.2 fun hd => hlonger c [] rest rfl (hn.snoc hd)
  · refine Bool.eq_false_iff.2 fun hd => hlonger '.' [d] rest' hrest ?_
    generalize lexeme.toList = cs at hn hpoint
    cases hn with
    | whole hw => exact .decimal hw ⟨by simp, by simpa using hd⟩
    | decimal => simp at hpoint

/-- what stands behind the longest lexeme ends it -/
theorem LongestAt.ends (h : kind.LongestAt cs rest) : kind.Ends rest := by
  cases kind with
  | number lexeme => exact h.ends_number
  | identifier name => exact h.ends_word h.isLexeme.1
  | keyword word => exact h.ends_word word.isWord_text
  | endOfFile => trivial
  | symbol sign =>
    have hequals : ∀ longer : Symbol, longer.text.toList = sign.text.toList ++ ['='] →
        longer ≠ .slash → rest.head? ≠ some '=' := by
      intro longer htext hslash hhead
      obtain ⟨rest, rfl⟩ := List.head?_eq_some_iff.1 hhead
      have hk : (symbol longer).IsLexeme := trivial
      exact h.not_longer (List.nil_append rest) hk (by simpa) htext
    cases sign with
    | assign => exact hequals .equal rfl (by simp)
    | less => exact hequals .lessEqual rfl (by simp)
    | greater => exact hequals .greaterEqual rfl (by simp)
    | slash => exact h.slash rfl
    | _ => trivial

end

end TokenKind

end Wattle
