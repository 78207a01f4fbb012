import Wattle.Proofs.Json.Spelling
import Wattle.Proofs.Number.Digits

/-!
# The spellings of a JSON value

What a text says, without the reader.  A value has rows of words (`Spelled`): brackets, commas and
colons, the names of the constants, numbers, and strings in quotes.  A text is a spacing of a row if
it has the words in order and nothing else but blanks (`Spacing`), and it spells the values of the
rows that it is a spacing of (`Spells`).

A string is a row of pieces, each of which has several spellings; the pieces denote a text
(`Denotes`) unless one of them is a surrogate without a partner.
-/

namespace Wattle.Json

/-! ### strings -/

/-- the spellings of a piece: a character that stands for itself or behind a backslash, and a unit
in four hexadecimal digits -/
inductive Piece.Spelled : Piece → List Char → Prop
  | plain {c} (hlow : 32 ≤ c.toNat) (hquote : c ≠ '"') (hslash : c ≠ '\\') : Spelled (.char c) [c]
  | short {e c} (h : unescape? e = some c) : Spelled (.char c) ['\\', e]
  | unit {a b c d n} (h : unit? a b c d = some n) : Spelled (.unit n) ['\\', 'u', a, b, c, d]

inductive PiecesSpelled : List Piece → List Char → Prop
  | nil : PiecesSpelled [] []
  | cons {piece pieces w cs} (h : piece.Spelled w) (hs : PiecesSpelled pieces cs) :
      PiecesSpelled (piece :: pieces) (w ++ cs)

/-- the text of a row of pieces: a unit is a character, two surrogates are one together -/
inductive Denotes : List Piece → List Char → Prop
  | nil : Denotes [] []
  | char {c pieces cs} (h : Denotes pieces cs) : Denotes (.char c :: pieces) (c :: cs)
  | unit {n pieces cs} (hhigh : isHighSurrogate n = false) (hlow : isLowSurrogate n = false)
      (h : Denotes pieces cs) : Denotes (.unit n :: pieces) (Char.ofNat n :: cs)
  | pair {n m pieces cs} (hhigh : isHighSurrogate n = true) (hlow : isLowSurrogate m = true)
      (h : Denotes pieces cs) :
      Denotes (.unit n :: .unit m :: pieces)
        (Char.ofNat (0x10000 + (n - 0xD800) * 0x400 + (m - 0xDC00)) :: cs)

/-- the spellings of a string in quotes, `none` where the pieces denote no text -/
inductive Quoted : Option String → List Char → Prop
  | text {pieces cs t} (hp : PiecesSpelled pieces cs) (ht : Denotes pieces t) :
      Quoted (some (String.ofList t)) ('"' :: (cs ++ ['"']))
  | lone {pieces cs} (hp : PiecesSpelled pieces cs) (hlone : ∀ t, ¬ Denotes pieces t) :
      Quoted none ('"' :: (cs ++ ['"']))

/-! ### values -/

mutual

/-- the rows of words of a value -/
inductive Spelled : Json → List (List Char) → Prop
  | null : Spelled null [['n', 'u', 'l', 'l']]
  | true : Spelled (bool true) [['t', 'r', 'u', 'e']]
  | false : Spelled (bool false) [['f', 'a', 'l', 's', 'e']]
  | number {lexeme} (h : IsNumber lexeme.toList) : Spelled (number lexeme) [lexeme.toList]
  | string {text w} (h : Quoted text w) : Spelled (string text) [w]
  | emptyArray : Spelled (array []) [['['], [']']]
  | array {items row} (h : ItemsSpelled items row) :
      Spelled (array items) (['['] :: (row ++ [[']']]))
  | emptyObject : Spelled (object []) [['{'], ['}']]
  | object {members row} (h : MembersSpelled members row) :
      Spelled (object members) (['{'] :: (row ++ [['}']]))

/-- the rows of items with commas between them -/
inductive ItemsSpelled : List Json → List (List Char) → Prop
  | last {item row} (h : Spelled item row) : ItemsSpelled [item] row
  | next {item row items rows} (h : Spelled item row) (hs : ItemsSpelled items rows) :
      ItemsSpelled (item :: items) (row ++ ([','] :: rows))

/-- the rows of members with commas between them -/
inductive MembersSpelled : List (Option String × Json) → List (List Char) → Prop
  | last {key w value row} (hkey : Quoted key w) (h : Spelled value row) :
      MembersSpelled [(key, value)] (w :: [':'] :: row)
  | next {key w value row members rows} (hkey : Quoted key w) (h : Spelled value row)
      (hs : MembersSpelled members rows) :
      MembersSpelled ((key, value) :: members) (w :: [':'] :: (row ++ ([','] :: rows)))

end

/-! ### texts -/

/-- blanks alone -/
def Blank (cs : List Char) : Prop := ∀ c ∈ cs, isBlank c = true

instance (cs : List Char) : Decidable (Blank cs) :=
  List.decidableBAll (fun c : Char => isBlank c = true) cs

/-- the words of a row, with blanks in front of each, before `rest` -/
inductive Spaced : List (List Char) → List Char → List Char → Prop
  | nil {rest} : Spaced [] rest rest
  | cons {g w row cs rest} (hg : Blank g) (h : Spaced row cs rest) :
      Spaced (w :: row) (g ++ (w ++ cs)) rest

/-- a text has the words of a row, and blanks between them and around -/
def Spacing (row : List (List Char)) (s : String) : Prop :=
  ∃ last, Spaced row s.toList last ∧ Blank last

/-- a text is one value and nothing else -/
def Spells (s : String) (j : Json) : Prop := ∃ row, j.Spelled row ∧ Spacing row s

/-! ### pieces -/

section
variable {pieces : List Piece} {cs : List Char}

theorem joinPieces_of_denotes (h : Denotes pieces cs) : joinPieces pieces = some cs := by
  induction h with
  | nil => rfl
  | char _ ih => rw [joinPieces, ih, Option.map_some]
  | unit hhigh hlow _ ih => rw [joinPieces_unit hhigh hlow, ih, Option.map_some]
  | pair hhigh hlow _ ih => rw [joinPieces, if_pos hhigh, if_pos hlow, ih, Option.map_some]

theorem denotes_of_joinPieces (h : joinPieces pieces = some cs) : Denotes pieces cs := by
  fun_induction joinPieces pieces generalizing cs with
  | case1 =>
    cases h
    exact .nil
  | case2 c pieces ih =>
    obtain ⟨cs, hcs, rfl⟩ := Option.map_eq_some_iff.1 h
    exact .char (ih hcs)
  | case3 => cases h
  | case4 n hplain =>
    cases h
    obtain ⟨hhigh, hlow⟩ := Bool.or_eq_false_iff.1 (Bool.not_eq_true _ ▸ hplain)
    exact .unit hhigh hlow .nil
  | case5 n m pieces hhigh hlow ih =>
    obtain ⟨cs, hcs, rfl⟩ := Option.map_eq_some_iff.1 h
    exact .pair hhigh hlow (ih hcs)
  | case6 => cases h
  | case7 => cases h
  | case8 n m pieces hhigh hlow ih =>
    obtain ⟨cs, hcs, rfl⟩ := Option.map_eq_some_iff.1 h
    exact .unit (Bool.not_eq_true _ ▸ hhigh) (Bool.not_eq_true _ ▸ hlow) (ih hcs)
  | case9 => cases h
  | case10 n c pieces hplain ih =>
    obtain ⟨cs, hcs, rfl⟩ := Option.map_eq_some_iff.1 h
    obtain ⟨hhigh, hlow⟩ := Bool.or_eq_false_iff.1 (Bool.not_eq_true _ ▸ hplain)
    exact .unit hhigh hlow (ih hcs)

/-- the pieces are joined to the text that they denote -/
theorem joinPieces_eq_some_iff : joinPieces pieces = some cs ↔ Denotes pieces cs :=
  ⟨denotes_of_joinPieces, joinPieces_of_denotes⟩

/-- the quoted spellings of a text are those of the pieces that are joined to it -/
theorem quoted_iff {text : Option String} {w : List Char} :
    Quoted text w ↔ ∃ pieces cs, PiecesSpelled pieces cs ∧ w = '"' :: (cs ++ ['"']) ∧
      text = (joinPieces pieces).map String.ofList := by
  constructor
  · rintro (⟨hp, ht⟩ | ⟨hp, hlone⟩)
    · exact ⟨_, _, hp, rfl, by rw [joinPieces_eq_some_iff.2 ht, Option.map_some]⟩
    · refine ⟨_, _, hp, rfl, ?_⟩
      rw [Option.eq_none_iff_forall_ne_some.2 fun t ht => hlone t (joinPieces_eq_some_iff.1 ht),
        Option.map_none]
  · rintro ⟨pieces, cs, hp, rfl, rfl⟩
    cases hjoin : joinPieces pieces with
    | some t => exact .text hp (joinPieces_eq_some_iff.1 hjoin)
    | none =>
      refine .lone hp fun t ht => ?_
      rw [joinPieces_eq_some_iff.2 ht] at hjoin
      cases hjoin

end

/-! ### rows -/

/-- whether a value may start with a character: no blank, and no closing bracket -/
def starts (c : Char) : Bool := !isBlank c && c != ']' && c != '}'

/-- the first word of a row starts so -/
def Starts (row : List (List Char)) : Prop :=
  ∃ c w more, row = (c :: w) :: more ∧ starts c = true

theorem starts_of_isDigit {c : Char} (h : c.isDigit = true) : starts c = true := by
  have hstarts : ∀ k < 10, starts (Nat.digitChar k) = true := by decide
  obtain ⟨k, hk, rfl⟩ := exists_digitChar h
  exact hstarts k hk

section
variable {row row' : List (List Char)}

theorem Starts.append (h : Starts row) (row' : List (List Char)) : Starts (row ++ row') := by
  obtain ⟨c, w, more, rfl, hc⟩ := h
  exact ⟨c, w, more ++ row', rfl, hc⟩

theorem Quoted.exists_cons {text : Option String} {w : List Char} (h : Quoted text w) :
    ∃ cs, w = '"' :: cs := by
  cases h <;> exact ⟨_, rfl⟩

theorem Spelled.starts {j : Json} (h : j.Spelled row) : Starts row := by
  cases h with
  | null | true | false | emptyArray | array | emptyObject | object => exact ⟨_, _, _, rfl, rfl⟩
  | string h =>
    obtain ⟨cs, rfl⟩ := h.exists_cons
    exact ⟨_, _, _, rfl, rfl⟩
  | number h =>
    obtain ⟨d, ds, hcs, hd⟩ := h.exists_cons
    refine ⟨d, ds, [], by rw [hcs], ?_⟩
    rcases hd with rfl | hd
    · rfl
    · exact starts_of_isDigit hd

theorem ItemsSpelled.starts {items : List Json} (h : ItemsSpelled items row) : Starts row := by
  cases h with
  | last h => exact h.starts
  | next h _ => exact h.starts.append _

theorem MembersSpelled.starts {members : List (Option String × Json)}
    (h : MembersSpelled members row) : Starts row := by
  cases h with
  | last hkey | next hkey =>
    obtain ⟨cs, rfl⟩ := hkey.exists_cons
    exact ⟨_, _, _, rfl, rfl⟩

mutual

/-- no word of a value is empty -/
theorem Spelled.ne_nil {j : Json} {row : List (List Char)} :
    j.Spelled row → ∀ w ∈ row, w ≠ []
  | .null | .true | .false | .emptyArray | .emptyObject => by simp
  | .number h => by
    obtain ⟨d, ds, hcs, -⟩ := h.exists_cons
    simp [hcs]
  | .string h => by
    obtain ⟨cs, rfl⟩ := h.exists_cons
    simp
  | .array h | .object h => by
    have hne := h.ne_nil
    simp only [List.mem_cons, List.mem_append, List.not_mem_nil, or_false]
    rintro w (rfl | hw | rfl)
    · simp
    · exact hne w hw
    · simp

theorem ItemsSpelled.ne_nil {items : List Json} {row : List (List Char)} :
    ItemsSpelled items row → ∀ w ∈ row, w ≠ []
  | .last h => h.ne_nil
  | .next h hs => by
    simp only [List.mem_cons, List.mem_append]
    rintro w (hw | rfl | hw)
    · exact h.ne_nil w hw
    · simp
    · exact hs.ne_nil w hw

theorem MembersSpelled.ne_nil {members : List (Option String × Json)} {row : List (List Char)} :
    MembersSpelled members row → ∀ w ∈ row, w ≠ []
  | .last hkey h => by
    obtain ⟨cs, rfl⟩ := hkey.exists_cons
    simp only [List.mem_cons]
    rintro w (rfl | rfl | hw)
    · simp
    · simp
    · exact h.ne_nil w hw
  | .next hkey h hs => by
    obtain ⟨cs, rfl⟩ := hkey.exists_cons
    simp only [List.mem_cons, List.mem_append]
    rintro w (rfl | rfl | hw | rfl | hw)
    · simp
    · simp
    · exact h.ne_nil w hw
    · simp
    · exact hs.ne_nil w hw

end

end

/-! ### spacings -/

section
variable {row row' : List (List Char)} {cs cs' rest : List Char}

theorem Blank.append {g : List Char} (h : Blank g) (h' : Blank cs) : Blank (g ++ cs) :=
  List.forall_mem_append.2 ⟨h, h'⟩

/-- a word without blanks in front -/
theorem Spaced.word {w : List Char} (h : Spaced row cs rest) : Spaced (w :: row) (w ++ cs) rest :=
  .cons (g := []) nofun h

theorem Spaced.append (h : Spaced row cs cs') (h' : Spaced row' cs' rest) :
    Spaced (row ++ row') cs rest := by
  induction h with
  | nil => exact h'
  | cons hg _ ih => exact .cons hg (ih h')

theorem Spaced.of_append (h : Spaced (row ++ row') cs rest) :
    ∃ cs', Spaced row cs cs' ∧ Spaced row' cs' rest := by
  induction row generalizing cs with
  | nil => exact ⟨cs, .nil, h⟩
  | cons w row ih =>
    cases h with
    | cons hg h =>
      obtain ⟨cs', hrow, hrow'⟩ := ih h
      exact ⟨cs', .cons hg hrow, hrow'⟩

/-- a spacing has a character for each word -/
theorem Spaced.length_le (h : Spaced row cs rest) (hrow : ∀ w ∈ row, w ≠ []) :
    row.length + rest.length ≤ cs.length := by
  induction h with
  | nil => simp
  | @cons g w row cs rest _ _ ih =>
    obtain ⟨hw, hrow⟩ := List.forall_mem_cons.1 hrow
    have hpos := List.length_pos_iff.2 hw
    have hrest := ih hrow
    simp only [List.length_cons, List.length_append]
    omega

end

end Wattle.Json
