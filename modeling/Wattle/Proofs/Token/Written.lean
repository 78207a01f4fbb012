import Wattle.Proofs.Token.Splitting

/-!
# Written texts

A text is `Written` with any gaps that keep its tokens apart, which is to say that they are found in
it (`SourceFile.written_iff`).  `Spaced` says the same without the text: the gaps are blanks and
comments, and a gap may be empty unless the tokens on both of its sides merge.  Just those pairs of
tokens merge that cannot stand side by side (`TokenKind.ends_text_iff`), so that every spaced row of
tokens is found again in its text (`SourceFile.kinds_of_spaced`).
-/

namespace Wattle

/-- a text with the given lexemes, and gaps that keep them apart -/
inductive Written : List TokenKind → List Char → Prop
  | last {g} (hg : Gap g []) : Written [] g
  | lexeme {g kind ks cs} (hg : Gap g (kind.text.toList ++ cs)) (hk : kind.IsLexeme)
      (hends : kind.Ends cs) (h : Written ks cs) :
      Written (kind :: ks) (g ++ (kind.text.toList ++ cs))

theorem TokenKind.standsAt_of_ends {kind : TokenKind} {cs : List Char} (hk : kind.IsLexeme)
    (hends : kind.Ends cs) : kind.StandsAt (kind.text.toList ++ cs) cs := by
  refine ⟨hk, rfl, ?_⟩
  rintro rfl
  exact hends

/-- the splitting of a written text -/
theorem Written.splits {ks : List TokenKind} {cs : List Char} (h : Written ks cs) :
    ∃ pieces last, Splits cs pieces last [] ∧ pieces.map Prod.snd = ks := by
  induction h with
  | @last g hg =>
    have hsplits := Splits.last hg Ended.nil
    rw [List.append_nil] at hsplits
    exact ⟨[], g, hsplits, rfl⟩
  | @lexeme g kind ks cs hg hk hends _ ih =>
    obtain ⟨pieces, last, hsplits, rfl⟩ := ih
    have hstop := (kind.standsAt_of_ends hk hends).not_startsGap
    have hlongest := (scan?_eq_some_iff hstop).1 (scan?_of_ends hk hends)
    exact ⟨_, last, .lexeme hg hlongest hsplits, rfl⟩

theorem Splits.written {cs last rest : List Char} {pieces : List (List Char × TokenKind)}
    (h : Splits cs pieces last rest) (hrest : rest = []) : Written (pieces.map Prod.snd) cs := by
  induction h with
  | last hg =>
    subst hrest
    rw [List.append_nil]
    exact .last hg
  | @lexeme g cs kind cs' pieces last rest hg hlex _ ih =>
    obtain rfl := hlex.eq
    exact .lexeme hg hlex.isLexeme hlex.ends (ih hrest)

/-- a text is a way to write just the tokens that are found in it -/
theorem SourceFile.written_iff {file : SourceFile} {ks : List TokenKind} :
    Written ks file.text.toList ↔
      ∃ tokens, file.tokens = .ok tokens ∧ tokens.map Token.kind = ks ++ [.endOfFile] := by
  constructor
  · intro h
    obtain ⟨pieces, last, hsplits, rfl⟩ := h.splits
    exact ⟨_, scanTokens_of_splits hsplits .origin, rowTokens_kinds ..⟩
  · rintro ⟨tokens, htokens, hkinds⟩
    obtain ⟨pieces, last, rest, hsplits⟩ := exists_splits file.text.toList
    have hresult : file.tokens = splitResult .origin pieces last rest :=
      scanTokens_of_splits hsplits _
    rw [htokens] at hresult
    cases rest with
    | cons c rest => cases hresult
    | nil =>
      cases hresult
      rw [rowTokens_kinds] at hkinds
      exact List.append_cancel_right hkinds ▸ hsplits.written rfl

theorem SourceFile.written_of_kinds {file : SourceFile} {ks : List TokenKind}
    (h : file.tokens.toOption.map (List.map Token.kind) = some (ks ++ [.endOfFile])) :
    Written ks file.text.toList := by
  rw [written_iff]
  cases hfile : file.tokens with
  | error _ => simp [hfile, Except.toOption] at h
  | ok tokens => exact ⟨tokens, rfl, by simpa [hfile, Except.toOption] using h⟩

/-! ### gaps of their own -/

/-- blanks and comments, each comment with the line feed that ends it -/
inductive ClosedGap : List Char → Prop
  | nil : ClosedGap []
  | blank {c g} (hc : isBlank c = true) (hg : ClosedGap g) : ClosedGap (c :: g)
  | comment {body g} (hbody : '\n' ∉ body) (hg : ClosedGap g) :
      ClosedGap ('/' :: '/' :: body ++ '\n' :: g)

/-- a gap at the end of a text, where a comment may be left open -/
inductive LastGap : List Char → Prop
  | closed {g} (hg : ClosedGap g) : LastGap g
  | unclosed {g body} (hg : ClosedGap g) (hbody : '\n' ∉ body) : LastGap (g ++ '/' :: '/' :: body)

section
variable {g rest : List Char}

/-- blanks and comments are a gap wherever they stand -/
theorem ClosedGap.append_gap {g' : List Char} (hg : ClosedGap g) (hg' : Gap g' rest) :
    Gap (g ++ g') rest := by
  induction hg with
  | nil => exact hg'
  | blank hc _ ih => exact .blank hc ih
  | @comment body g hbody _ ih =>
    have hline : Gap ('\n' :: (g ++ g')) rest := .blank rfl ih
    simpa using Gap.comment hbody (by simp) hline

theorem ClosedGap.gap (hg : ClosedGap g) : Gap g rest := by
  simpa using hg.append_gap Gap.nil

theorem LastGap.gap (hg : LastGap g) : Gap g [] := by
  cases hg with
  | closed hg => exact hg.gap
  | @unclosed g body hg hbody =>
    refine hg.append_gap ?_
    simpa using Gap.comment hbody (by simp) Gap.nil

theorem Gap.startsGap (hg : Gap g rest) (hne : g ≠ []) : StartsGap (g ++ rest) := by
  cases hg with
  | nil => exact absurd rfl hne
  | blank hc => exact .inl hc
  | comment => exact .inr ⟨rfl, rfl⟩

end

/-! ### tokens side by side -/

namespace TokenKind

def isWord : TokenKind → Bool
  | identifier _ | keyword _ => true
  | _ => false

def isNumber : TokenKind → Bool
  | number _ => true
  | _ => false

/-- whether two tokens are read as other ones if nothing stands between them -/
def merges (k k' : TokenKind) : Bool :=
  k.isWord && (k'.isWord || k'.isNumber) || k.isNumber && k'.isNumber ||
    (k == symbol .assign || k == symbol .less || k == symbol .greater) &&
      (k' == symbol .assign || k' == symbol .equal) ||
    k == symbol .slash && k' == symbol .slash

/-- the characters of words and numbers are none of these signs -/
theorem ne_of_isWordPart {c : Char} (h : isWordPart c = true) : c ≠ '=' ∧ c ≠ '/' ∧ c ≠ '.' := by
  refine ⟨?_, ?_, ?_⟩ <;> rintro rfl <;> revert h <;> decide

/-- what the first character of a lexeme tells of its kind -/
theorem IsLexeme.head {k : TokenKind} (hk : k.IsLexeme) : ∃ c cs, k.text.toList = c :: cs ∧
    c.isDigit = k.isNumber ∧ isWordPart c = (k.isWord || k.isNumber) ∧
    (c = '=' ↔ k = symbol .assign ∨ k = symbol .equal) ∧ (c = '/' ↔ k = symbol .slash) ∧
    c ≠ '.' := by
  cases k with
  | number lexeme =>
    obtain ⟨c, cs, hcs, hc⟩ := hk.cons
    obtain ⟨hequals, hslash, hpoint⟩ := ne_of_isWordPart (isWordPart_of_digit hc)
    exact ⟨c, cs, hcs, hc, isWordPart_of_digit hc, by simp [hequals], by simp [hslash], hpoint⟩
  | identifier name =>
    obtain ⟨c, cs, hcs, hc, -⟩ := hk.1
    obtain ⟨hequals, hslash, hpoint⟩ := ne_of_isWordPart (isWordPart_of_start hc)
    exact ⟨c, cs, hcs, isWordStart_not_digit hc, isWordPart_of_start hc, by simp [hequals],
      by simp [hslash], hpoint⟩
  | keyword word =>
    obtain ⟨c, cs, hcs, hc, -⟩ := word.isWord_text
    obtain ⟨hequals, hslash, hpoint⟩ := ne_of_isWordPart (isWordPart_of_start hc)
    exact ⟨c, cs, hcs, isWordStart_not_digit hc, isWordPart_of_start hc, by simp [hequals],
      by simp [hslash], hpoint⟩
  | symbol sign => cases sign <;> exact ⟨_, _, rfl, by decide⟩
  | endOfFile => exact hk.elim

/-- a lexeme ends in front of the next one just if the two do not merge -/
theorem ends_text_iff {k k' : TokenKind} (hk' : k'.IsLexeme) (rest : List Char) :
    k.Ends (k'.text.toList ++ rest) ↔ k.merges k' = false := by
  obtain ⟨c, cs, hcs, hdigit, hpart, hequals, hslash, hpoint⟩ := hk'.head
  rw [hcs, List.cons_append]
  cases k with
  | number lexeme => simp [Ends, merges, isWord, isNumber, hpoint, hdigit]
  | identifier name | keyword word => simp [Ends, merges, isWord, isNumber, hpart]
  | symbol sign => cases sign <;> simp [Ends, merges, isWord, isNumber, hequals, hslash]
  | endOfFile => simp [Ends, merges, isWord, isNumber]

/-- a gap ends every lexeme in front of it, but a slash must not start with a slash -/
theorem ends_of_startsGap {k : TokenKind} {cs : List Char} (h : StartsGap cs)
    (hslash : k = symbol .slash → cs.head? ≠ some '/') : k.Ends cs := by
  cases cs with
  | nil => exact h.elim
  | cons c cs =>
    have hc : c.isDigit = false ∧ isWordPart c = false ∧ c ≠ '=' ∧ c ≠ '.' := by
      obtain hblank | ⟨rfl, -⟩ := h
      · simp only [isBlank, Bool.or_eq_true, beq_iff_eq] at hblank
        obtain ((rfl | rfl) | rfl) | rfl := hblank <;> decide
      · decide
    obtain ⟨hdigit, hpart, hequals, hpoint⟩ := hc
    cases k with
    | symbol sign => cases sign <;> simp_all [Ends]
    | _ => simp_all [Ends]

end TokenKind

/-- a blank in front of every lexeme keeps them apart -/
theorem Written.of_blanks {ks : List TokenKind} (h : ∀ k ∈ ks, k.IsLexeme) :
    Written ks (piecesText (ks.map ([' '], ·))) := by
  induction ks with
  | nil => exact .last .nil
  | cons k ks ih =>
    obtain ⟨hk, hks⟩ := List.forall_mem_cons.1 h
    have hends : k.Ends (piecesText (ks.map ([' '], ·))) := by
      cases ks with
      | nil => exact k.ends_nil
      | cons k' ks => exact k.ends_of_startsGap (.inl rfl) (by simp [piecesText])
    have hblank : Gap [' '] (k.text.toList ++ piecesText (ks.map ([' '], ·))) := .blank rfl .nil
    have hwritten := Written.lexeme hblank hk hends (ih hks)
    rwa [← List.append_assoc] at hwritten

/-! ### spaced rows -/

/-- A row of lexemes with the gaps in front of them, and the gap behind the last one.  A gap between
two lexemes that merge is not empty, and no comment follows a slash at once. -/
structure Spaced (pieces : List (List Char × TokenKind)) (last : List Char) : Prop where
  lexemes : ∀ piece ∈ pieces, ClosedGap piece.1 ∧ piece.2.IsLexeme
  last_gap : LastGap last
  apart : ∀ pair ∈ pieces.zip pieces.tail, pair.1.2.merges pair.2.2 = true → pair.2.1 ≠ []
  slash : ∀ pair ∈ pieces.zip pieces.tail,
    pair.1.2 = .symbol .slash → pair.2.1.head? ≠ some '/'
  slash_last : ∀ piece ∈ pieces.getLast?, piece.2 = .symbol .slash → last.head? ≠ some '/'

section
variable {g last : List Char} {k : TokenKind} {pieces : List (List Char × TokenKind)}

theorem Spaced.tail (h : Spaced ((g, k) :: pieces) last) : Spaced pieces last := by
  have hlexemes : ∀ piece ∈ pieces, ClosedGap piece.1 ∧ piece.2.IsLexeme := fun piece hpiece =>
    h.lexemes piece (List.mem_cons_of_mem _ hpiece)
  cases pieces with
  | nil => exact ⟨hlexemes, h.last_gap, by simp, by simp, by simp⟩
  | cons piece pieces =>
    refine ⟨hlexemes, h.last_gap, fun pair hpair => h.apart pair (List.mem_cons_of_mem _ hpair),
      fun pair hpair => h.slash pair (List.mem_cons_of_mem _ hpair), fun piece hpiece => ?_⟩
    exact h.slash_last piece (by rwa [List.getLast?_cons_cons])

/-- a lexeme in a spaced row ends in front of what follows -/
theorem Spaced.ends (h : Spaced ((g, k) :: pieces) last) : k.Ends (piecesText pieces ++ last) := by
  cases pieces with
  | nil =>
    by_cases hempty : last = []
    · subst hempty
      exact k.ends_nil
    · have hgap := h.last_gap.gap.startsGap hempty
      rw [List.append_nil] at hgap
      exact TokenKind.ends_of_startsGap hgap (h.slash_last (g, k) rfl)
  | cons piece pieces =>
    obtain ⟨g', k'⟩ := piece
    obtain ⟨hg', hk'⟩ := h.lexemes (g', k') (by simp)
    have hapart : k.merges k' = true → g' ≠ [] := h.apart ((g, k), (g', k')) List.mem_cons_self
    have hslash : k = .symbol .slash → g'.head? ≠ some '/' :=
      h.slash ((g, k), (g', k')) List.mem_cons_self
    simp only [piecesText, List.append_assoc]
    by_cases hempty : g' = []
    · subst hempty
      exact (TokenKind.ends_text_iff hk' _).2 (Bool.eq_false_iff.2 fun h => hapart h rfl)
    · refine TokenKind.ends_of_startsGap (hg'.gap.startsGap hempty) fun hk => ?_
      obtain ⟨c, g', rfl⟩ := List.exists_cons_of_ne_nil hempty
      exact hslash hk

theorem Spaced.written (h : Spaced pieces last) :
    Written (pieces.map Prod.snd) (piecesText pieces ++ last) := by
  induction pieces with
  | nil => exact .last h.last_gap.gap
  | cons piece pieces ih =>
    obtain ⟨g, k⟩ := piece
    obtain ⟨hg, hk⟩ := h.lexemes (g, k) List.mem_cons_self
    simpa [piecesText] using Written.lexeme hg.gap hk h.ends (ih h.tail)

/-- **What is written is read back.**  The tokens of a spaced row are found in its text, and nothing
but them and the end of the file. -/
theorem SourceFile.kinds_of_spaced {file : SourceFile} (h : Spaced pieces last)
    (htext : file.text.toList = piecesText pieces ++ last) :
    file.tokens.map (List.map Token.kind) = .ok (pieces.map Prod.snd ++ [.endOfFile]) := by
  have hw := h.written
  rw [← htext] at hw
  obtain ⟨tokens, htokens, hkinds⟩ := SourceFile.written_iff.1 hw
  rw [htokens, ← hkinds]
  rfl

end

/-- a number and a word side by side, slashes with comments behind them, and an open comment -/
def spacedRow : List (List Char × TokenKind) :=
  [("//a\n".toList, .number "2"), ([], .identifier "x"), ([' '], .number "0.50"),
    ([], .symbol .slash), (" // / \n".toList, .symbol .slash), (['\r'], .symbol .less),
    (['\t'], .symbol .equal), ([], .symbol .assign), ([], .keyword .ifWord)]

def spacedFile : SourceFile := ⟨"spaced", "//a\n2x 0.50/ // / \n/\r<\t===if//"⟩

theorem SourceFile.kinds_of_spaced_example : Spaced spacedRow "//".toList ∧
    spacedFile.text.toList = piecesText spacedRow ++ "//".toList ∧
    spacedFile.tokens.map (List.map Token.kind) =
      .ok [.number "2", .identifier "x", .number "0.50", .symbol .slash, .symbol .slash,
        .symbol .less, .symbol .equal, .symbol .assign, .keyword .ifWord, .endOfFile] := by
  have hone : IsDigits ['2'] := ⟨by simp, List.all_eq_true.1 rfl⟩
  have hname : (TokenKind.identifier "x").IsLexeme :=
    ⟨⟨'x', [], rfl, by decide, by simp⟩, by intro word; cases word <;> decide⟩
  have hpoint : IsNumber ("0".toList ++ '.' :: "50".toList) :=
    .decimal ⟨by simp, List.all_eq_true.1 rfl⟩ ⟨by simp, List.all_eq_true.1 rfl⟩
  have hgaps : ClosedGap "//a\n".toList ∧ ClosedGap " // / \n".toList :=
    ⟨@ClosedGap.comment ['a'] _ (by decide) .nil,
      .blank rfl (@ClosedGap.comment " / ".toList _ (by decide) .nil)⟩
  have hblank {c : Char} (hc : isBlank c = true) : ClosedGap [c] := .blank hc .nil
  have hrow : Spaced spacedRow "//".toList := by
    refine ⟨?_, @LastGap.unclosed _ [] .nil (by simp), by decide, by decide, by decide⟩
    simp only [spacedRow, List.forall_mem_cons]
    exact ⟨⟨hgaps.1, .whole hone⟩, ⟨.nil, hname⟩, ⟨hblank rfl, hpoint⟩, ⟨.nil, trivial⟩,
      ⟨hgaps.2, trivial⟩, ⟨hblank rfl, trivial⟩, ⟨hblank rfl, trivial⟩, ⟨.nil, trivial⟩,
      ⟨.nil, trivial⟩, by simp⟩
  have htext : spacedFile.text.toList = piecesText spacedRow ++ "//".toList := by decide +kernel
  exact ⟨hrow, htext, SourceFile.kinds_of_spaced hrow htext⟩

end Wattle
