import Wattle.Proofs.Lines
import Wattle.Proofs.Token.Lines

/-!
# Positions of tokens

The scanner counts lines and columns as it goes.  `Position.behind` says where the place behind a
text is without counting along: by the line feeds in the text and the bytes behind the last one.
The two agree (`Position.origin_after`), so that every token stands where its spelling is found in
the line that `SourceFile.line` cuts out of the text (`SourceFile.Places`), and the tokens of a file
stand one behind the other (`rowTokens_pairwise`).
-/

namespace Wattle

/-! ### places -/

namespace Position

/-- the place behind a text at the front of a file -/
def behind (cs : List Char) : Position :=
  ⟨1 + cs.count '\n', 1 + (String.ofList (Line.last cs)).utf8ByteSize⟩

theorem origin_after (cs : List Char) : origin.after cs = behind cs := by
  obtain h | ⟨a, b, rfl, hb⟩ := Line.exists_last cs
  · rw [after_of_line h, behind, Line.last_of_line h, List.count_eq_zero.2 h]
    rfl
  · have hcount : (a ++ '\n' :: b).count '\n' = a.count '\n' + 1 := by
      rw [List.count_append, List.count_cons_self, List.count_eq_zero.2 hb]
    rw [behind, Line.last_line_feed a hb, hcount, List.append_cons, after_append,
      after_line_feed, after_of_line hb]
    rfl

/-- lines first, then columns -/
instance : LT Position where
  lt p q := p.line < q.line ∨ p.line = q.line ∧ p.column < q.column

variable {p q r : Position}

theorem lt_iff : p < q ↔ p.line < q.line ∨ p.line = q.line ∧ p.column < q.column := Iff.rfl

theorem le_refl (p : Position) : p ≤ p := .inr ⟨rfl, Nat.le_refl _⟩

theorem le_trans (h : p ≤ q) (h' : q ≤ r) : p ≤ r := by
  rw [le_iff] at *
  omega

theorem lt_of_lt_of_le (h : p < q) (h' : q ≤ r) : p < r := by
  rw [lt_iff] at *
  rw [le_iff] at h'
  omega

theorem le_next (p : Position) (c : Char) : p ≤ p.next c := by
  unfold next
  split
  · exact .inl (Nat.lt_succ_self _)
  · exact .inr ⟨rfl, Nat.le_add_right _ _⟩

theorem le_after (p : Position) (cs : List Char) : p ≤ p.after cs := by
  induction cs generalizing p with
  | nil => exact le_refl p
  | cons c cs ih => exact le_trans (le_next p c) (ih _)

theorem after_column_pos (h : 0 < p.column) (cs : List Char) : 0 < (p.after cs).column := by
  induction cs generalizing p with
  | nil => exact h
  | cons c cs ih =>
    refine ih ?_
    unfold next
    split
    · exact Nat.one_pos
    · exact Nat.add_pos_left h _

end Position

/-! ### one token -/

/-- a token stands where its spelling does, behind a text at the front of the file -/
structure SourceFile.Places (file : SourceFile) (before : List Char) (t : Token) : Prop where
  first : t.span.first = .behind before
  last : t.span.last =
    ⟨t.span.first.line, t.span.first.column + t.kind.text.utf8ByteSize - 1⟩
  text : ∃ line, file.line t.span.first.line = some line ∧
    line.toByteArray.extract (t.span.first.column - 1) t.span.last.column =
      t.kind.text.toByteArray

theorem TokenKind.IsLexeme.text_ne_nil {kind : TokenKind} (h : kind.IsLexeme) :
    kind.text.toList ≠ [] := scan?_text_ne (scan?_of_ends h kind.ends_nil)

theorem TokenKind.IsLexeme.size_pos {kind : TokenKind} (h : kind.IsLexeme) :
    0 < kind.text.utf8ByteSize := by
  refine Nat.pos_of_ne_zero fun hzero => h.text_ne_nil ?_
  rw [String.utf8ByteSize_eq_zero_iff.1 hzero]
  rfl

/-- the counters behind a token, which have run over its spelling, are those in front of it and
the bytes of the spelling -/
theorem Token.placed_last {kind : TokenKind} (hk : kind.IsLexeme) {p : Position}
    (hp : 0 < p.column) :
    (Token.placed kind p).span.last = ⟨p.line, p.column + kind.text.utf8ByteSize - 1⟩ := by
  have hafter : p.after kind.text.toList = ⟨p.line, p.column + kind.text.utf8ByteSize⟩ :=
    Position.after_lexeme hk p []
  have hmax : max (p.column + kind.text.utf8ByteSize - 1) 1 =
      p.column + kind.text.utf8ByteSize - 1 :=
    Nat.max_eq_left (Nat.le_sub_of_add_le (Nat.add_le_add hp hk.size_pos))
  rw [placed, hafter, Span.upTo, hmax]

theorem SourceFile.places_placed {file : SourceFile} {before behind : List Char} {kind : TokenKind}
    (hk : kind.IsLexeme) (htext : file.text.toList = before ++ kind.text.toList ++ behind) :
    file.Places before (.placed kind (.behind before)) := by
  have hlast := Token.placed_last hk (p := .behind before) (Nat.add_pos_left Nat.one_pos _)
  refine ⟨rfl, hlast, _, line_append htext hk.text_ne_nil hk.line (hk.not_mem rfl), ?_⟩
  rw [hlast]
  have hend : 1 + (String.ofList (Line.last before)).utf8ByteSize + kind.text.utf8ByteSize - 1 =
      (String.ofList (Line.last before)).utf8ByteSize + kind.text.utf8ByteSize := by omega
  show ByteArray.extract _ (1 + _ - 1) (1 + _ + _ - 1) = _
  rw [Nat.add_sub_cancel_left, hend, String.ofList_append, String.ofList_append,
    String.ofList_toList]
  exact extract_toByteArray _ _ _

/-! ### rows of tokens -/

theorem piecesText_append (pieces pieces' : List (List Char × TokenKind)) :
    piecesText (pieces ++ pieces') = piecesText pieces ++ piecesText pieces' := by
  induction pieces with
  | nil => rfl
  | cons piece pieces ih => simp only [List.cons_append, piecesText, ih, List.append_assoc]

section
variable {cs last rest : List Char} {pieces : List (List Char × TokenKind)}

theorem Splits.isLexeme (h : Splits cs pieces last rest) : ∀ piece ∈ pieces, piece.2.IsLexeme := by
  induction h with
  | last => nofun
  | lexeme _ hlex _ ih => exact List.forall_mem_cons.2 ⟨hlex.isLexeme, ih⟩

theorem rowLexemes_length (p : Position) (pieces : List (List Char × TokenKind)) :
    (rowLexemes p pieces).length = pieces.length := by
  induction pieces generalizing p with
  | nil => rfl
  | cons piece pieces ih => simp only [rowLexemes, List.length_cons, ih]

theorem rowTokens_append (p : Position) (last : List Char)
    (pieces pieces' : List (List Char × TokenKind)) :
    rowTokens p last (pieces ++ pieces') =
      rowLexemes p pieces ++ rowTokens (p.after (piecesText pieces)) last pieces' := by
  induction pieces generalizing p with
  | nil => rfl
  | cons piece pieces ih =>
    simp only [List.cons_append, rowTokens, rowLexemes, ih, piecesText, Position.after_append]

/-- the tokens of a row stand one behind the other, none of them in front of the row -/
theorem rowTokens_pairwise (hpieces : ∀ piece ∈ pieces, piece.2.IsLexeme) {p : Position}
    (hp : 0 < p.column) (last : List Char) :
    (∀ t ∈ rowTokens p last pieces, p ≤ t.span.first ∧ t.span.first ≤ t.span.last) ∧
      (rowTokens p last pieces).Pairwise fun t u => t.span.last < u.span.first := by
  induction pieces generalizing p with
  | nil =>
    refine ⟨fun t ht => ?_, List.pairwise_singleton _ _⟩
    rw [List.mem_singleton.1 ht]
    exact ⟨p.le_after last, Position.le_refl _⟩
  | cons piece pieces ih =>
    obtain ⟨g, kind⟩ := piece
    obtain ⟨hk, hpieces⟩ := List.forall_mem_cons.1 hpieces
    obtain ⟨hmore, hpairwise⟩ := ih hpieces (Position.after_column_pos hp (g ++ kind.text.toList))
    have hsize : 0 < kind.text.utf8ByteSize := hk.size_pos
    have hend := Token.placed_last hk (Position.after_column_pos hp g)
    rw [rowTokens, List.pairwise_cons]
    refine ⟨fun t ht => ?_, fun t ht => ?_, hpairwise⟩
    · obtain rfl | ht := List.mem_cons.1 ht
      · refine ⟨p.le_after g, ?_⟩
        rw [hend]
        exact .inr ⟨rfl, Nat.le_sub_one_of_lt (Nat.lt_add_of_pos_right hsize)⟩
      · obtain ⟨hfirst, hlast⟩ := hmore t ht
        exact ⟨Position.le_trans (p.le_after _) hfirst, hlast⟩
    · refine Position.lt_of_lt_of_le ?_ (hmore t ht).1
      rw [Position.after_lexeme hk, hend]
      exact .inr ⟨rfl, Nat.sub_one_lt (Nat.ne_of_gt (Nat.add_pos_right _ hsize))⟩

end

/-! ### files -/

section
variable {file : SourceFile} {last rest : List Char} {pieces : List (List Char × TokenKind)}

/-- the token of a piece stands behind the pieces in front of it and its gap -/
theorem Splits.places (h : Splits file.text.toList pieces last rest) {g : List Char}
    {kind : TokenKind} {earlier later : List (List Char × TokenKind)}
    (hpieces : pieces = earlier ++ (g, kind) :: later) :
    ∃ t, (rowTokens .origin last pieces)[earlier.length]? = some t ∧ t.kind = kind ∧
      file.Places (piecesText earlier ++ g) t := by
  have hk : kind.IsLexeme := h.isLexeme (g, kind) (by simp [hpieces])
  have htext : file.text.toList = (piecesText earlier ++ g) ++ kind.text.toList ++
      (piecesText later ++ last ++ rest) := by
    rw [← h.text_eq, hpieces, piecesText_append, piecesText]
    simp only [List.append_assoc]
  refine ⟨.placed kind (.behind (piecesText earlier ++ g)), ?_, rfl,
    SourceFile.places_placed hk htext⟩
  rw [hpieces, rowTokens_append, List.getElem?_append_right (Nat.le_of_eq (rowLexemes_length ..)),
    rowLexemes_length, Nat.sub_self, rowTokens, List.getElem?_cons_zero, ← Position.after_append,
    Position.origin_after]

/-- **Positions are exact.**  The tokens of a file stand where the spellings stand in its text, and
none of them overlap; the end of the file stands behind the last byte.  The fault of a text that has
no tokens stands at the character that starts none. -/
theorem SourceFile.positions_of_tokens (file : SourceFile) :
    (∀ tokens, file.tokens = .ok tokens → ∃ pieces last,
      Splits file.text.toList pieces last [] ∧
      tokens.map Token.kind = pieces.map Prod.snd ++ [.endOfFile] ∧
      (∀ earlier g kind later, pieces = earlier ++ (g, kind) :: later → ∃ t,
        tokens[earlier.length]? = some t ∧ t.kind = kind ∧
          file.Places (piecesText earlier ++ g) t) ∧
      tokens.getLast? = some (.eof (.behind file.text.toList)) ∧
      (∀ t ∈ tokens, t.span.first ≤ t.span.last) ∧
      tokens.Pairwise fun t u => t.span.last < u.span.first) ∧
    ∀ fault, file.tokens = .error fault → ∃ pieces last c rest,
      Splits file.text.toList pieces last (c :: rest) ∧
      fault.cause = .unexpectedCharacter c ∧ (file.diagnose fault).codeText = "E001" ∧
      (file.diagnose fault).span = .point (.behind (piecesText pieces ++ last)) := by
  constructor
  · intro tokens htokens
    obtain ⟨pieces, last, hsplits, rfl⟩ := splits_of_tokens htokens
    obtain ⟨hspans, hpairwise⟩ :=
      rowTokens_pairwise hsplits.isLexeme (p := .origin) Nat.one_pos last
    refine ⟨pieces, last, hsplits, rowTokens_kinds .., fun _ _ _ _ => hsplits.places, ?_,
      fun t ht => (hspans t ht).2, hpairwise⟩
    have htext := hsplits.text_eq
    rw [List.append_nil] at htext
    rw [rowTokens_eq, List.getLast?_concat, htext, Position.origin_after]
  · intro fault hfault
    obtain ⟨pieces, last, rest, hsplits⟩ := exists_splits file.text.toList
    rw [tokens, scanTokens_of_splits hsplits] at hfault
    cases rest with
    | nil => cases hfault
    | cons c rest =>
      cases hfault
      refine ⟨pieces, last, c, rest, hsplits, rfl, Diagnostic.codeText_of_code rfl, ?_⟩
      rw [← Position.origin_after]
      rfl

end

namespace SourceFile

/-- a comment outside of ASCII, a carriage return, and a name that is not on the first line -/
def accentFile : SourceFile := ⟨"accents", "// \u00e9\u00e8\r\n  width"⟩

/-- the same, with a sign behind the name that starts nothing -/
def strayFile : SourceFile := ⟨"accents", "// \u00e9\u00e8\r\n  width?"⟩

theorem positions_example :
    (∃ tokens before t, accentFile.tokens = .ok tokens ∧ tokens[0]? = some t ∧
      t.kind = .identifier "width" ∧ t.span.first = ⟨2, 3⟩ ∧ accentFile.Places before t ∧
      tokens.getLast? = some (.eof ⟨2, 8⟩)) ∧
    ∃ fault before, strayFile.tokens = .error fault ∧
      (strayFile.diagnose fault).span = .point (.behind before) ∧
      Position.behind before = ⟨2, 8⟩ := by
  constructor
  · have hcheck : accentFile.tokens.toOption =
        some [⟨.identifier "width", ⟨2, 3⟩, ⟨2, 7⟩⟩, .eof ⟨2, 8⟩] := by decide +kernel
    cases htokens : accentFile.tokens with
    | error fault =>
      rw [htokens] at hcheck
      cases hcheck
    | ok tokens =>
      rw [htokens] at hcheck
      obtain rfl := Option.some.inj hcheck
      obtain ⟨pieces, last, -, hkinds, hplaces, -⟩ :=
        (positions_of_tokens accentFile).1 _ htokens
      obtain ⟨⟨g, kind⟩, hpieces⟩ : ∃ piece, pieces = [piece] := by
        rw [← List.length_eq_one_iff]
        simpa using (congrArg List.length hkinds).symm
      obtain ⟨t, ht, -, hplace⟩ := hplaces [] g kind [] hpieces
      obtain rfl := Option.some.inj ht
      exact ⟨_, _, _, rfl, rfl, rfl, rfl, hplace, rfl⟩
  · have hcheck : (match strayFile.tokens with
        | .ok _ => false
        | .error fault => decide (fault.span = .point ⟨2, 8⟩)) = true := by decide +kernel
    split at hcheck
    · cases hcheck
    · next fault hfault =>
      obtain ⟨pieces, last, c, rest, -, -, -, hspan⟩ := (positions_of_tokens strayFile).2 _ hfault
      have hbehind := congrArg Span.first (hspan.symm.trans (of_decide_eq_true hcheck))
      exact ⟨_, _, hfault, hspan, hbehind⟩

end SourceFile

end Wattle
