import Wattle.Proofs.Parser.Spans
import Wattle.Proofs.Token.Written

/-!
# Texts joined by a line feed

A gap in front of a text moves its tokens and does nothing else (`scanTokens_gap`), and tokens that
start some lines below are the same tokens with larger line numbers (`scanTokens_below`).  A line
feed ends every gap and every lexeme, so that the tokens of two texts with a line feed between them
are those of the first text, and then those of the second one below
(`SourceFile.tokens_joined`).
-/

namespace Wattle

/-! ### lines below -/

/-- the same column some lines below -/
def Position.below (n : Nat) (p : Position) : Position := ⟨p.line + n, p.column⟩

namespace Position

variable {n : Nat}

theorem below_le {p q : Position} : p.below n ≤ q.below n ↔ p ≤ q := by
  simp only [le_iff, below]
  omega

theorem below_min (p q : Position) : (min p q).below n = min (p.below n) (q.below n) := by
  simp only [min_def, below_le]
  split <;> rfl

theorem below_max (p q : Position) : (max p q).below n = max (p.below n) (q.below n) := by
  simp only [max_def, below_le]
  split <;> rfl

theorem below_next (p : Position) (c : Char) : (p.below n).next c = (p.next c).below n := by
  simp only [next, below]
  split
  · rw [Nat.add_right_comm]
  · rfl

theorem below_after (p : Position) (cs : List Char) :
    (p.below n).after cs = (p.after cs).below n := by
  induction cs generalizing p with
  | nil => rfl
  | cons c cs ih => rw [after_cons, after_cons, below_next, ih]

/-- every line feed starts one more line -/
theorem after_line_feed (p : Position) (cs : List Char) :
    p.after (cs ++ ['\n']) = ⟨p.line + (cs.count '\n' + 1), 1⟩ := by
  have hline : (p.after cs).line = p.line + cs.count '\n' := by
    induction cs generalizing p with
    | nil => rfl
    | cons c cs ih =>
      rw [after_cons, ih]
      by_cases hc : c = '\n'
      · subst hc
        simp only [next, if_true, List.count_cons_self]
        omega
      · simp [next, hc]
  rw [after_append, after_cons, after_nil, next, if_pos rfl, hline, Nat.add_assoc]

end Position

/-- all spans some lines below -/
def SpanMap.below (n : Nat) : SpanMap where
  toFun s := ⟨s.first.below n, s.last.below n⟩
  merge s t := by simp [Span.merge, Position.below_min, Position.below_max]

section
variable {n : Nat} (p : Position)

theorem Token.placed_below (kind : TokenKind) :
    Token.placed kind (p.below n) = (Token.placed kind p).mapSpan (.below n) := by
  rw [Token.placed, Position.below_after]
  rfl

theorem rowTokens_below (last : List Char) (pieces : List (List Char × TokenKind)) :
    rowTokens (p.below n) last pieces =
      (rowTokens p last pieces).map (Token.mapSpan (.below n)) := by
  induction pieces generalizing p with
  | nil => simp only [rowTokens, Position.below_after]; rfl
  | cons piece pieces ih =>
    simp only [rowTokens, Position.below_after, ih, Token.placed_below, List.map_cons]

/-- tokens some lines below are the same tokens, and so is a fault -/
theorem scanTokens_below (cs : List Char) : scanTokens (p.below n) cs =
    (SpanMap.below n).result (List.map (Token.mapSpan (.below n))) (scanTokens p cs) := by
  obtain ⟨pieces, last, rest, hsplits⟩ := exists_splits cs
  rw [scanTokens_of_splits hsplits, scanTokens_of_splits hsplits]
  cases rest with
  | nil => exact congrArg Except.ok (rowTokens_below p last pieces)
  | cons c rest =>
    simp only [splitResult, Position.below_after]
    rfl

end

/-! ### gaps and line feeds -/

section
variable {g cs rest : List Char}

theorem splitGap_append_of_gap (hg : Gap g cs) :
    splitGap false (g ++ cs) = (g ++ (splitGap false cs).1, (splitGap false cs).2) := by
  induction hg with
  | nil => rfl
  | blank hc _ ih => rw [List.cons_append, splitGap_blank hc, ih]; rfl
  | comment hbody hend _ ih => rw [List.append_assoc, splitGap_comment hbody hend, ih]; simp

/-- a gap in front of a text only moves its tokens -/
theorem scanTokens_gap (hg : Gap g cs) (p : Position) :
    scanTokens p (g ++ cs) = scanTokens (p.after g) cs := by
  have hsplit := splitGap_append_of_gap hg
  cases hcs : splitGap false cs with
  | mk g' behind =>
    rw [hcs] at hsplit
    cases behind with
    | nil => rw [scanTokens_end p hsplit, scanTokens_end _ hcs, Position.after_append]
    | cons c behind =>
      cases hscan : scan? (c :: behind) with
      | none =>
        rw [scanTokens_stuck p hsplit hscan, scanTokens_stuck _ hcs hscan, Position.after_append]
      | some found =>
        obtain ⟨kind, behind'⟩ := found
        rw [scanTokens_step p hsplit hscan, scanTokens_step _ hcs hscan]
        simp only [Position.after_append]

/-- a line feed closes the gap at the end of a text -/
theorem Gap.line_feed (hg : Gap g cs) (hcs : cs = []) : Gap (g ++ ['\n']) rest := by
  induction hg with
  | nil => exact .blank rfl .nil
  | blank hc _ ih => exact .blank hc (ih hcs)
  | @comment body g cs hbody hline _ ih =>
    subst hcs
    have hrest : ∀ c ∈ (g ++ ['\n'] ++ rest).head?, c = '\n' := by
      cases g with
      | nil => simp
      | cons c g => simpa using hline
    simpa using Gap.comment hbody hrest (ih rfl)

/-- a gap stays a gap if the text behind it goes on in a new line -/
theorem Gap.append_line (hg : Gap g cs) : Gap g (cs ++ '\n' :: rest) := by
  induction hg with
  | nil => exact .nil
  | blank hc _ ih => exact .blank hc ih
  | @comment body g cs hbody hend _ ih =>
    refine .comment hbody ?_ ih
    rw [← List.append_assoc]
    cases h : g ++ cs with
    | nil => simp
    | cons c cs => simpa [h] using hend

/-- a lexeme that ends does not go on in a new line -/
theorem TokenKind.Ends.append_line {k : TokenKind} (h : k.Ends cs) :
    k.Ends (cs ++ '\n' :: rest) := by
  cases k with
  | number lexeme =>
    refine ⟨?_, fun hpoint d rest' heq => ?_⟩
    · cases cs with
      | nil => simp
      | cons c cs => simpa using h.1
    · match cs, heq with
      | [], heq => simp at heq
      | [_], heq =>
        obtain ⟨-, rfl, -⟩ : _ ∧ _ ∧ _ := by simpa using heq
        rfl
      | _ :: _ :: _, heq =>
        obtain ⟨rfl, rfl, -⟩ : _ ∧ _ ∧ _ := by simpa using heq
        exact h.2 hpoint _ _ rfl
  | identifier name | keyword word =>
    cases cs with
    | nil => simp [Ends, show isWordPart '\n' = false by decide]
    | cons c cs => simpa [Ends] using h
  | symbol sign =>
    cases cs with
    | nil => cases sign <;> simp [Ends]
    | cons c cs => cases sign <;> simp_all [Ends]
  | endOfFile => trivial

end

/-! ### joined texts -/

/-- the tokens of a row of gaps and lexemes, without the end of the file -/
def rowLexemes (p : Position) : List (List Char × TokenKind) → List Token
  | [] => []
  | (g, kind) :: pieces =>
    .placed kind (p.after g) :: rowLexemes (p.after (g ++ kind.text.toList)) pieces

theorem rowTokens_eq (p : Position) (last : List Char) (pieces : List (List Char × TokenKind)) :
    rowTokens p last pieces =
      rowLexemes p pieces ++ [.eof (p.after (piecesText pieces ++ last))] := by
  induction pieces generalizing p with
  | nil => rfl
  | cons piece pieces ih =>
    simp only [rowTokens, rowLexemes, ih, piecesText, Position.after_append, List.cons_append]

/-- the tokens of a text that goes on in a new line, and then those of the lines behind it -/
theorem scanTokens_joined {cs last rest : List Char} {pieces : List (List Char × TokenKind)}
    (h : Splits cs pieces last rest) (hrest : rest = []) (p : Position) (cs' : List Char) :
    scanTokens p (cs ++ '\n' :: cs') =
      (scanTokens (p.after (cs ++ ['\n'])) cs').map (rowLexemes p pieces ++ ·) := by
  induction h generalizing p with
  | @last g rest hg =>
    subst hrest
    have hline : Gap (g ++ ['\n']) cs' := hg.line_feed rfl
    have hgap := scanTokens_gap hline p
    rw [List.append_assoc] at hgap
    rw [List.append_nil]
    refine hgap.trans ?_
    cases scanTokens (p.after (g ++ ['\n'])) cs' <;> rfl
  | @lexeme g cs kind behind pieces last rest hg hlex _ ih =>
    have hends : kind.Ends (behind ++ '\n' :: cs') := hlex.ends.append_line
    have hcs : cs ++ '\n' :: cs' = kind.text.toList ++ (behind ++ '\n' :: cs') := by
      rw [hlex.eq, List.append_assoc]
    have hgap : Gap g (cs ++ '\n' :: cs') := hg.append_line
    rw [hcs] at hgap
    have hsplit := splitGap_of_gap hgap (kind.standsAt_of_ends hlex.isLexeme hends).not_startsGap
    rw [List.append_assoc, hcs,
      scanTokens_step p hsplit (scan?_of_ends hlex.isLexeme hends), ih hrest, hlex.eq]
    simp only [List.append_assoc, Position.after_append, rowLexemes]
    cases scanTokens _ cs' <;> rfl

/-- two texts with a line feed between them -/
def SourceFile.Joins (file a b : SourceFile) : Prop := file.text = a.text ++ "\n" ++ b.text

theorem rowLexemes_isLexeme {cs last rest : List Char} {pieces : List (List Char × TokenKind)}
    (h : Splits cs pieces last rest) (p : Position) :
    ∀ t ∈ rowLexemes p pieces, t.kind.IsLexeme := by
  induction h generalizing p with
  | last => simp [rowLexemes]
  | lexeme _ hlex _ ih => exact List.forall_mem_cons.2 ⟨hlex.isLexeme, ih _⟩

theorem rowLexemes_ne_endOfFile {cs last rest : List Char} {pieces : List (List Char × TokenKind)}
    (h : Splits cs pieces last rest) (p : Position) :
    ∀ t ∈ rowLexemes p pieces, t.kind ≠ .endOfFile := by
  intro t ht hk
  have hlexeme := rowLexemes_isLexeme h p t ht
  rwa [hk] at hlexeme

/-- the tokens of a text end with the end of the file, which stands nowhere else -/
theorem SourceFile.tokens_eq_snoc {file : SourceFile} {tokens : List Token}
    (h : file.tokens = .ok tokens) :
    ∃ ts stop, tokens = ts ++ [stop] ∧ stop.kind = .endOfFile ∧
      ∀ t ∈ ts, t.kind ≠ .endOfFile := by
  obtain ⟨pieces, last, hsplits, rfl⟩ := splits_of_tokens h
  exact ⟨_, _, rowTokens_eq .., rfl, rowLexemes_ne_endOfFile hsplits _⟩

/-- The tokens of joined texts are those of the first text, and then those of the second one, as
many lines below as the first text has. -/
theorem SourceFile.tokens_joined {file a b : SourceFile} {tokens : List Token}
    (hfile : file.Joins a b) (ha : a.tokens = .ok tokens) :
    file.tokens = ((SpanMap.below (a.text.toList.count '\n' + 1)).result
      (List.map (Token.mapSpan (.below (a.text.toList.count '\n' + 1)))) b.tokens).map
        (tokens.dropLast ++ ·) := by
  obtain ⟨pieces, last, hsplits, rfl⟩ := splits_of_tokens ha
  have htext : file.text.toList = a.text.toList ++ '\n' :: b.text.toList := by
    rw [hfile]
    simp
  rw [SourceFile.tokens, htext, scanTokens_joined hsplits rfl, Position.after_line_feed, tokens,
    ← scanTokens_below, rowTokens_eq, List.dropLast_concat]
  simp only [Position.below, Position.origin]

end Wattle
