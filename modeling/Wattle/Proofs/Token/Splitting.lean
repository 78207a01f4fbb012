import Wattle.Proofs.Lines
import Wattle.Proofs.Token.Lexemes

/-!
# A text splits in one way into gaps and longest lexemes

`Splits cs pieces last rest` says, without the scanner, that the text `cs` is a row of gaps and
lexemes, each lexeme the longest one at its place, up to a gap `last` behind which neither a gap nor
a lexeme goes on.  Every text splits so (`exists_splits`), no character is lost (`Splits.text_eq`),
and there is one way only (`Splits.unique`).

* `scanTokens_of_splits`   the tokens of a text that is split up to its end, or the fault at the
                           character that is left;
* `SourceFile.tokens_splits`   the same of every file, with the place and the message of the fault.
-/

namespace Wattle

/-- blanks and comments in front of a text `rest`; only the end of the text closes a comment that
no line feed ends -/
inductive Gap : List Char → List Char → Prop
  | nil {rest} : Gap [] rest
  | blank {c g rest} (hc : isBlank c = true) (hg : Gap g rest) : Gap (c :: g) rest
  | comment {body g rest} (hbody : '\n' ∉ body) (hend : ∀ c ∈ (g ++ rest).head?, c = '\n')
      (hg : Gap g rest) : Gap ('/' :: '/' :: body ++ g) rest

/-- neither a gap nor a lexeme starts here -/
def Ended (rest : List Char) : Prop :=
  ¬ StartsGap rest ∧ ∀ kind rest', ¬ TokenKind.StandsAt kind rest rest'

/-- gaps and longest lexemes, as far as they go -/
inductive Splits : List Char → List (List Char × TokenKind) → List Char → List Char → Prop
  | last {g rest} (hg : Gap g rest) (hend : Ended rest) : Splits (g ++ rest) [] g rest
  | lexeme {g cs kind cs' pieces last rest} (hg : Gap g cs) (hlex : kind.LongestAt cs cs')
      (hrest : Splits cs' pieces last rest) : Splits (g ++ cs) ((g, kind) :: pieces) last rest

/-- the text of a row of gaps and lexemes -/
def piecesText : List (List Char × TokenKind) → List Char
  | [] => []
  | (g, kind) :: pieces => g ++ kind.text.toList ++ piecesText pieces

/-- the tokens of a row of gaps and lexemes that starts at a position -/
def rowTokens (p : Position) (last : List Char) : List (List Char × TokenKind) → List Token
  | [] => [.eof (p.after last)]
  | (g, kind) :: pieces =>
    .placed kind (p.after g) :: rowTokens (p.after (g ++ kind.text.toList)) last pieces

theorem rowTokens_kinds (p : Position) (last : List Char) (pieces : List (List Char × TokenKind)) :
    (rowTokens p last pieces).map Token.kind = pieces.map Prod.snd ++ [.endOfFile] := by
  induction pieces generalizing p with
  | nil => rfl
  | cons piece pieces ih => simp [rowTokens, Token.placed, ih]

theorem Splits.text_eq {cs pieces last rest} (h : Splits cs pieces last rest) :
    piecesText pieces ++ last ++ rest = cs := by
  induction h with
  | last => simp [piecesText]
  | lexeme hg hlex _ ih =>
    rw [hlex.eq, ← ih]
    simp [piecesText]

/-! ### gaps -/

section
variable {g rest body cs : List Char}

theorem gapStep_eq_none {c : Char} (h : ¬ StartsGap (c :: cs)) : gapStep false c cs = none := by
  obtain ⟨hblank, hslash⟩ := not_or.1 h
  simpa [gapStep, hblank] using not_and.1 hslash

theorem splitGap_step {inComment inside : Bool} {c : Char}
    (h : gapStep inComment c cs = some inside) :
    splitGap inComment (c :: cs) = (c :: (splitGap inside cs).1, (splitGap inside cs).2) := by
  simp [splitGap, h]

theorem splitGap_of_not_startsGap (h : ¬ StartsGap rest) : splitGap false rest = ([], rest) := by
  cases rest with
  | nil => rfl
  | cons c rest => simp [splitGap, gapStep_eq_none h]

theorem splitGap_blank {c : Char} (hc : isBlank c = true) :
    splitGap false (c :: cs) = (c :: (splitGap false cs).1, (splitGap false cs).2) :=
  splitGap_step (by simp [gapStep, hc])

/-- an open comment runs up to a line feed or the end -/
theorem splitGap_body (hbody : '\n' ∉ body) (hend : ∀ c ∈ cs.head?, c = '\n') :
    splitGap true (body ++ cs) = (body ++ (splitGap false cs).1, (splitGap false cs).2) := by
  induction body with
  | nil =>
    cases cs with
    | nil => rfl
    | cons c cs =>
      obtain rfl := hend c rfl
      rfl
  | cons c body ih =>
    obtain ⟨hc, hbody⟩ := not_or.1 (mt List.mem_cons.2 hbody)
    have hopen : gapStep true c (body ++ cs) = some true := by simp [gapStep, Ne.symm hc]
    rw [List.cons_append, splitGap_step hopen, ih hbody]
    rfl

theorem splitGap_comment (hbody : '\n' ∉ body) (hend : ∀ c ∈ cs.head?, c = '\n') :
    splitGap false ('/' :: '/' :: body ++ cs) =
      ('/' :: '/' :: body ++ (splitGap false cs).1, (splitGap false cs).2) := by
  -- the second slash is the first character of the comment
  have hopen : '\n' ∉ '/' :: body := by simpa using hbody
  rw [List.cons_append, splitGap_step rfl, splitGap_body hopen hend]
  rfl

/-- a gap that is written in front of a text is cut off again, as long as no gap goes on there -/
theorem splitGap_of_gap (hg : Gap g rest) (hrest : ¬ StartsGap rest) :
    splitGap false (g ++ rest) = (g, rest) := by
  induction hg with
  | nil => exact splitGap_of_not_startsGap hrest
  | blank hc _ ih => rw [List.cons_append, splitGap_blank hc, ih hrest]
  | comment hbody hend _ ih => rw [List.append_assoc, splitGap_comment hbody hend, ih hrest]

theorem Gap.unique {g' rest' : List Char} (hg : Gap g rest) (hrest : ¬ StartsGap rest)
    (hg' : Gap g' rest') (hrest' : ¬ StartsGap rest') (heq : g ++ rest = g' ++ rest') :
    g = g' ∧ rest = rest' := by
  have hsplit := splitGap_of_gap hg hrest
  rw [heq, splitGap_of_gap hg' hrest'] at hsplit
  simpa [eq_comm] using hsplit

/-- a gap starts with a blank, or with a comment and what ends it -/
theorem StartsGap.cases (h : StartsGap cs) :
    (∃ c cs', isBlank c = true ∧ cs = c :: cs') ∨
    ∃ body cs', '\n' ∉ body ∧ (∀ c ∈ cs'.head?, c = '\n') ∧ cs = '/' :: '/' :: body ++ cs' := by
  cases cs with
  | nil => exact h.elim
  | cons c cs =>
    obtain hblank | ⟨rfl, hslash⟩ := h
    · exact .inl ⟨c, cs, hblank, rfl⟩
    · obtain ⟨cs, rfl⟩ := List.head?_eq_some_iff.1 hslash
      refine .inr ⟨cs.takeWhile (· != '\n'), cs.dropWhile (· != '\n'), fun hmem => ?_,
        fun c hc => ?_, by simp [List.takeWhile_append_dropWhile]⟩
      · have := List.all_eq_true.1 List.all_takeWhile _ hmem
        simp at this
      · have := List.head?_dropWhile_not (· != '\n') cs
        rw [hc] at this
        simpa using this

/-- what is cut off is a gap, and no gap goes on behind it -/
theorem gap_splitGap (cs : List Char) :
    Gap (splitGap false cs).1 (splitGap false cs).2 ∧ ¬ StartsGap (splitGap false cs).2 := by
  by_cases h : StartsGap cs
  · obtain ⟨c, cs', hc, rfl⟩ | ⟨body, cs', hbody, hend, rfl⟩ := h.cases
    · obtain ⟨hg, hstop⟩ := gap_splitGap cs'
      rw [splitGap_blank hc]
      exact ⟨.blank hc hg, hstop⟩
    · obtain ⟨hg, hstop⟩ := gap_splitGap cs'
      rw [splitGap_comment hbody hend]
      refine ⟨.comment hbody ?_ hg, hstop⟩
      rwa [splitGap_append]
  · rw [splitGap_of_not_startsGap h]
    exact ⟨.nil, h⟩
termination_by cs.length
decreasing_by all_goals simp_all <;> omega

end

/-! ### positions -/

theorem Position.after_of_line {cs : List Char} (h : '\n' ∉ cs) (p : Position) :
    p.after cs = ⟨p.line, p.column + (String.ofList cs).utf8ByteSize⟩ := by
  induction cs generalizing p with
  | nil => simp
  | cons c cs ih =>
    obtain ⟨hc, hcs⟩ := not_or.1 (mt List.mem_cons.2 h)
    rw [after_cons, ih hcs, utf8ByteSize_ofList_cons, next, if_neg (Ne.symm hc), Nat.add_assoc]

/-- no blank stands in a lexeme -/
theorem TokenKind.IsLexeme.not_mem {kind : TokenKind} (h : kind.IsLexeme) {c : Char}
    (hc : isBlank c = true) : c ∉ kind.text.toList := by
  simp only [isBlank, Bool.or_eq_true, beq_iff_eq] at hc
  have hplain : isWordPart c = false ∧ c ≠ '.' := by
    obtain ((rfl | rfl) | rfl) | rfl := hc <;> decide
  have hword : ∀ {w}, IsWord w → c ∉ w := by
    rintro _ ⟨first, w, rfl, hfirst, hw⟩ hmem
    have hpart : isWordPart c = true := by
      obtain rfl | hmem := List.mem_cons.1 hmem
      · exact isWordPart_of_start hfirst
      · exact hw _ hmem
    exact Bool.false_ne_true (hplain.1.symm.trans hpart)
  have hdigits : ∀ {w}, IsDigits w → c ∉ w := fun hw hmem =>
    Bool.false_ne_true (hplain.1.symm.trans (isWordPart_of_digit (hw.2 _ hmem)))
  have hnumber : ∀ {w}, IsNumber w → c ∉ w := by
    rintro _ (hw | ⟨hw, hf⟩)
    · exact hdigits hw
    · simpa [hplain.2] using And.intro (hdigits hw) (hdigits hf)
  cases kind with
  | number lexeme => exact hnumber h
  | identifier name => exact hword h.1
  | keyword word => exact hword word.isWord_text
  | symbol sign => obtain ((rfl | rfl) | rfl) | rfl := hc <;> cases sign <;> decide
  | endOfFile => exact h.elim

theorem TokenKind.IsLexeme.line {kind : TokenKind} (h : kind.IsLexeme) :
    '\n' ∉ kind.text.toList := h.not_mem rfl

/-- the position behind a gap and a lexeme -/
theorem Position.after_lexeme {kind : TokenKind} (h : kind.IsLexeme) (p : Position)
    (g : List Char) : p.after (g ++ kind.text.toList) =
      ⟨(p.after g).line, (p.after g).column + kind.text.utf8ByteSize⟩ := by
  rw [after_append, after_of_line h.line, String.ofList_toList]

/-! ### splittings -/

section
variable {cs : List Char} {pieces : List (List Char × TokenKind)} {last rest : List Char}

/-- the end of a text starts nothing -/
theorem Ended.nil : Ended [] := by
  refine ⟨id, fun kind rest' h => ?_⟩
  obtain ⟨_, _, hscan, -⟩ := h.scan?
  cases hscan

theorem exists_splits (cs : List Char) : ∃ pieces last rest, Splits cs pieces last rest := by
  obtain ⟨hg, hstop⟩ := gap_splitGap cs
  have hcs := splitGap_append false cs
  generalize splitGap false cs = split at hg hstop hcs
  obtain ⟨g, behind⟩ := split
  cases hcs
  cases hscan : scan? behind with
  | none => exact ⟨[], g, behind, .last hg ⟨hstop, (scan?_eq_none_iff hstop).1 hscan⟩⟩
  | some found =>
    obtain ⟨kind, behind'⟩ := found
    have := scan?_length hscan
    obtain ⟨pieces, last, rest, h⟩ := exists_splits behind'
    exact ⟨_, last, rest, .lexeme hg ((scan?_eq_some_iff hstop).1 hscan) h⟩
termination_by cs.length
decreasing_by
  rw [List.length_append]
  omega

/-- the tokens of a splitting, or the fault at what is left -/
def splitResult (p : Position) (pieces : List (List Char × TokenKind)) (last : List Char) :
    List Char → Except Fault (List Token)
  | [] => .ok (rowTokens p last pieces)
  | c :: _ => .error ⟨.unexpectedCharacter c, .point (p.after (piecesText pieces ++ last))⟩

section
variable {g : List Char} (p : Position)

theorem scanTokens_end (h : splitGap false cs = (g, [])) :
    scanTokens p cs = .ok [.eof (p.after g)] := by
  rw [scanTokens]
  split
  · rw [h]
  · next hcons =>
    rw [h] at hcons
    cases hcons

theorem scanTokens_stuck {c : Char} (h : splitGap false cs = (g, c :: rest))
    (hscan : scan? (c :: rest) = none) :
    scanTokens p cs = .error ⟨.unexpectedCharacter c, .point (p.after g)⟩ := by
  rw [scanTokens]
  split
  · next hnil =>
    rw [h] at hnil
    cases hnil
  · next hcons =>
    rw [h] at hcons
    cases hcons
    split
    · rw [h]
    · next hsome =>
      rw [hscan] at hsome
      cases hsome

theorem scanTokens_step {behind : List Char} {kind : TokenKind}
    (h : splitGap false cs = (g, behind)) (hscan : scan? behind = some (kind, rest)) :
    scanTokens p cs =
      (scanTokens (p.after (g ++ kind.text.toList)) rest).map (.placed kind (p.after g) :: ·) := by
  rw [scanTokens, Position.after_append]
  split
  · next hnil =>
    rw [h] at hnil
    cases hnil
    cases hscan
  · next hcons =>
    rw [h] at hcons
    cases hcons
    split
    · next hnone =>
      rw [hscan] at hnone
      cases hnone
    · next hsome =>
      rw [hscan] at hsome
      cases hsome
      rw [h]
      split <;> next hres => rw [hres]; rfl

end

theorem scanTokens_of_splits (h : Splits cs pieces last rest) (p : Position) :
    scanTokens p cs = splitResult p pieces last rest := by
  induction h generalizing p with
  | @last g rest hg hend =>
    have hsplit := splitGap_of_gap hg hend.1
    cases rest with
    | nil => exact scanTokens_end p hsplit
    | cons c rest => exact scanTokens_stuck p hsplit ((scan?_eq_none_iff hend.1).2 hend.2)
  | @lexeme g cs kind cs' pieces last rest hg hlex _ ih =>
    have hstop := hlex.toStandsAt.not_startsGap
    have hsplit := splitGap_of_gap hg hstop
    rw [scanTokens_step p hsplit ((scan?_eq_some_iff hstop).2 hlex), ih]
    cases rest with
    | nil => rfl
    | cons c rest =>
      simp only [splitResult, piecesText, Position.after_append]
      rfl

/-- gaps and longest lexemes are found in one way only -/
theorem Splits.unique {pieces' : List (List Char × TokenKind)} {last' rest' : List Char}
    (h : Splits cs pieces last rest) (h' : Splits cs pieces' last' rest') :
    pieces = pieces' ∧ last = last' ∧ rest = rest' := by
  induction h generalizing pieces' with
  | @last g t hg hend =>
    generalize heq : g ++ t = cs at h'
    cases h' with
    | last hg' hend' =>
      obtain ⟨rfl, rfl⟩ := hg.unique hend.1 hg' hend'.1 heq
      exact ⟨rfl, rfl, rfl⟩
    | lexeme hg' hlex' _ =>
      obtain ⟨rfl, rfl⟩ := hg.unique hend.1 hg' hlex'.toStandsAt.not_startsGap heq
      exact absurd hlex'.toStandsAt (hend.2 _ _)
  | @lexeme g t kind t' pieces last rest hg hlex _ ih =>
    have hstop := hlex.toStandsAt.not_startsGap
    generalize heq : g ++ t = cs at h'
    cases h' with
    | last hg' hend' =>
      obtain ⟨rfl, rfl⟩ := hg.unique hstop hg' hend'.1 heq
      exact absurd hlex.toStandsAt (hend'.2 _ _)
    | lexeme hg' hlex' hrest' =>
      obtain ⟨rfl, rfl⟩ := hg.unique hstop hg' hlex'.toStandsAt.not_startsGap heq
      obtain ⟨rfl, rfl⟩ := hlex.unique hlex'
      obtain ⟨rfl, rfl, rfl⟩ := ih hrest'
      exact ⟨rfl, rfl, rfl⟩

end

theorem Diagnostic.codeText_of_code {d : Diagnostic} (h : d.code = 1) : d.codeText = "E001" := by
  rw [codeText, h]
  decide +kernel

/-- the splitting that the tokens of a file come from -/
theorem SourceFile.splits_of_tokens {file : SourceFile} {tokens : List Token}
    (h : file.tokens = .ok tokens) : ∃ pieces last,
      Splits file.text.toList pieces last [] ∧ tokens = rowTokens .origin last pieces := by
  obtain ⟨pieces, last, rest, hsplits⟩ := exists_splits file.text.toList
  have hresult : file.tokens = splitResult .origin pieces last rest :=
    scanTokens_of_splits hsplits _
  rw [h] at hresult
  cases rest <;> cases hresult
  exact ⟨pieces, last, hsplits, rfl⟩

end Wattle
