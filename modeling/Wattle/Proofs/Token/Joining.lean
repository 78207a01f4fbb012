import Wattle.Proofs.Diagnosis

/-!
# Texts are read line by line

No token and no fault looks past a line feed.  What is found in a text is found there in the same
way if the text goes on behind a line feed (`Splits.append_line`), and the lines of a text keep
their content wherever they stand (`SourceFile.line_of_joins`, `SourceFile.line_below_of_joins`).
So the tokens of two texts with a line feed between them, or the diagnostic of the first character
that starts none, come from the two texts by themselves: `SourceFile.lex_joined` is the result.
-/

namespace Wattle

/-! ### lines of joined texts -/

namespace Line

theorem tail?_append_line {a rest : List Char} (b : List Char) (h : tail? a = some rest) :
    tail? (a ++ '\n' :: b) = some (rest ++ '\n' :: b) := by
  induction a with
  | nil => cases h
  | cons c a ih =>
    rw [tail?] at h
    rw [List.cons_append, tail?]
    split
    · next hc =>
      rw [if_pos hc] at h
      rw [Option.some.inj h]
    · next hc =>
      rw [if_neg hc] at h
      exact ih h

theorem skip?_append_line {n : Nat} {a rest : List Char} (b : List Char)
    (h : skip? n a = some rest) : skip? n (a ++ '\n' :: b) = some (rest ++ '\n' :: b) := by
  induction n generalizing a with
  | zero =>
    rw [skip?_zero] at h ⊢
    rw [Option.some.inj h]
  | succ n ih =>
    rw [skip?_succ] at h ⊢
    obtain ⟨behind, hbehind, hrest⟩ := Option.bind_eq_some_iff.1 h
    rw [tail?_append_line b hbehind]
    exact ih hrest

theorem skip?_add (n m : Nat) (cs : List Char) :
    skip? (n + m) cs = (skip? n cs).bind (skip? m) := by
  induction n generalizing cs with
  | zero => rw [Nat.zero_add, skip?_zero, Option.bind_some]
  | succ n ih =>
    rw [Nat.add_right_comm, skip?_succ, skip?_succ, Option.bind_assoc]
    congr 1
    funext rest
    exact ih rest

/-- a line ends in front of a line feed -/
theorem head_append_line (cs b : List Char) : head (cs ++ '\n' :: b) = head cs := by
  induction cs with
  | nil => rfl
  | cons c cs ih =>
    rw [List.cons_append, head, head, List.takeWhile_cons, List.takeWhile_cons]
    split
    · exact congrArg (c :: ·) ih
    · rfl

end Line

namespace SourceFile

variable {file a b : SourceFile}

theorem Joins.toList (h : file.Joins a b) :
    file.text.toList = a.text.toList ++ '\n' :: b.text.toList := by
  rw [h]
  simp

/-- a line of the first text is the same line of both -/
theorem line_of_joins (h : file.Joins a b) {n : Nat} {line : String}
    (hline : a.line n = some line) :
    file.line n = some line := by
  cases n with
  | zero => cases hline
  | succ n =>
    rw [line_succ] at hline
    obtain ⟨rest, hrest, rfl⟩ := Option.map_eq_some_iff.1 hline
    rw [line_succ, h.toList, Line.skip?_append_line b.text.toList hrest, Option.map_some,
      Line.head_append_line]

/-- a line of the second text stands below the lines of the first one -/
theorem line_below_of_joins (h : file.Joins a b) {n : Nat} (hn : 1 ≤ n) :
    file.line (n + (a.text.toList.count '\n' + 1)) = b.line n := by
  obtain ⟨n, rfl⟩ := Nat.exists_eq_add_of_le' hn
  rw [Nat.add_right_comm, line_succ, line_succ, h.toList, Nat.add_comm n,
    Line.skip?_add, Line.skip?_line_feed, Option.bind_some]

end SourceFile

/-! ### splittings of joined texts -/

section
variable {cs last rest : List Char} {pieces : List (List Char × TokenKind)} {c : Char}

theorem StartsGap.of_append_line (behind : List Char)
    (h : StartsGap (c :: rest ++ '\n' :: behind)) : StartsGap (c :: rest) := by
  obtain hblank | ⟨hslash, hnext⟩ := h
  · exact .inl hblank
  · cases rest with
    | nil => cases hnext
    | cons d rest => exact .inr ⟨hslash, hnext⟩

/-- a lexeme does not run over a line feed -/
theorem TokenKind.StandsAt.of_append_line {kind : TokenKind} {behind rest' : List Char}
    (h : kind.StandsAt (cs ++ '\n' :: behind) rest') : ∃ rest, kind.StandsAt cs rest := by
  obtain ⟨front, hfront, hfeed⟩ | ⟨front, hfront, hrest⟩ := List.append_eq_append_iff.1 h.eq
  · cases front with
    | nil =>
      rw [List.append_nil] at hfront
      exact ⟨[], h.isLexeme, by rw [List.append_nil, hfront], nofun⟩
    | cons d front =>
      -- the lexeme would hold the line feed
      obtain ⟨rfl, -⟩ := List.cons.inj hfeed
      exact absurd (by simp [hfront]) h.isLexeme.line
  · refine ⟨front, h.isLexeme, hfront, fun hkind hslash => h.slash hkind ?_⟩
    obtain ⟨front', rfl⟩ := List.head?_eq_some_iff.1 hslash
    rw [hrest]
    rfl

/-- what starts neither a gap nor a lexeme does not start one either if a line feed follows -/
theorem Ended.append_line (h : Ended (c :: rest)) (behind : List Char) :
    Ended (c :: rest ++ '\n' :: behind) := by
  refine ⟨fun hgap => h.1 (.of_append_line behind hgap), fun kind rest' hstands => ?_⟩
  obtain ⟨rest, hstands⟩ := hstands.of_append_line
  exact h.2 kind rest hstands

theorem TokenKind.LongestAt.append_line {kind : TokenKind} (h : kind.LongestAt cs rest)
    (behind : List Char) : kind.LongestAt (cs ++ '\n' :: behind) (rest ++ '\n' :: behind) := by
  have hends : kind.Ends (rest ++ '\n' :: behind) := h.ends.append_line
  rw [h.eq, List.append_assoc]
  refine (scan?_eq_some_iff ?_).1 (scan?_of_ends h.isLexeme hends)
  exact (kind.standsAt_of_ends h.isLexeme hends).not_startsGap

/-- what is found in front of a character that starts nothing is found there if a line feed and
another text follow -/
theorem Splits.append_line (h : Splits cs pieces last rest) (hrest : rest ≠ [])
    (behind : List Char) :
    Splits (cs ++ '\n' :: behind) pieces last (rest ++ '\n' :: behind) := by
  induction h with
  | @last g rest hg hend =>
    obtain ⟨c, rest, rfl⟩ := List.exists_cons_of_ne_nil hrest
    rw [List.append_assoc]
    exact .last hg.append_line (hend.append_line behind)
  | lexeme hg hlex _ ih =>
    rw [List.append_assoc]
    exact .lexeme hg.append_line (hlex.append_line behind) (ih hrest)

end

/-! ### tokens and diagnostics -/

/-- the same diagnostic some lines below -/
def Diagnostic.below (n : Nat) (d : Diagnostic) : Diagnostic :=
  { d with span := SpanMap.below n d.span }

namespace SourceFile

/-- the tokens of a file, or the diagnostic of its first character that starts none -/
def lex (file : SourceFile) : Except Diagnostic (List Token) := file.tokens.mapError file.diagnose

section
variable {file a b : SourceFile}

theorem tokens_of_lex {tokens : List Token} (h : file.lex = .ok tokens) :
    file.tokens = .ok tokens := by
  unfold lex at h
  cases hfile : file.tokens with
  | error fault =>
    rw [hfile] at h
    cases h
  | ok tokens =>
    rw [hfile] at h
    exact congrArg Except.ok (Except.ok.inj h)

theorem fault_of_lex {d : Diagnostic} (h : file.lex = .error d) :
    ∃ fault, file.tokens = .error fault ∧ d = file.diagnose fault := by
  unfold lex at h
  cases hfile : file.tokens with
  | error fault =>
    rw [hfile] at h
    exact ⟨fault, rfl, (Except.error.inj h).symm⟩
  | ok tokens =>
    rw [hfile] at h
    cases h

/-- the splitting that the fault of a file comes from -/
theorem splits_of_fault {fault : Fault} (h : file.tokens = .error fault) :
    ∃ pieces last c rest, Splits file.text.toList pieces last (c :: rest) ∧
      fault = Splits.fault pieces last c := by
  obtain ⟨pieces, last, rest, hsplits⟩ := exists_splits file.text.toList
  rw [tokens, scanTokens_of_splits hsplits] at h
  cases rest with
  | nil => cases h
  | cons c rest =>
    obtain rfl := Except.error.inj h
    refine ⟨pieces, last, c, rest, hsplits, ?_⟩
    rw [Splits.fault, ← Position.origin_after]

/-- the line of a fault is there to be shown -/
theorem line_of_fault {fault : Fault} (h : file.tokens = .error fault) :
    1 ≤ fault.span.first.line ∧
      file.line fault.span.first.line = some (file.diagnose fault).sourceLine := by
  obtain ⟨pieces, last, c, rest, hsplits, rfl⟩ := splits_of_fault h
  obtain ⟨⟨hle, -⟩, hline, -⟩ :=
    @diagnose_line file (Splits.fault pieces last c) _ _ hsplits.text_eq.symm rfl
  exact ⟨hle, hline⟩

/-- a character that starts nothing is the first one whatever follows in other lines -/
theorem tokens_error_of_joins (h : file.Joins a b) {fault : Fault} (ha : a.tokens = .error fault) :
    file.tokens = .error fault := by
  obtain ⟨pieces, last, c, rest, hsplits, rfl⟩ := splits_of_fault ha
  have hjoined := hsplits.append_line (List.cons_ne_nil c rest) b.text.toList
  rw [tokens, h.toList, scanTokens_of_splits hjoined, Splits.fault, ← Position.origin_after]
  rfl

/-- the diagnostic of a fault does not change if the line that it shows does not -/
theorem diagnose_eq {name text text' : String} {fault : Fault}
    (hline : line ⟨name, text⟩ fault.span.first.line = line ⟨name, text'⟩ fault.span.first.line) :
    diagnose ⟨name, text⟩ fault = diagnose ⟨name, text'⟩ fault := by
  rw [diagnose, diagnose, hline]

theorem diagnose_below {name text text' : String} {fault : Fault} {n : Nat}
    (hline : line ⟨name, text⟩ (fault.span.first.line + n) =
      line ⟨name, text'⟩ fault.span.first.line) :
    diagnose ⟨name, text⟩ (fault.mapSpan (.below n)) =
      (diagnose ⟨name, text'⟩ fault).below n := by
  have hshown := congrArg (Option.getD · "") hline
  show Diagnostic.mk .. = Diagnostic.mk ..
  congr 1

end

/-- **Texts are read line by line.**  If a text is rejected, then it is rejected with the same
diagnostic whatever follows in other lines.  Otherwise the tokens in front of the end of the file
stay, and behind them come the tokens of the other lines, or their diagnostic, which stand as many
lines below as there are in front. -/
theorem lex_joined (name s t : String) :
    (∀ d, lex ⟨name, s⟩ = .error d → lex ⟨name, s ++ "\n" ++ t⟩ = .error d) ∧
    ∀ tokens, lex ⟨name, s⟩ = .ok tokens → ∃ ts p,
      tokens = ts ++ [.eof p] ∧ (∀ u ∈ ts, u.kind ≠ .endOfFile) ∧
      (∀ us, lex ⟨name, t⟩ = .ok us → lex ⟨name, s ++ "\n" ++ t⟩ =
        .ok (ts ++ us.map (Token.mapSpan (.below (s.toList.count '\n' + 1))))) ∧
      ∀ d, lex ⟨name, t⟩ = .error d →
        lex ⟨name, s ++ "\n" ++ t⟩ = .error (d.below (s.toList.count '\n' + 1)) := by
  have hjoins : (⟨name, s ++ "\n" ++ t⟩ : SourceFile).Joins ⟨name, s⟩ ⟨name, t⟩ := rfl
  refine ⟨fun d hd => ?_, fun tokens htokens => ?_⟩
  · obtain ⟨fault, hfault, rfl⟩ := fault_of_lex hd
    obtain ⟨-, hline⟩ := line_of_fault hfault
    rw [lex, tokens_error_of_joins hjoins hfault]
    have hline' := (line_of_joins hjoins hline).trans hline.symm
    exact congrArg Except.error (diagnose_eq hline')
  · have htokens := tokens_of_lex htokens
    have hjoined := tokens_joined hjoins htokens
    obtain ⟨pieces, last, hsplits, rfl⟩ := splits_of_tokens htokens
    rw [rowTokens_eq, List.dropLast_concat] at hjoined
    refine ⟨_, _, rowTokens_eq .., rowLexemes_ne_endOfFile hsplits _, fun us hus => ?_,
      fun d hd => ?_⟩
    · rw [lex, hjoined, tokens_of_lex hus]
      rfl
    · obtain ⟨fault, hfault, rfl⟩ := fault_of_lex hd
      obtain ⟨hle, -⟩ := line_of_fault hfault
      rw [lex, hjoined, hfault]
      exact congrArg Except.error (diagnose_below (line_below_of_joins hjoins hle))

/-- an exclamation mark in front of a line feed and an equals sign; a slash and an open comment in
front of a slash in the next line; a point behind them -/
theorem lex_joined_example :
    (∃ d, lex ⟨"lines", "a !"⟩ = .error d ∧ d.span = .point ⟨1, 3⟩ ∧ d.sourceLine = "a !" ∧
      lex ⟨"lines", "a !" ++ "\n" ++ "= b"⟩ = .error d) ∧
    (∃ ts us, lex ⟨"lines", "7 / // \u00e9"⟩ = .ok (ts ++ [.eof ⟨1, 10⟩]) ∧
      lex ⟨"lines", "/ 8"⟩ = .ok us ∧
      lex ⟨"lines", "7 / // \u00e9" ++ "\n" ++ "/ 8"⟩ =
        .ok (ts ++ us.map (Token.mapSpan (.below 1)))) ∧
    ∃ d, lex ⟨"lines", "/ 8\n 1.\r"⟩ = .error d ∧ d.span = .point ⟨2, 3⟩ ∧ d.sourceLine = " 1." ∧
      lex ⟨"lines", "7 / // \u00e9" ++ "\n" ++ "/ 8\n 1.\r"⟩ = .error (d.below 1) := by
  have hfront : (lex ⟨"lines", "7 / // \u00e9"⟩).toOption =
      some ([⟨.number "7", ⟨1, 1⟩, ⟨1, 1⟩⟩, ⟨.symbol .slash, ⟨1, 3⟩, ⟨1, 3⟩⟩] ++
        [.eof ⟨1, 10⟩]) := by decide +kernel
  have hmark : (match lex ⟨"lines", "a !"⟩ with | .ok _ => none | .error d => some d) =
      some (.new "lines" 1 "unexpected character '!'" (.point ⟨1, 3⟩) "a !") := by decide +kernel
  have hbehind : (lex ⟨"lines", "/ 8"⟩).toOption.isSome = true := by decide +kernel
  have hpoint : (match lex ⟨"lines", "/ 8\n 1.\r"⟩ with | .ok _ => none | .error d => some d) =
      some (.new "lines" 1 "unexpected character '.'" (.point ⟨2, 3⟩) " 1.") := by decide +kernel
  cases hs : lex ⟨"lines", "7 / // \u00e9"⟩ with
  | error d =>
    rw [hs] at hfront
    cases hfront
  | ok tokens =>
    rw [hs] at hfront
    obtain rfl := Option.some.inj hfront
    refine ⟨?_, ?_, ?_⟩
    · split at hmark
      · cases hmark
      · next d hd =>
        obtain rfl := Option.some.inj hmark
        exact ⟨_, hd, rfl, rfl, (lex_joined "lines" "a !" "= b").1 _ hd⟩
    · obtain ⟨ts, p, hts, -, hok, -⟩ := (lex_joined "lines" "7 / // \u00e9" "/ 8").2 _ hs
      obtain ⟨rfl, hp⟩ := List.append_inj' hts rfl
      obtain ⟨us, hus⟩ := Option.isSome_iff_exists.1 hbehind
      cases ht : lex ⟨"lines", "/ 8"⟩ with
      | error d =>
        rw [ht] at hus
        cases hus
      | ok us => exact ⟨_, us, rfl, rfl, hok us ht⟩
    · obtain ⟨-, -, -, -, -, herror⟩ :=
        (lex_joined "lines" "7 / // \u00e9" "/ 8\n 1.\r").2 _ hs
      split at hpoint
      · cases hpoint
      · next d hd =>
        obtain rfl := Option.some.inj hpoint
        exact ⟨_, hd, rfl, rfl, herror _ hd⟩

end SourceFile

end Wattle
