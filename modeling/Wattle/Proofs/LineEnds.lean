import Wattle.Proofs.Lines
import Wattle.Proofs.Parser.Spans
import Wattle.Proofs.Token.Written

/-!
# Line ends

`CarriageReturns cs cs'` says that `cs'` is the text `cs` with carriage returns in front of some of
its line feeds.  No lexeme has a line feed, so that a splitting of the one text is one of the other,
with the carriage returns in the gaps (`Splits.carriageReturns`); a line feed goes back to the first
column, so that no token moves; and the carriage returns at the end of a line are not part of it.
Hence the two texts have the same tokens, programs, modules and diagnostics
(`SourceFile.compile_carriageReturns`).
-/

namespace Wattle

inductive CarriageReturns : List Char → List Char → Prop
  | nil : CarriageReturns [] []
  | keep {c cs cs'} (h : CarriageReturns cs cs') : CarriageReturns (c :: cs) (c :: cs')
  | insert {cs cs'} (h : CarriageReturns cs cs') :
      CarriageReturns ('\n' :: cs) ('\r' :: '\n' :: cs')

namespace CarriageReturns

instance decidable : (cs cs' : List Char) → Decidable (CarriageReturns cs cs')
  | [], [] => isTrue .nil
  | [], _ :: _ => isFalse nofun
  | _ :: _, [] => isFalse nofun
  | c :: cs, d :: ds =>
    if hd : c = d then
      match decidable cs ds with
      | isTrue h => isTrue (hd ▸ .keep h)
      | isFalse h => isFalse fun h' => by
        cases h' with
        | keep h' => exact h h'
        | insert => cases hd
    else
      match ds with
      | [] => isFalse fun h' => by cases h' with | keep => exact hd rfl
      | e :: es =>
        if hend : c = '\n' ∧ d = '\r' ∧ e = '\n' then
          match decidable cs es with
          | isTrue h => isTrue (by obtain ⟨rfl, rfl, rfl⟩ := hend; exact .insert h)
          | isFalse h => isFalse fun h' => by
            cases h' with
            | keep => exact hd rfl
            | insert h' => exact h h'
        else isFalse fun h' => by
          cases h' with
          | keep => exact hd rfl
          | insert => exact hend ⟨rfl, rfl, rfl⟩

variable {a b cs cs' : List Char} {c : Char}

/-! ### parts of texts -/

theorem of_append (h : CarriageReturns (a ++ b) cs) :
    ∃ a' b', cs = a' ++ b' ∧ CarriageReturns a a' ∧ CarriageReturns b b' := by
  induction a generalizing cs with
  | nil => exact ⟨[], cs, rfl, .nil, h⟩
  | cons c a ih =>
    rw [List.cons_append] at h
    cases h with
    | keep h =>
      obtain ⟨a', b', rfl, ha, hb⟩ := ih h
      exact ⟨c :: a', b', rfl, .keep ha, hb⟩
    | insert h =>
      obtain ⟨a', b', rfl, ha, hb⟩ := ih h
      exact ⟨'\r' :: '\n' :: a', b', rfl, .insert ha, hb⟩

/-- nothing is inserted into one line -/
theorem eq_of_line (h : CarriageReturns a cs) (ha : '\n' ∉ a) : cs = a := by
  induction h with
  | nil => rfl
  | keep _ ih => rw [ih fun hmem => ha (List.mem_cons_of_mem _ hmem)]
  | insert => exact absurd List.mem_cons_self ha

theorem of_line_append (h : CarriageReturns (a ++ b) cs) (ha : '\n' ∉ a) :
    ∃ b', cs = a ++ b' ∧ CarriageReturns b b' := by
  obtain ⟨a', b', rfl, ha', hb⟩ := h.of_append
  rw [ha'.eq_of_line ha]
  exact ⟨b', rfl, hb⟩

/-- what has no carriage returns was there before -/
theorem of_append_right (h : CarriageReturns cs (a ++ b)) (ha : '\r' ∉ a) :
    ∃ b', cs = a ++ b' ∧ CarriageReturns b' b := by
  induction a generalizing cs with
  | nil => exact ⟨cs, rfl, h⟩
  | cons c a ih =>
    obtain ⟨hc, ha⟩ := not_or.1 (mt List.mem_cons.2 ha)
    rw [List.cons_append] at h
    generalize heq : c :: (a ++ b) = cs' at h
    cases h with
    | nil => cases heq
    | keep h =>
      obtain ⟨rfl, rfl⟩ := List.cons.inj heq
      obtain ⟨b', rfl, hb⟩ := ih h ha
      exact ⟨b', rfl, hb⟩
    | insert => exact absurd (List.cons.inj heq).1.symm hc

theorem head?_of_head? (h : CarriageReturns cs cs') (hc : c ≠ '\r') (hhead : cs'.head? = some c) :
    cs.head? = some c := by
  cases h with
  | nil => cases hhead
  | keep => exact hhead
  | insert => exact absurd (Option.some.inj hhead).symm hc

/-- the first character stays what it is, unless it is a line feed -/
theorem cons_of_not_line_feed (h : CarriageReturns (c :: cs) cs') (hc : c ≠ '\n') :
    ∃ cs₁, cs' = c :: cs₁ ∧ CarriageReturns cs cs₁ := by
  cases h with
  | keep h => exact ⟨_, rfl, h⟩
  | insert => exact absurd rfl hc

/-! ### gaps -/

theorem not_startsGap (h : CarriageReturns cs cs') (hcs : ¬ StartsGap cs) : ¬ StartsGap cs' := by
  cases h with
  | nil => exact hcs
  | keep h =>
    rintro (hblank | ⟨rfl, hslash⟩)
    · exact hcs (.inl hblank)
    · exact hcs (.inr ⟨rfl, h.head?_of_head? (by decide) hslash⟩)
  | insert => exact absurd (.inl rfl) hcs

/-- a gap stays a gap, where it ends in front of a lexeme -/
theorem gap {g g' rest rest' : List Char} (hg : Gap g rest) (hstop : ¬ StartsGap rest)
    (h : CarriageReturns g g') (hrest : CarriageReturns rest rest') : Gap g' rest' := by
  induction hg generalizing g' with
  | nil =>
    cases h
    exact .nil
  | blank hc hg ih =>
    cases h with
    | keep h => exact .blank hc (ih hstop h hrest)
    | insert h => exact .blank rfl (.blank rfl (ih hstop h hrest))
  | @comment body g rest hbody hend hg ih =>
    have hline : '\n' ∉ '/' :: '/' :: body := by simpa using hbody
    obtain ⟨behind, rfl, hbehind⟩ := h.of_line_append hline
    cases hbehind with
    | nil =>
      refine .comment hbody ?_ (ih hstop .nil hrest)
      cases hrest with
      | nil => nofun
      | keep => exact hend
      | insert => exact absurd (.inl rfl) hstop
    | keep hg' => exact .comment hbody hend (ih hstop (.keep hg') hrest)
    | @insert _ g' hg' =>
      -- the carriage return belongs to the comment
      have hbody' : '\n' ∉ body ++ ['\r'] := by simpa using hbody
      have hcomment := Gap.comment hbody' (g := '\n' :: g') (by simp) (ih hstop (.keep hg') hrest)
      simpa using hcomment

/-! ### lexemes -/

theorem ends {kind : TokenKind} (hends : kind.Ends cs) (h : CarriageReturns cs cs') :
    kind.Ends cs' := by
  have hall {p : Char → Bool} (hp : p '\r' = false) (hcs : ∀ c ∈ cs.head?, p c = false) :
      ∀ c ∈ cs'.head?, p c = false := by
    intro c hc
    by_cases hreturn : c = '\r'
    · rw [hreturn, hp]
    · exact hcs c (h.head?_of_head? hreturn hc)
  have hhead {c : Char} (hc : c ≠ '\r') (hcs : cs.head? ≠ some c) : cs'.head? ≠ some c :=
    mt (h.head?_of_head? hc) hcs
  cases kind with
  | number lexeme =>
    refine ⟨hall rfl hends.1, fun hpoint d rest hrest => ?_⟩
    by_cases hreturn : d = '\r'
    · subst hreturn
      rfl
    · subst hrest
      have hpair : '\r' ∉ ['.', d] := by simpa using Ne.symm hreturn
      obtain ⟨rest', rfl, -⟩ := of_append_right (a := ['.', d]) h hpair
      exact hends.2 hpoint d rest' rfl
  | identifier name | keyword word => exact hall rfl hends
  | symbol sign =>
    cases sign with
    | assign | less | greater | slash => exact hhead (by decide) hends
    | _ => trivial
  | endOfFile => trivial

/-- a lexeme stays the longest one -/
theorem longestAt {kind : TokenKind} {rest : List Char} (hlex : kind.LongestAt cs rest)
    (h : CarriageReturns cs cs') :
    ∃ rest', kind.LongestAt cs' rest' ∧ CarriageReturns rest rest' := by
  rw [hlex.eq] at h
  obtain ⟨rest', rfl, hrest⟩ := h.of_line_append hlex.isLexeme.line
  have hends := ends hlex.ends hrest
  have hstop := (kind.standsAt_of_ends hlex.isLexeme hends).not_startsGap
  exact ⟨rest', (scan?_eq_some_iff hstop).1 (scan?_of_ends hlex.isLexeme hends), hrest⟩

theorem ended (hend : Ended cs) (h : CarriageReturns cs cs') : Ended cs' := by
  refine ⟨h.not_startsGap hend.1, fun kind rest hstands => ?_⟩
  rw [hstands.eq] at h
  obtain ⟨rest', rfl, hrest⟩ := h.of_append_right (hstands.isLexeme.not_mem rfl)
  refine hend.2 kind rest' ⟨hstands.isLexeme, rfl, fun hkind hslash => ?_⟩
  refine hstands.slash hkind ?_
  obtain ⟨behind, rfl⟩ := List.head?_eq_some_iff.1 hslash
  obtain ⟨_, rfl, -⟩ := hrest.cons_of_not_line_feed (by decide)
  rfl

/-! ### positions -/

/-- in front of a line feed the column does not matter -/
theorem after_eq (h : CarriageReturns cs cs') (p : Position) : p.after cs' = p.after cs := by
  induction h generalizing p with
  | nil => rfl
  | keep _ ih => exact ih _
  | insert _ ih => exact ih _

end CarriageReturns

/-! ### tokens -/

section
variable {cs cs' last rest : List Char} {pieces : List (List Char × TokenKind)}

/-- what a text with carriage returns is split into -/
structure SplitsLike (cs' : List Char) (pieces : List (List Char × TokenKind))
    (last rest : List Char) (pieces' : List (List Char × TokenKind)) (last' rest' : List Char) :
    Prop where
  splits : Splits cs' pieces' last' rest'
  tokens : ∀ p, rowTokens p last' pieces' = rowTokens p last pieces
  stop : ∀ p : Position, p.after (piecesText pieces' ++ last') = p.after (piecesText pieces ++ last)
  rest : CarriageReturns rest rest'

theorem Splits.carriageReturns (h : Splits cs pieces last rest) (hcs : CarriageReturns cs cs') :
    ∃ pieces' last' rest', SplitsLike cs' pieces last rest pieces' last' rest' := by
  induction h generalizing cs' with
  | last hg hend =>
    obtain ⟨last', rest', rfl, hlast, hrest⟩ := hcs.of_append
    have hsplits := Splits.last (CarriageReturns.gap hg hend.1 hlast hrest)
      (CarriageReturns.ended hend hrest)
    refine ⟨[], last', rest', hsplits, fun p => ?_, fun p => hlast.after_eq p, hrest⟩
    rw [rowTokens, rowTokens, hlast.after_eq]
  | @lexeme g cs kind behind pieces last rest hg hlex _ ih =>
    obtain ⟨g', cs', rfl, hg', hcs'⟩ := hcs.of_append
    obtain ⟨behind', hlex', hbehind⟩ := hcs'.longestAt hlex
    obtain ⟨pieces', last', rest', hsplits, htokens, hstop, hrest⟩ := ih hbehind
    have hgap := CarriageReturns.gap hg hlex.toStandsAt.not_startsGap hg' hcs'
    refine ⟨(g', kind) :: pieces', last', rest', .lexeme hgap hlex' hsplits, fun p => ?_,
      fun p => ?_, hrest⟩
    · simp only [rowTokens, Position.after_append, hg'.after_eq, htokens]
    · simp only [piecesText, Position.after_append] at hstop ⊢
      rw [hg'.after_eq, hstop]

theorem Splits.ended (h : Splits cs pieces last rest) : Ended rest := by
  induction h with
  | last _ hend => exact hend
  | lexeme _ _ _ ih => exact ih

theorem CarriageReturns.scanTokens_eq (h : CarriageReturns cs cs') (p : Position) :
    scanTokens p cs' = scanTokens p cs := by
  obtain ⟨pieces, last, rest, hsplits⟩ := exists_splits cs
  obtain ⟨pieces', last', rest', hsplits', htokens, hstop, hrest⟩ := hsplits.carriageReturns h
  rw [scanTokens_of_splits hsplits, scanTokens_of_splits hsplits']
  cases hrest with
  | nil => exact congrArg Except.ok (htokens p)
  | keep => rw [splitResult, splitResult, hstop]
  | @insert cs₁ =>
    have hblank : StartsGap ('\n' :: cs₁) := .inl rfl
    exact absurd hblank hsplits.ended.1

end

/-! ### lines -/

namespace CarriageReturns

variable {cs cs' : List Char}

/-- the lines behind a line feed are changed in the same way -/
theorem tail? (h : CarriageReturns cs cs') :
    Option.Rel CarriageReturns (Line.tail? cs) (Line.tail? cs') := by
  induction h with
  | nil => exact .none
  | @keep c cs cs' h ih =>
    rw [Line.tail?, Line.tail?]
    split
    · exact .some h
    · exact ih
  | insert h => exact .some h

theorem skip? (h : CarriageReturns cs cs') (n : Nat) :
    Option.Rel CarriageReturns (Line.skip? n cs) (Line.skip? n cs') := by
  induction n generalizing cs cs' with
  | zero => exact .some h
  | succ n ih =>
    rw [Line.skip?_succ, Line.skip?_succ]
    have htail := h.tail?
    generalize Line.tail? cs = found at htail
    generalize Line.tail? cs' = found' at htail
    cases htail with
    | none => exact .none
    | some h => exact ih h

/-- a line gets a carriage return at its end, or stays what it is -/
theorem head (h : CarriageReturns cs cs') :
    Line.head cs' = Line.head cs ∨ Line.head cs' = Line.head cs ++ ['\r'] := by
  induction h with
  | nil => exact .inl rfl
  | @keep c cs cs' h ih =>
    by_cases hc : c = '\n'
    · subst hc
      exact .inl rfl
    · have hcons (cs : List Char) : Line.head (c :: cs) = c :: Line.head cs :=
        List.takeWhile_cons_of_pos (by simpa using hc)
      rw [hcons, hcons, List.cons_append]
      exact ih.imp (congrArg _) (congrArg _)
  | insert => exact .inr rfl

theorem trim_head (h : CarriageReturns cs cs') :
    Line.trim (Line.head cs') = Line.trim (Line.head cs) := by
  obtain heq | heq := h.head
  · rw [heq]
  · rw [heq, Line.trim_snoc]

end CarriageReturns

namespace SourceFile

variable {file file' : SourceFile}

theorem line_carriageReturns (h : CarriageReturns file.text.toList file'.text.toList) (n : Nat) :
    file'.line n = file.line n := by
  cases n with
  | zero => rfl
  | succ n =>
    rw [line_succ, line_succ]
    have hskip := h.skip? n
    generalize Line.skip? n file.text.toList = found at hskip
    generalize Line.skip? n file'.text.toList = found' at hskip
    cases hskip with
    | none => rfl
    | some h => rw [Option.map_some, Option.map_some, h.trim_head]

theorem diagnose_carriageReturns (hname : file'.name = file.name)
    (h : CarriageReturns file.text.toList file'.text.toList) :
    file'.diagnose = file.diagnose := by
  funext fault
  rw [diagnose, diagnose, hname, line_carriageReturns h]

/-- **Line ends do not matter.**  With carriage returns in front of some of its line feeds, a text
has the same tokens at the same places, and the same program and module, or the same diagnostic. -/
theorem compile_carriageReturns (hname : file'.name = file.name)
    (h : CarriageReturns file.text.toList file'.text.toList) :
    file'.tokens = file.tokens ∧
    file'.tokens.mapError file'.diagnose = file.tokens.mapError file.diagnose ∧
    file'.parse = file.parse ∧
    ∀ options, file'.compile options = file.compile options := by
  have htokens : file'.tokens = file.tokens := h.scanTokens_eq .origin
  have hdiagnose := diagnose_carriageReturns hname h
  have hparse : file'.parse = file.parse := by
    unfold parse
    rw [htokens, hdiagnose]
  refine ⟨htokens, by rw [htokens, hdiagnose], hparse, fun options => ?_⟩
  rw [compile_eq, compile_eq, hparse]

/-- a function that is reported on its third line, behind a comment and an empty line -/
def feedFile : SourceFile :=
  ⟨"lines", "function f(): Int \x7b // one\n\n  return x;\n\x7d\n"⟩

/-- the same, with carriage returns in the comment, on the empty line and at the end -/
def returnFile : SourceFile :=
  ⟨"lines", "function f(): Int \x7b // one\r\n\r\n  return x;\r\n\x7d\n"⟩

theorem compile_carriageReturns_example : ∃ d, returnFile.parse = .error d ∧
    feedFile.parse = .error d ∧ d.code = 300 ∧ d.span.first = ⟨3, 10⟩ ∧
    d.sourceLine = "  return x;" := by
  have hreturns : CarriageReturns feedFile.text.toList returnFile.text.toList := by
    decide +kernel
  have hcheck : (match feedFile.parse with
      | .ok _ => false
      | .error d => decide (d.code = 300 ∧ d.span.first = ⟨3, 10⟩ ∧
          d.sourceLine = "  return x;")) = true := by decide +kernel
  have hname : returnFile.name = feedFile.name := rfl
  obtain ⟨-, -, hparse, -⟩ := compile_carriageReturns hname hreturns
  split at hcheck
  · cases hcheck
  · next d hd => exact ⟨d, hparse.trans hd, hd, of_decide_eq_true hcheck⟩

end SourceFile

end Wattle
