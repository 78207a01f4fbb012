import Wattle.Proofs.Parser.Failures

/-!
# Diagnostics of rejected texts

Where the diagnostic of a text stands and what it is about.  A token starts behind a part of the
text, so that the line it starts in is there to be shown.

* `SourceFile.placed_of_parse`    a diagnostic stands at a character that starts no token, or it
                                  runs from the start of a token to the end of that one or of a
                                  later one, and it shows the line where it starts;
* `SourceFile.faulty_of_parse`    a diagnostic about types, names or redeclarations tells of a fault
                                  that the program has.
-/

namespace Wattle

/-! ### lines -/

namespace Line

variable (cs : List Char)

theorem exists_head : ∃ behind, cs = head cs ++ behind ∧ '\n' ∉ head cs ∧
    ∀ c ∈ behind.head?, c = '\n' := by
  refine ⟨cs.dropWhile (· ≠ '\n'), List.takeWhile_append_dropWhile.symm, ?_, ?_⟩
  · intro hmem
    simpa using List.all_eq_true.1 List.all_takeWhile _ hmem
  · intro c hc
    have hstop := List.head?_dropWhile_not (· ≠ '\n') cs
    rw [hc] at hstop
    simpa using hstop

theorem exists_init : ∃ init, cs = init ++ last cs ∧ cs.count '\n' = init.count '\n' ∧
    ∀ c ∈ init.getLast?, c = '\n' := by
  obtain h | ⟨a, b, rfl, hb⟩ := exists_last cs
  · rw [last_of_line h]
    exact ⟨[], rfl, List.count_eq_zero.2 h, nofun⟩
  · rw [last_line_feed a hb]
    refine ⟨a ++ ['\n'], by simp, by simp [List.count_eq_zero.2 hb], by simp⟩

end Line

/-- a line of a file with its number, up to the line feed and without carriage returns at the end -/
inductive SourceFile.HasLine (file : SourceFile) (n : Nat) (line : String) : Prop
  | intro {before text behind returns} (htext : file.text.toList = before ++ (text ++ behind))
      (hn : n = 1 + before.count '\n') (hbefore : ∀ c ∈ before.getLast?, c = '\n')
      (hfeed : '\n' ∉ text) (hbehind : ∀ c ∈ behind.head?, c = '\n')
      (htrim : text = line.toList ++ List.replicate returns '\r')
      (hline : line.toList.getLast? ≠ some '\r')

/-- the line of a place behind a part of the text -/
theorem SourceFile.hasLine_behind {file : SourceFile} {before behind : List Char}
    (htext : file.text.toList = before ++ behind) :
    ∃ line, file.line (Position.behind before).line = some line ∧
      file.HasLine (Position.behind before).line line := by
  obtain ⟨init, hinit, hcount, hfeed⟩ := Line.exists_init before
  obtain ⟨rest, hrest, hhead, hbehind⟩ := Line.exists_head (Line.last before ++ behind)
  obtain ⟨returns, htrim, hline⟩ := Line.exists_trim (Line.head (Line.last before ++ behind))
  refine ⟨String.ofList (Line.trim (Line.head (Line.last before ++ behind))), ?_, ?_⟩
  · rw [Position.behind, Nat.add_comm, line_succ, htext, Line.skip?_count]
    rfl
  · have hrow : file.text.toList = init ++ (Line.head (Line.last before ++ behind) ++ rest) := by
      rw [htext, ← hrest, ← List.append_assoc, ← hinit]
    rw [← String.toList_ofList (l := Line.trim _)] at htrim hline
    exact .intro hrow (congrArg (1 + ·) hcount) hfeed hhead hbehind htrim hline

/-! ### places -/

/-- a token starts behind a part of the text -/
theorem rowTokens_first {p : Position} {last : List Char}
    {pieces : List (List Char × TokenKind)} {t : Token} (ht : t ∈ rowTokens p last pieces) :
    ∃ before behind, piecesText pieces ++ last = before ++ behind ∧
      t.span.first = p.after before := by
  induction pieces generalizing p with
  | nil =>
    rw [List.mem_singleton.1 ht]
    exact ⟨last, [], by simp [piecesText], rfl⟩
  | cons piece pieces ih =>
    obtain ⟨g, kind⟩ := piece
    obtain rfl | ht := List.mem_cons.1 ht
    · exact ⟨g, kind.text.toList ++ (piecesText pieces ++ last), by simp [piecesText], rfl⟩
    · obtain ⟨before, behind, htext, hfirst⟩ := ih ht
      refine ⟨g ++ kind.text.toList ++ before, behind, ?_, ?_⟩
      · simp [piecesText, htext]
      · rw [hfirst, ← Position.after_append]

theorem SourceFile.exists_first {file : SourceFile} {tokens : List Token}
    (h : file.tokens = .ok tokens) {t : Token} (ht : t ∈ tokens) :
    ∃ before behind, file.text.toList = before ++ behind ∧ t.span.first = .behind before := by
  obtain ⟨pieces, last, hsplits, rfl⟩ := splits_of_tokens h
  obtain ⟨before, behind, htext, hfirst⟩ := rowTokens_first ht
  refine ⟨before, behind, ?_, hfirst.trans (Position.origin_after before)⟩
  rw [← htext, ← hsplits.text_eq, List.append_nil]

/-- a fault at a row of tokens is at the first one and at the last one of them -/
theorem Fault.Placed.indices {fault : Fault} {tokens : List Token} (h : fault.Placed tokens) :
    ∃ (i j : Nat) (t u : Token), i ≤ j ∧ tokens[i]? = some t ∧ tokens[j]? = some u ∧
      fault.span = ⟨t.span.first, u.span.last⟩ := by
  obtain ⟨ts, ⟨before, behind, rfl⟩, t, u, ht, hu, hspan⟩ := h
  have hne : 0 < ts.length := List.length_pos_of_mem (List.mem_of_mem_head? ht)
  refine ⟨before.length, before.length + (ts.length - 1), t, u, Nat.le_add_right .., ?_, ?_, hspan⟩
  · rw [List.append_assoc, List.getElem?_append_right (Nat.le_refl _), Nat.sub_self,
      List.getElem?_append_left hne, ← List.head?_eq_getElem?, ht]
  · rw [List.append_assoc, List.getElem?_append_right (Nat.le_add_right ..),
      Nat.add_sub_cancel_left, List.getElem?_append_left (by omega), ← List.getLast?_eq_getElem?,
      hu]

/-! ### rejected texts -/

/-- the fault of a character behind the tokens of a text -/
def Splits.fault (pieces : List (List Char × TokenKind)) (last : List Char) (c : Char) : Fault :=
  ⟨.unexpectedCharacter c, .point (.behind (piecesText pieces ++ last))⟩

/-- a text is rejected for a character, or for a fault of its tokens -/
theorem SourceFile.error_of_parse {file : SourceFile} {d : Diagnostic}
    (h : file.parse = .error d) :
    (∃ pieces last c rest, Splits file.text.toList pieces last (c :: rest) ∧
        d = file.diagnose (Splits.fault pieces last c)) ∨
      ∃ tokens fault, file.tokens = .ok tokens ∧ d = file.diagnose fault ∧
        (fault.Syntactic tokens ∨ Program.Faulty tokens fault) := by
  unfold parse at h
  split at h
  · next fault hfault =>
    obtain ⟨pieces, last, rest, hsplits⟩ := exists_splits file.text.toList
    rw [tokens, scanTokens_of_splits hsplits] at hfault
    cases rest with
    | nil => cases hfault
    | cons c rest =>
      obtain rfl := Except.error.inj hfault
      refine .inl ⟨pieces, last, c, rest, hsplits, ?_⟩
      rw [Splits.fault, ← Position.origin_after]
      exact (Except.error.inj h).symm
  · next tokens htokens =>
    split at h
    · next fault hfault =>
      exact .inr ⟨tokens, fault, htokens, (Except.error.inj h).symm,
        Program.fault_of_ofTokens (lexed_of_tokens htokens) hfault⟩
    · cases h

/-- a place that is behind a part of the text has a line to show -/
theorem SourceFile.diagnose_line {file : SourceFile} {fault : Fault} {before behind : List Char}
    (htext : file.text.toList = before ++ behind) (hfirst : fault.span.first = .behind before) :
    (1 ≤ fault.span.first.line ∧ fault.span.first.line ≤ 1 + file.text.toList.count '\n') ∧
      file.line fault.span.first.line = some (file.diagnose fault).sourceLine ∧
      file.HasLine fault.span.first.line (file.diagnose fault).sourceLine := by
  obtain ⟨line, hline, hhas⟩ := file.hasLine_behind htext
  have hsource : (file.diagnose fault).sourceLine = line := by
    rw [diagnose, hfirst, hline]
    rfl
  rw [hsource, hfirst, htext, List.count_append]
  refine ⟨⟨Nat.le_add_right .., ?_⟩, hline, hhas⟩
  show 1 + before.count '\n' ≤ _
  omega

/-- **Diagnostics are placed in the text.**  The line where a diagnostic starts is one of the text,
and is shown with it.  A diagnostic of the scanner stands at a character that starts no token, and
any other one runs from the start of a token to the end of that one or of a later one. -/
theorem SourceFile.placed_of_parse {file : SourceFile} {d : Diagnostic}
    (h : file.parse = .error d) :
    d.file = file.name ∧
      (1 ≤ d.span.first.line ∧ d.span.first.line ≤ 1 + file.text.toList.count '\n') ∧
      file.line d.span.first.line = some d.sourceLine ∧
      file.HasLine d.span.first.line d.sourceLine ∧
      (d.category = .lexical → ∃ pieces last c rest,
        Splits file.text.toList pieces last (c :: rest) ∧
        d.message = (Cause.unexpectedCharacter c).message ∧
        d.span = .point (.behind (piecesText pieces ++ last))) ∧
      (d.category ≠ .lexical → ∃ tokens, file.tokens = .ok tokens ∧ ∃ (i j : Nat) (t u : Token),
        i ≤ j ∧ tokens[i]? = some t ∧ tokens[j]? = some u ∧
        d.span = ⟨t.span.first, u.span.last⟩) := by
  obtain ⟨pieces, last, c, rest, hsplits, rfl⟩ | ⟨tokens, fault, htokens, rfl, hfault⟩ :=
    error_of_parse h
  · obtain ⟨hline, hshown, hhas⟩ :=
      @diagnose_line file (Splits.fault pieces last c) _ _ hsplits.text_eq.symm rfl
    exact ⟨rfl, hline, hshown, hhas, fun _ => ⟨pieces, last, c, rest, hsplits, rfl, rfl⟩,
      fun hne => absurd rfl hne⟩
  · have hplaced : fault.Placed tokens := hfault.elim (·.placed) (·.placed)
    have hcategory : fault.category ≠ .lexical := by
      intro hlexical
      obtain hf | hf := hfault
      · simpa [hlexical] using hf.category
      · simpa [hlexical] using hf.category
    obtain ⟨i, j, t, u, hij, ht, hu, hspan⟩ := hplaced.indices
    obtain ⟨before, behind, htext, hfirst⟩ := exists_first htokens (List.mem_of_getElem? ht)
    have hfirst' : fault.span.first = .behind before := by rw [hspan, hfirst]
    obtain ⟨hline, hshown, hhas⟩ := file.diagnose_line htext hfirst'
    exact ⟨rfl, hline, hshown, hhas, fun hlexical => absurd hlexical hcategory,
      fun _ => ⟨tokens, htokens, i, j, t, u, hij, ht, hu, hspan⟩⟩

namespace SourceFile

/-- a condition of three tokens that is a `Double`, on a line that ends with a carriage return -/
def halfFile : SourceFile := ⟨"half",
  "// \u00e9\r\nfunction f(a: Int): Int \x7b\r\n  if (a * 0.5) \x7b \x7d\r\n"⟩

theorem halfFile_placed : ∃ d, halfFile.parse = .error d ∧ d.span = ⟨⟨3, 7⟩, ⟨3, 13⟩⟩ ∧
    halfFile.HasLine 3 "  if (a * 0.5) \x7b \x7d" ∧ ∃ tokens, halfFile.tokens = .ok tokens ∧
      ∃ (i j : Nat) (t u : Token), i ≤ j ∧ tokens[i]? = some t ∧ tokens[j]? = some u ∧
        d.span = ⟨t.span.first, u.span.last⟩ := by
  have hcheck : (match halfFile.parse with | .ok _ => none | .error d => some d) =
      some (.new "half" 204 "if condition must be Int, found Double" ⟨⟨3, 7⟩, ⟨3, 13⟩⟩
        "  if (a * 0.5) \x7b \x7d") := by decide +kernel
  cases hparse : halfFile.parse with
  | ok p =>
    rw [hparse] at hcheck
    cases hcheck
  | error d =>
    rw [hparse] at hcheck
    obtain rfl := Option.some.inj hcheck
    obtain ⟨-, -, -, hline, -, hplace⟩ := placed_of_parse hparse
    exact ⟨_, rfl, rfl, hline, hplace (by decide)⟩

end SourceFile

/-- **Diagnostics tell of faults that are there.**  A diagnostic of a type error, of a name or of a
redeclaration tells of a fault that the program has in this place. -/
theorem SourceFile.faulty_of_parse {file : SourceFile} {d : Diagnostic}
    (h : file.parse = .error d) (hd : d.category ∈ [.typing, .reference, .redeclaration]) :
    ∃ tokens fault, file.tokens = .ok tokens ∧ d = file.diagnose fault ∧
      Program.Faulty tokens fault := by
  obtain ⟨pieces, last, c, rest, -, rfl⟩ | ⟨tokens, fault, htokens, rfl, hf | hf⟩ :=
    error_of_parse h
  · have hcategory : (file.diagnose (Splits.fault pieces last c)).category = .lexical := rfl
    simp [hcategory] at hd
  · have hcategory : (file.diagnose fault).category = .syntactic := hf.category
    simp [hcategory] at hd
  · exact ⟨tokens, fault, htokens, rfl, hf⟩

namespace SourceFile

/-- the later one of two functions of a name is called, in the alternate of a branch that declares
a variable -/
def shadowedFile : SourceFile := ⟨"shadowed",
  "function f(x: Int): Int \x7b return x; \x7d
function f(x: Double): Int \x7b return 0; \x7d
function g(a: Int): Int \x7b
  if (a) \x7b let b = 0.5; \x7d else \x7b return f(b) + f(a); \x7d
  return 0;
\x7d"⟩

theorem shadowedFile_faulty : ∃ d tokens fault, shadowedFile.parse = .error d ∧
    d.message = "argument 0 of 'f' must be Double, found Int" ∧ d.span = .point ⟨4, 50⟩ ∧
    shadowedFile.tokens = .ok tokens ∧ d = shadowedFile.diagnose fault ∧
    Program.Faulty tokens fault := by
  have hcheck : (match shadowedFile.parse with | .ok _ => none | .error d => some d) =
      some (.new "shadowed" 203 "argument 0 of 'f' must be Double, found Int" (.point ⟨4, 50⟩)
        "  if (a) \x7b let b = 0.5; \x7d else \x7b return f(b) + f(a); \x7d") := by
    decide +kernel
  cases hparse : shadowedFile.parse with
  | ok p =>
    rw [hparse] at hcheck
    cases hcheck
  | error d =>
    rw [hparse] at hcheck
    obtain rfl := Option.some.inj hcheck
    obtain ⟨tokens, fault, htokens, hd, hf⟩ := faulty_of_parse hparse (by decide)
    exact ⟨_, tokens, fault, rfl, rfl, rfl, htokens, hd, hf⟩

end SourceFile

end Wattle
