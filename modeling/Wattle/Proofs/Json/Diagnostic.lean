import Wattle.Json.Diagnostic
import Wattle.Proofs.Json.RoundTrip

/-!
# Diagnostics are read back

The document of a diagnostic determines it, whatever texts it holds, and whatever numbers there are
of the sizes that are read: nothing is lost in the document (`Diagnostic.ofJson?_toJson`), nor in
its text (`Diagnostic.roundTrip`).
-/

namespace Wattle

theorem Category.text_inj {c c' : Category} : c.text = c'.text ↔ c = c' := by
  cases c <;> cases c' <;> decide

@[simp] theorem Category.ofText?_text (c : Category) : ofText? c.text = some c := by
  cases c <;> decide

theorem Json.word?_nat {bits m n : Nat} : (nat n).word? bits = some m ↔ n = m ∧ m < 2 ^ bits := by
  rw [word?, nat?_nat, Option.filter_eq_some_iff, Option.some_inj, decide_eq_true_iff]

/-- the lines and columns of a span are numbers of so many bits -/
structure Span.Fits (bits : Nat) (s : Span) : Prop where
  line : s.first.line < 2 ^ bits
  column : s.first.column < 2 ^ bits
  endLine : s.last.line < 2 ^ bits
  endColumn : s.last.column < 2 ^ bits

namespace Diagnostic

variable (d : Diagnostic)

@[simp] theorem wellFormed_toJson : d.toJson.WellFormed := by
  simp [toJson]

/-- the category is read by itself, so that it need not be that of the code -/
theorem ofJson?_toJson : ofJson? d.toJson = some d ↔ d.code < 2 ^ 16 ∧ d.span.Fits 32 := by
  have hread : ofJson? d.toJson = (do
      let code ← (Json.nat d.code).word? 16
      let line ← (Json.nat d.span.first.line).word? 32
      let column ← (Json.nat d.span.first.column).word? 32
      let endLine ← (Json.nat d.span.last.line).word? 32
      let endColumn ← (Json.nat d.span.last.column).word? 32
      pure ⟨d.file, code, d.category, d.message, ⟨⟨line, column⟩, ⟨endLine, endColumn⟩⟩,
        d.sourceLine⟩) := by
    simp [toJson, ofJson?, Json.record, Json.value?, Json.values, Json.text, Json.text?]
  simp only [hread, Option.bind_eq_bind, Option.bind_eq_some_iff, Json.word?_nat, Option.pure_def,
    Option.some_inj]
  constructor
  · rintro ⟨_, ⟨rfl, hcode⟩, _, ⟨rfl, hline⟩, _, ⟨rfl, hcolumn⟩, _, ⟨rfl, hendLine⟩, _,
      ⟨rfl, hendColumn⟩, -⟩
    exact ⟨hcode, hline, hcolumn, hendLine, hendColumn⟩
  · rintro ⟨hcode, hspan⟩
    exact ⟨_, ⟨rfl, hcode⟩, _, ⟨rfl, hspan.line⟩, _, ⟨rfl, hspan.column⟩, _, ⟨rfl, hspan.endLine⟩,
      _, ⟨rfl, hspan.endColumn⟩, rfl⟩

theorem read?_write : read? d.toJson.write = some d ↔ d.code < 2 ^ 16 ∧ d.span.Fits 32 := by
  rw [read?, Json.read?_write d.wellFormed_toJson]
  exact d.ofJson?_toJson

/-- **A diagnostic survives its text.**  If its code is a number of 16 bits and its lines and
columns are numbers of 32 bits, and only then, it is read back from the text of its document.  The
category there is that of the code and no other, and no character of the text is a control
character. -/
theorem roundTrip (file : String) (code : Nat) (message : String) (span : Span)
    (sourceLine : String) :
    (read? (new file code message span sourceLine).toJson.write =
        some (new file code message span sourceLine) ↔ code < 2 ^ 16 ∧ span.Fits 32) ∧
      (∀ c : Category,
        (Json.member? "category" (new file code message span sourceLine).toJson.write).bind
          Json.text? = some c.text ↔ c = .ofCode code) ∧
      ∀ c ∈ (new file code message span sourceLine).toJson.write.toList, 0x20 ≤ c.toNat := by
  have hformed := (new file code message span sourceLine).wellFormed_toJson
  refine ⟨read?_write _, fun c => ?_, Json.printable_write hformed⟩
  have hcategory :
      (Json.member? "category" (new file code message span sourceLine).toJson.write).bind
        Json.text? = some (Category.ofCode code).text := by
    rw [Json.member?_write hformed rfl]
    rfl
  rw [hcategory, Option.some_inj]
  exact Category.text_inj.trans eq_comm

end Diagnostic

end Wattle
