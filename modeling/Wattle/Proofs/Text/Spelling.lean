import Wattle.Module
import Wattle.Proofs.Number.Layout
import Wattle.Proofs.Text.SExpr

/-!
# Module texts are S-expressions

The expression that a module is written as, and that its text spells it (`Module.spells_text`), if
all names are words and all literals are numbers.  An instruction is written as a word or two, or
as a list with the code of its branches, so that code is spelled by a row of lines, each of them for
one instruction and for one expression or two (`SpellLines`).
-/

namespace Wattle

open SExpr

/-! ### names -/

theorem isAtomPart_of_isWordPart {c : Char} (h : isWordPart c = true) : isAtomPart c = true := by
  cases hc : isAtomPart c with
  | true => rfl
  | false =>
    simp only [isAtomPart, isBlank, Bool.and_eq_false_iff, bne_eq_false_iff_eq, Bool.not_eq_false',
      Bool.or_eq_true, beq_iff_eq] at hc
    obtain (rfl | rfl) | ((rfl | rfl) | rfl) | rfl := hc <;> cases h

section
variable {name : String} (h : IsWord name.toList)
include h

theorem IsWord.isWordPart : ∀ c ∈ name.toList, isWordPart c = true := by
  obtain ⟨c, w, heq, hc, hw⟩ := h
  rw [heq]
  exact List.forall_mem_cons.2 ⟨isWordPart_of_start hc, hw⟩

theorem IsWord.isAtom_name : IsAtom ("$" ++ name).toList := by
  have hname : ("$" ++ name).toList = '$' :: name.toList := by simp
  rw [hname]
  exact ⟨List.cons_ne_nil _ _, List.forall_mem_cons.2
    ⟨rfl, fun c hc => isAtomPart_of_isWordPart (h.isWordPart c hc)⟩⟩

theorem IsWord.isAtom_quoted : IsAtom ("\"" ++ name ++ "\"").toList := by
  have hname : ("\"" ++ name ++ "\"").toList = '"' :: (name.toList ++ ['"']) := by simp
  rw [hname]
  refine ⟨List.cons_ne_nil _ _, List.forall_mem_cons.2 ⟨rfl, List.forall_mem_append.2 ⟨?_, ?_⟩⟩⟩
  · exact fun c hc => isAtomPart_of_isWordPart (h.isWordPart c hc)
  · exact List.forall_mem_singleton.2 rfl

end

/-! ### words -/

theorem isAtom_type (type : DataType) : IsAtom type.machineText.toList := by
  cases type <;> decide

theorem isAtom_opcode (op : BinaryOp) (type : DataType) : IsAtom (op.opcode type).toList := by
  cases op <;> cases type <;> decide

theorem toList_toString (n : Int) :
    (toString n).toList = (if n < 0 then ['-'] else []) ++ Nat.toDigits 10 n.natAbs := by
  cases n with
  | ofNat m => exact Nat.toList_repr
  | negSucc m =>
    have hrepr : toString (Int.negSucc m) = "-" ++ Nat.repr (m + 1) := rfl
    rw [hrepr, String.toList_append, Nat.toList_repr, if_pos (Int.negSucc_lt_zero m)]
    rfl

theorem isAtomPart_minus (negative : Prop) [Decidable negative] :
    ∀ c ∈ (if negative then ['-'] else []), isAtomPart c = true := by
  split
  · exact List.forall_mem_singleton.2 rfl
  · exact List.forall_mem_nil _

theorem isAtom_int (n : Int) : IsAtom (toString n).toList := by
  rw [toList_toString]
  refine ⟨by simp, List.forall_mem_append.2 ⟨isAtomPart_minus _, fun c hc => ?_⟩⟩
  exact isAtomPart_of_isWordPart (isWordPart_of_digit (isDigit_of_mem_toDigits c hc))

theorem isAtomPart_of_isNumeral {c : Char} (h : Layout.IsNumeral c) : isAtomPart c = true := by
  rcases h with hdigit | hmark
  · exact isAtomPart_of_isWordPart (isWordPart_of_digit hdigit)
  · simp only [List.mem_cons, List.not_mem_nil, or_false] at hmark
    obtain rfl | rfl | rfl | rfl := hmark <;> rfl

/-- a number is one atom, and no number is written as the zero that another one is subtracted
from -/
theorem isAtom_text (layout : Layout) {x : Double} (h : x.isNaN = false) :
    IsAtom (layout.text x).toList ∧ layout.text x ≠ "0" := by
  obtain ⟨cs, htext, hcs⟩ := layout.toList_text h
  have hchars : cs ≠ [] ∧ cs ≠ ['0'] ∧ ∀ c ∈ cs, isAtomPart c = true := by
    rcases hcs with hcs | rfl
    · refine ⟨?_, ?_, fun c hc => isAtomPart_of_isNumeral (hcs.chars c hc)⟩
      · rintro rfl
        simpa using hcs.mark
      · rintro rfl
        simpa using hcs.mark
    · exact ⟨List.cons_ne_nil _ _, by decide, List.all_eq_true.1 rfl⟩
  refine ⟨?_, fun hzero => ?_⟩
  · rw [htext]
    exact ⟨by simp [hchars.1], List.forall_mem_append.2 ⟨isAtomPart_minus _, hchars.2.2⟩⟩
  · have hdigit : "0".toList = ['0'] := rfl
    rw [hzero, hdigit] at htext
    cases hneg : x.negative with
    | true => simp [hneg] at htext
    | false => exact hchars.2.1 (by simpa [hneg] using htext.symm)

/-! ### expressions -/

namespace Instr

mutual

/-- names are words, and literals are numbers -/
def Spellable : Instr → Prop
  | doubleConst x => x.isNaN = false
  | localGet name | localSet name | call name _ => IsWord name.toList
  | conditional consequent alternate => SpellableCode consequent ∧ SpellableAlternate alternate
  | _ => True

def SpellableCode : List Instr → Prop
  | [] => True
  | i :: is => i.Spellable ∧ SpellableCode is

def SpellableAlternate : Option (List Instr) → Prop
  | none => True
  | some is => SpellableCode is

end

mutual

/-- the expressions that an instruction is written with -/
def exprs : Instr → List SExpr
  | intConst n => [.atom "i32.const", .atom (toString n)]
  | doubleConst x => [.atom "f64.const", .atom (constLayout.text x)]
  | doubleZero => [.atom "f64.const", .atom "0"]
  | localGet name => [.atom "local.get", .atom ("$" ++ name)]
  | localSet name => [.atom "local.set", .atom ("$" ++ name)]
  | binary op type => [.atom (op.opcode type)]
  | convert => [.atom "f64.convert_i32_s"]
  | drop => [.atom "drop"]
  | call callee _ => [.atom "call", .atom ("$" ++ callee)]
  | conditional consequent alternate =>
    [.list (.atom "if" :: .list (.atom "then" :: codeExprs consequent) :: elseExprs alternate)]

def codeExprs : List Instr → List SExpr
  | [] => []
  | i :: is => i.exprs ++ codeExprs is

def elseExprs : Option (List Instr) → List SExpr
  | none => []
  | some is => [.list (.atom "else" :: codeExprs is)]

end

end Instr

/-! ### texts -/

namespace SExpr.Spells

/-- a word with a blank, and its operand -/
theorem operand {front s s' : String} (hfront : front = s ++ " ") (h : IsAtom s.toList)
    (h' : IsAtom s'.toList) :
    Spells (front ++ s').toList (itemsParts [.atom s, .atom s']) := by
  subst hfront
  simpa [itemsParts, parts] using (atom h).blank (c := ' ') rfl (atom h')

theorem operand_name {front s name : String} (hfront : front = s ++ " $") (h : IsAtom s.toList)
    (hname : IsWord name.toList) :
    Spells (front ++ name).toList (itemsParts [.atom s, .atom ("$" ++ name)]) := by
  have htext : front ++ name = s ++ " " ++ ("$" ++ name) := by
    have hsplit : " $" = " " ++ "$" := rfl
    rw [hfront, hsplit]
    simp only [String.append_assoc]
  rw [htext]
  exact operand rfl h hname.isAtom_name

end SExpr.Spells

/-- a word and a blank in front of some expressions, in parentheses -/
theorem SExpr.IsAtom.list {s : String} (hs : IsAtom s.toList) {cs : List Char} {es : List SExpr}
    (h : Spells cs (itemsParts es)) :
    Spells ('(' :: (s.toList ++ ' ' :: cs ++ [')'])) (SExpr.list (.atom s :: es)).parts := by
  simpa [itemsParts, parts] using ((Spells.atom hs).blank rfl h).parens

/-- texts that spell some expressions one after the other -/
inductive SpellLines : List String → List SExpr → Prop
  | nil : SpellLines [] []
  | cons {s es lines es'} (h : Spells s.toList (itemsParts es)) (hs : SpellLines lines es') :
      SpellLines (s :: lines) (es ++ es')

namespace SpellLines

variable {lines lines' : List String} {es es' : List SExpr}

theorem single {s : String} (h : Spells s.toList (itemsParts es)) : SpellLines [s] es := by
  simpa using cons h nil

theorem append (h : SpellLines lines es) (h' : SpellLines lines' es') :
    SpellLines (lines ++ lines') (es ++ es') := by
  induction h with
  | nil => exact h'
  | cons h _ ih =>
    rw [List.cons_append, List.append_assoc]
    exact cons h ih

theorem map {α : Type} {as : List α} {f : α → String} {g : α → SExpr}
    (h : ∀ a ∈ as, Spells (f a).toList (g a).parts) : SpellLines (as.map f) (as.map g) := by
  induction as with
  | nil => exact nil
  | cons a as ih =>
    obtain ⟨ha, has⟩ := List.forall_mem_cons.1 h
    rw [← itemsParts_singleton] at ha
    exact cons ha (ih has)

/-- the texts are put together with a blank between any two of them -/
theorem spells (h : SpellLines lines es) {sep : String} {c : Char} (hsep : sep.toList = [c])
    (hc : isBlank c = true) : Spells (sep.intercalate lines).toList (itemsParts es) := by
  rw [String.toList_intercalate, hsep]
  induction h with
  | nil => exact Spells.nil
  | @cons s es lines es' h hs ih =>
    rw [itemsParts_append]
    cases hs with
    | nil => simpa [itemsParts] using h
    | cons => simpa [List.intercalate_cons_cons] using h.blank hc ih

end SpellLines

namespace Instr

theorem spells_branch {word : String} (hword : IsAtom word.toList) {is : List Instr}
    (h : SpellLines (texts is) (codeExprs is)) :
    Spells (branchText word (texts is)).toList
      (SExpr.list (.atom word :: codeExprs is)).parts := by
  cases is with
  | nil =>
    simpa [branchText, texts, codeExprs, itemsParts, SExpr.parts] using (Spells.atom hword).parens
  | cons i is =>
    have hlines : Spells ("\n".intercalate (texts (i :: is))).toList _ := h.spells rfl rfl
    simpa [branchText, texts] using hword.list hlines

mutual

theorem spells_text : (i : Instr) → i.Spellable → Spells i.text.toList (itemsParts i.exprs)
  | intConst n, _ => .operand rfl (by decide) (isAtom_int n)
  | doubleConst x, h => .operand rfl (by decide) (isAtom_text _ h).1
  | doubleZero, _ => by
    have htext : doubleZero.text = "f64.const " ++ "0" := rfl
    rw [htext]
    exact .operand rfl (by decide) (by decide)
  | localGet _, h => .operand_name rfl (by decide) h
  | localSet _, h => .operand_name rfl (by decide) h
  | binary op type, _ => Spells.atom (isAtom_opcode op type)
  | convert, _ => Spells.atom (by decide)
  | drop, _ => Spells.atom (by decide)
  | call _ _, h => .operand_name rfl (by decide) h
  | conditional consequent alternate, h => by
    have hthen : Spells (branchText "then" (texts consequent)).toList _ :=
      spells_branch (by decide) (spells_texts consequent h.1)
    have hbranches : Spells _ (itemsParts (.list (.atom "then" :: codeExprs consequent) ::
        elseExprs alternate)) := spells_else alternate h.2 hthen
    have hif : IsAtom "if".toList := by decide
    have hlist := hif.list hbranches
    rw [exprs, itemsParts_singleton]
    simpa [text] using hlist

theorem spells_texts : (is : List Instr) → SpellableCode is → SpellLines (texts is) (codeExprs is)
  | [], _ => .nil
  | i :: is, h => .cons (spells_text i h.1) (spells_texts is h.2)

/-- what stands behind the first branch of a conditional -/
theorem spells_else {cs : List Char} {ps : List Part} : (alternate : Option (List Instr)) →
    SpellableAlternate alternate → Spells cs ps →
      Spells (cs ++ (elseText alternate).toList) (ps ++ itemsParts (elseExprs alternate))
  | none, _, hthen => by simpa [elseText, elseExprs, itemsParts] using hthen
  | some is, h, hthen => by
    have helse : Spells (branchText "else" (texts is)).toList _ :=
      spells_branch (by decide) (spells_texts is h)
    simpa [elseText, elseExprs, itemsParts] using hthen.blank (c := ' ') rfl helse

end

end Instr

/-! ### texts of functions and modules -/

structure Func.Spellable (f : Func) : Prop where
  name : IsWord f.name.toList
  params : ∀ s ∈ f.params, IsWord s.name.toList
  locals : ∀ s ∈ f.locals, IsWord s.name.toList
  body : Instr.SpellableCode f.body

def Slot.expr (word : String) (s : Slot) : SExpr :=
  .list [.atom word, .atom ("$" ++ s.name), .atom s.type.machineText]

namespace Func

def expr (f : Func) : SExpr :=
  .list (.atom "func" :: .atom ("$" ++ f.name) :: (f.params.map (Slot.expr "param") ++
    .list [.atom "result", .atom f.result.machineText] ::
      (f.locals.map (Slot.expr "local") ++ Instr.codeExprs f.body)))

def exportExpr (f : Func) : SExpr :=
  .list [.atom "export", .atom ("\"" ++ f.name ++ "\""),
    .list [.atom "func", .atom ("$" ++ f.name)]]

end Func

def Module.expr (m : Module) : SExpr :=
  .list (.atom "module" :: (m.funcs.map Func.expr ++ m.funcs.map Func.exportExpr))

/-- two atoms with a blank between them -/
theorem SExpr.Spells.pair {s s' : String} (h : IsAtom s.toList) (h' : IsAtom s'.toList) :
    Spells (s.toList ++ ' ' :: s'.toList) (itemsParts [.atom s, .atom s']) := by
  simpa using Spells.operand rfl h h'

theorem Slot.spells_text {word : String} (hword : IsAtom word.toList) {s : Slot}
    (h : IsWord s.name.toList) : Spells (s.text word).toList (s.expr word).parts := by
  have hlist := hword.list (Spells.pair h.isAtom_name (isAtom_type s.type))
  simpa [text, expr] using hlist

namespace Func

variable {f : Func} (h : f.Spellable)
include h

theorem spells_parts : SpellLines f.parts
    (.atom ("$" ++ f.name) :: (f.params.map (Slot.expr "param") ++
      .list [.atom "result", .atom f.result.machineText] ::
        (f.locals.map (Slot.expr "local") ++ Instr.codeExprs f.body))) := by
  have hname : SpellLines ["$" ++ f.name] [.atom ("$" ++ f.name)] :=
    .single (Spells.atom h.name.isAtom_name)
  have hparams : SpellLines (f.params.map (Slot.text "param")) (f.params.map (Slot.expr "param")) :=
    .map fun s hs => Slot.spells_text (by decide) (h.params s hs)
  have hresult : SpellLines ["(result " ++ f.result.machineText ++ ")"]
      [.list [.atom "result", .atom f.result.machineText]] := by
    have hword : IsAtom "result".toList := by decide
    have htype : Spells f.result.machineText.toList (itemsParts [.atom f.result.machineText]) :=
      Spells.atom (isAtom_type f.result)
    refine .single ?_
    rw [itemsParts_singleton]
    simpa using hword.list htype
  have hlocals : SpellLines (f.locals.map (Slot.text "local")) (f.locals.map (Slot.expr "local")) :=
    .map fun s hs => Slot.spells_text (by decide) (h.locals s hs)
  have hbody : SpellLines (if f.body.isEmpty then [] else ["\n".intercalate (Instr.texts f.body)])
      (Instr.codeExprs f.body) := by
    cases hempty : f.body with
    | nil => exact .nil
    | cons i is =>
      refine .single ?_
      rw [← hempty]
      exact (Instr.spells_texts f.body h.body).spells rfl rfl
  simpa [parts] using
    ((hname.append hparams).append (hresult.append hlocals)).append hbody

theorem spells_text : Spells f.text.toList f.expr.parts := by
  have hfunc : IsAtom "func".toList := by decide
  have hparts : Spells (" ".intercalate f.parts).toList _ := (spells_parts h).spells rfl rfl
  simpa [text, expr] using hfunc.list hparts

theorem spells_exportText : Spells f.exportText.toList f.exportExpr.parts := by
  have hexport : IsAtom "export".toList := by decide
  have hfunc : IsAtom "func".toList := by decide
  have hname : Spells ("$" ++ f.name).toList (itemsParts [.atom ("$" ++ f.name)]) :=
    Spells.atom h.name.isAtom_name
  have hitems : Spells _ (itemsParts [.atom ("\"" ++ f.name ++ "\""),
      .list [.atom "func", .atom ("$" ++ f.name)]]) :=
    (Spells.atom h.name.isAtom_quoted).blank (c := ' ') rfl
      (by rw [itemsParts_singleton]; exact hfunc.list hname)
  simpa [exportText, exportExpr] using hexport.list hitems

end Func

theorem Module.spells_text {m : Module} (h : ∀ f ∈ m.funcs, f.Spellable) :
    Spells m.text.toList m.expr.parts := by
  have hmodule : IsAtom "module".toList := by decide
  cases hempty : m.funcs with
  | nil =>
    have htext : m.text = "(module)" := by simp [text, hempty]
    rw [htext, expr, hempty]
    exact (Spells.atom hmodule).parens
  | cons f fs =>
    have hfuncs : Spells ("\n".intercalate (m.funcs.map Func.text)).toList
        (itemsParts (m.funcs.map Func.expr)) :=
      (SpellLines.map fun f hf => Func.spells_text (h f hf)).spells rfl rfl
    have hexports : Spells ("\n".intercalate (m.funcs.map Func.exportText)).toList
        (itemsParts (m.funcs.map Func.exportExpr)) :=
      (SpellLines.map fun f hf => Func.spells_exportText (h f hf)).spells rfl rfl
    have hlines := ((Spells.atom hmodule).blank (c := '\n') rfl
      (hfuncs.blank (c := '\n') rfl (hexports.blank (c := '\n') rfl Spells.nil))).parens
    have hnonempty : m.funcs.isEmpty = false := by rw [hempty]; rfl
    rw [List.append_nil, ← itemsParts_append] at hlines
    simpa [text, expr, itemsParts, SExpr.parts, hnonempty] using hlines

end Wattle
