import Wattle.Parser.Program
import Wattle.Proofs.Lowering.Basic
import Wattle.Proofs.Parts
import Wattle.Proofs.Text.Form
import Wattle.Proofs.Text.Spelling

/-!
# Module texts are read back

What the expression of a module is read as (`Module.ofSExpr?_expr`), and with it what is read from a
module text.  Code is read instruction by instruction from a row of forms, in front of whatever
follows (`Form.SaysCode`), and branches by induction.  The names and literals of the code of a
program are those of its own, so that `Program.moduleText_read` needs to know nothing but these.
-/

namespace Wattle

/-! ### what is written -/

namespace Instr

mutual

/-- an instruction as it is written, without the number of arguments of a call -/
def written : Instr → Instr
  | call callee _ => call callee 0
  | conditional consequent alternate =>
    conditional (writtenCode consequent) (writtenAlternate alternate)
  | i => i

def writtenCode : List Instr → List Instr
  | [] => []
  | i :: is => i.written :: writtenCode is

def writtenAlternate : Option (List Instr) → Option (List Instr)
  | none => none
  | some is => some (writtenCode is)

end

end Instr

def Func.written (f : Func) : Func := { f with body := Instr.writtenCode f.body }

/-- what the text of a module says: its functions, each of them exported under its own name -/
def Module.listing (m : Module) : Listing :=
  ⟨m.funcs.map Func.written, m.funcs.map fun f => (f.name, f.name)⟩

/-! ### words -/

namespace Word

theorem name?_text (name : String) : name? ("$" ++ name) = some name := by
  simp [name?]

theorem quoted?_text (name : String) : quoted? ("\"" ++ name ++ "\"") = some name := by
  simp [quoted?]

theorem type?_text (type : DataType) : type? type.machineText = some type := by
  cases type <;> rfl

theorem bare?_opcode (op : BinaryOp) (type : DataType) :
    bare? (op.opcode type) = some (.binary op type) := by
  cases op <;> cases type <;> rfl

theorem int?_toString (n : Int) : int? (toString n) = some n := by
  obtain ⟨hok, hvalue⟩ := toDigits_ok n.natAbs
  unfold int?
  rw [toList_toString]
  by_cases hneg : n < 0
  · simp only [if_pos hneg, List.singleton_append, hok, hvalue, Bool.false_eq_true, if_false]
    congr 1
    omega
  · rw [if_neg hneg, List.nil_append]
    split
    · next cs hcs =>
      have hmem : '-' ∈ Nat.toDigits 10 n.natAbs := hcs ▸ List.mem_cons_self
      cases isDigit_of_mem_toDigits '-' hmem
    · rw [hok, hvalue, if_neg Bool.false_ne_true]
      congr 1
      omega

end Word

/-! ### rows of forms -/

namespace Form

theorem ofSExprs?_append {es es' : List SExpr} {fs fs' : List Form} (h : ofSExprs? es = some fs)
    (h' : ofSExprs? es' = some fs') : ofSExprs? (es ++ es') = some (fs ++ fs') := by
  induction es generalizing fs with
  | nil =>
    obtain rfl := Option.some.inj h
    exact h'
  | cons e es ih =>
    rw [ofSExprs?] at h
    split at h
    · next f fs₀ he hes =>
      obtain rfl := Option.some.inj h
      simp only [List.cons_append, ofSExprs?, he, ih hes]
    · cases h

theorem ofSExprs?_cons {e : SExpr} {es : List SExpr} {f : Form} {fs : List Form}
    (he : ofSExpr? e = some f) (hes : ofSExprs? es = some fs) :
    ofSExprs? (e :: es) = some (f :: fs) := by
  simp only [ofSExprs?, he, hes]

theorem ofSExprs?_map {α : Type} {as : List α} {e : α → SExpr} {f : α → Form}
    (h : ∀ a ∈ as, ofSExpr? (e a) = some (f a)) : ofSExprs? (as.map e) = some (as.map f) := by
  induction as with
  | nil => rfl
  | cons a as ih =>
    obtain ⟨ha, has⟩ := List.forall_mem_cons.1 h
    exact ofSExprs?_cons ha (ih has)

theorem ofSExpr?_list {es : List SExpr} {fs : List Form} (h : ofSExprs? es = some fs) :
    ofSExpr? (.list es) = ofList? fs := by
  simp only [ofSExpr?, h]

theorem splitWhile_map {α β : Type} (f : Form → Option β) (g : α → Form) {r : α → β}
    (h : ∀ a, f (g a) = some (r a)) (as : List α) {rest : List Form}
    (hrest : ∀ form ∈ rest.head?, f form = none) :
    splitWhile f (as.map g ++ rest) = (as.map r, rest) := by
  induction as with
  | nil =>
    cases rest with
    | nil => rfl
    | cons form rest => simp [splitWhile, hrest form rfl]
  | cons a as ih => simp [splitWhile, h a, ih]

/-! ### code -/

/-- some expressions are read as code, in front of any more code; no variable is declared by it -/
def SaysCode (es : List SExpr) (is : List Instr) : Prop :=
  ∃ fs, ofSExprs? es = some fs ∧ (∀ f ∈ fs, localVar? f = none) ∧
    ∀ gs, code? none (fs ++ gs) = (code? none gs).map (is ++ ·)

namespace SaysCode

variable {es es' : List SExpr} {is is' : List Instr}

theorem nil : SaysCode [] [] := ⟨[], rfl, nofun, fun gs => by simp⟩

theorem append (h : SaysCode es is) (h' : SaysCode es' is') : SaysCode (es ++ es') (is ++ is') := by
  obtain ⟨fs, hfs, hvars, hcode⟩ := h
  obtain ⟨fs', hfs', hvars', hcode'⟩ := h'
  refine ⟨fs ++ fs', ofSExprs?_append hfs hfs', List.forall_mem_append.2 ⟨hvars, hvars'⟩, ?_⟩
  intro gs
  rw [List.append_assoc, hcode, hcode', Option.map_map]
  congr 1
  funext js
  exact (List.append_assoc ..).symm

theorem bare {s : String} {i : Instr} (h : Word.bare? s = some i) : SaysCode [.atom s] [i] :=
  ⟨[word s], rfl, by simp [localVar?], fun gs => by simp [code?, h]⟩

theorem operand {s s' : String} {i : Instr} (hs : Word.bare? s = none)
    (h : Word.withOperand? s s' = some i) : SaysCode [.atom s, .atom s'] [i] :=
  ⟨[word s, word s'], rfl, by simp [localVar?], fun gs => by simp [code?, hs, h]⟩

theorem instr {e : SExpr} {i : Instr} (h : ofSExpr? e = some (.instr i)) : SaysCode [e] [i] :=
  ⟨[.instr i], ofSExprs?_cons h rfl, by simp [localVar?], fun gs => by simp [code?]⟩

theorem code? (h : SaysCode es is) :
    ∃ fs, ofSExprs? es = some fs ∧ (∀ f ∈ fs, localVar? f = none) ∧
      Form.code? none fs = some is := by
  obtain ⟨fs, hfs, hvars, hcode⟩ := h
  refine ⟨fs, hfs, hvars, ?_⟩
  simpa [Form.code?] using hcode []

end SaysCode

end Form

open Form

namespace Instr

mutual

theorem says_exprs : (i : Instr) → i.Spellable → SaysCode i.exprs [i.written]
  | intConst n, _ => .operand (by decide) (by
      rw [Word.withOperand?, if_pos rfl, Word.int?_toString]
      rfl)
  | doubleConst x, h => by
    have hne := (isAtom_text constLayout h).2
    have hx := constLayout.ofText?_text h
    exact .operand (by decide) (by simp [Word.withOperand?, hne, hx, written])
  | doubleZero, _ => .operand (by decide) (by simp [Word.withOperand?, written])
  | localGet name, _ =>
    .operand (by decide) (by simp [Word.withOperand?, Word.name?_text, written])
  | localSet name, _ =>
    .operand (by decide) (by simp [Word.withOperand?, Word.name?_text, written])
  | binary op type, _ => .bare (Word.bare?_opcode op type)
  | convert, _ => .bare (by simp [Word.bare?, written])
  | drop, _ => .bare (by simp [Word.bare?, written])
  | call callee _, _ =>
    .operand (by decide) (by simp [Word.withOperand?, Word.name?_text, written])
  | conditional code other, h => by
    obtain ⟨fs, hfs, -, hcode⟩ := (says_codeExprs code h.1).code?
    obtain ⟨gs, hgs, helse⟩ := says_elseExprs other h.2
    have hthen : ofSExpr? (.list (.atom "then" :: codeExprs code)) =
        some (.consequent (writtenCode code)) := by
      rw [ofSExpr?_list (ofSExprs?_cons rfl hfs)]
      simp [ofList?, hcode]
    refine .instr ?_
    rw [ofSExpr?_list (ofSExprs?_cons rfl (ofSExprs?_cons hthen hgs))]
    simp [ofList?, helse, written]

theorem says_codeExprs : (is : List Instr) → SpellableCode is →
    SaysCode (codeExprs is) (writtenCode is)
  | [], _ => .nil
  | i :: is, h => (says_exprs i h.1).append (says_codeExprs is h.2)

/-- what stands behind the first branch of a conditional -/
theorem says_elseExprs : (alternate : Option (List Instr)) → SpellableAlternate alternate →
    ∃ fs, ofSExprs? (elseExprs alternate) = some fs ∧
      ∀ code, conditional? (consequent code :: fs) =
        some (.conditional code (writtenAlternate alternate))
  | none, _ => ⟨[], rfl, fun _ => rfl⟩
  | some is, h => by
    obtain ⟨fs, hfs, -, hcode⟩ := (says_codeExprs is h).code?
    have helse : ofSExpr? (.list (.atom "else" :: codeExprs is)) =
        some (.alternate (writtenCode is)) := by
      rw [ofSExpr?_list (ofSExprs?_cons rfl hfs)]
      simp [ofList?, hcode]
    exact ⟨[.alternate (writtenCode is)], ofSExprs?_cons helse rfl, fun _ => rfl⟩

end

end Instr

/-! ### functions and modules -/

theorem Slot.ofSExpr?_param (s : Slot) : ofSExpr? (s.expr "param") = some (.param s) := by
  simp [expr, ofSExpr?, ofSExprs?, ofList?, slot?, Word.name?_text, Word.type?_text]

theorem Slot.ofSExpr?_local (s : Slot) : ofSExpr? (s.expr "local") = some (.localVar s) := by
  simp [expr, ofSExpr?, ofSExprs?, ofList?, slot?, Word.name?_text, Word.type?_text]

namespace Func

variable (f : Func)

theorem ofSExpr?_expr (h : f.Spellable) : ofSExpr? f.expr = some (.func f.written) := by
  obtain ⟨fs, hfs, hvars, hcode⟩ := (Instr.says_codeExprs f.body h.body).code?
  have hresult : ofSExpr? (.list [.atom "result", .atom f.result.machineText]) =
      some (.result f.result) := by
    simp [ofSExpr?, ofSExprs?, ofList?, result?, Word.type?_text]
  have hparts := ofSExprs?_append (ofSExprs?_map fun s (_ : s ∈ f.params) => s.ofSExpr?_param)
    (ofSExprs?_cons hresult
      (ofSExprs?_append (ofSExprs?_map fun s (_ : s ∈ f.locals) => s.ofSExpr?_local) hfs))
  have hparams : ∀ gs, splitWhile param? (f.params.map .param ++ .result f.result :: gs) =
      (f.params.map id, .result f.result :: gs) :=
    fun gs => splitWhile_map param? .param (fun _ => rfl) f.params (by simp [param?])
  have hlocals : splitWhile localVar? (f.locals.map .localVar ++ fs) = (f.locals.map id, fs) :=
    splitWhile_map localVar? .localVar (fun _ => rfl) f.locals
      fun form hform => hvars form (List.mem_of_mem_head? hform)
  have hfunc : ofParts? f.name (f.params.map .param ++ .result f.result ::
      (f.locals.map .localVar ++ fs)) = some f.written := by
    simp [ofParts?, hparams, hlocals, hcode, written]
  rw [expr, ofSExpr?_list (ofSExprs?_cons rfl (ofSExprs?_cons rfl hparts))]
  simp [ofList?, funcOrName?, Word.name?_text, hfunc]

theorem ofSExpr?_exportExpr : ofSExpr? f.exportExpr = some (.exported f.name f.name) := by
  simp [exportExpr, ofSExpr?, ofSExprs?, ofList?, funcOrName?, export?, Word.name?_text,
    Word.quoted?_text]

end Func

theorem Module.ofSExpr?_expr {m : Module} (h : ∀ f ∈ m.funcs, f.Spellable) :
    ofSExpr? m.expr = some (.module m.listing) := by
  have hfuncs := ofSExprs?_map fun f hf => Func.ofSExpr?_expr f (h f hf)
  have hexports := ofSExprs?_map fun f (_ : f ∈ m.funcs) => f.ofSExpr?_exportExpr
  let exports : List Form := m.funcs.map fun f => .exported f.name f.name
  have hexported : splitWhile exported? (exports ++ []) =
      (m.funcs.map fun f => (f.name, f.name), []) :=
    splitWhile_map exported? (fun f : Func => .exported f.name f.name) (fun _ => rfl) m.funcs nofun
  have hfunc : splitWhile Form.func? (m.funcs.map (fun f => .func f.written) ++ exports) =
      (m.funcs.map Func.written, exports) := by
    refine splitWhile_map Form.func? (fun f : Func => .func f.written) (fun _ => rfl) m.funcs ?_
    intro form hform
    obtain ⟨f, -, rfl⟩ := List.mem_map.1 (List.mem_of_mem_head? hform)
    rfl
  rw [List.append_nil] at hexported
  rw [expr, ofSExpr?_list (ofSExprs?_cons rfl (ofSExprs?_append hfuncs hexports))]
  simp [ofList?, listing?, hfunc, hexported, listing, exports]

/-! ### lowered programs -/

/-- the name of a node is a word, and a literal is a number -/
def Expr.Spellable : Expr → Prop
  | number value _ _ => value.isNaN = false
  | var name _ _ => IsWord name.toList
  | assign target _ _ _ => IsWord target.name.toList
  | call callee _ _ _ => IsWord callee.name.toList
  | neg _ _ _ | binary _ _ _ _ _ => True

structure Stmt.Spellable (s : Stmt) : Prop where
  binding : ∀ b ∈ s.binding?, IsWord b.name.name.toList
  parts : ∀ e ∈ s.expr.parts, e.Spellable

/-- all names are words, and all literals are numbers -/
structure FunctionDecl.Spellable (f : FunctionDecl) : Prop where
  name : IsWord f.name.name.toList
  params : ∀ b ∈ f.params, IsWord b.name.name.toList
  locals : ∀ b ∈ f.locals, IsWord b.name.name.toList
  nested : ∀ s ∈ f.nested, s.Spellable

def Program.Spellable (p : Program) : Prop := ∀ f ∈ p.functions, f.Spellable

namespace Instr

theorem spellableCode_iff {is : List Instr} : SpellableCode is ↔ ∀ i ∈ is, i.Spellable := by
  induction is with
  | nil => simp [SpellableCode]
  | cons i is ih => rw [SpellableCode, ih, List.forall_mem_cons]

theorem SpellableCode.append {is is' : List Instr} (h : SpellableCode is) (h' : SpellableCode is') :
    SpellableCode (is ++ is') :=
  spellableCode_iff.2 (List.forall_mem_append.2 ⟨spellableCode_iff.1 h, spellableCode_iff.1 h'⟩)

end Instr

open Instr

namespace Expr

variable (options : EmitOptions)

theorem spellable_conversion (wanted found : DataType) :
    SpellableCode (options.conversion wanted found) := by
  unfold EmitOptions.conversion
  split
  · exact ⟨trivial, trivial⟩
  · exact trivial

mutual

theorem spellable_code : (e : Expr) → (∀ e' ∈ e.parts, e'.Spellable) →
    SpellableCode (e.code options)
  | number value type _, h => by
    have hvalue : value.isNaN = false := h _ List.mem_cons_self
    cases type
    · exact ⟨trivial, trivial⟩
    · exact ⟨hvalue, trivial⟩
  | var name _ _, h => ⟨h _ List.mem_cons_self, trivial⟩
  | neg operand type _, h => by
    rw [parts, List.forall_mem_cons] at h
    have hzero : (Instr.zero type).Spellable := by cases type <;> exact trivial
    exact ⟨hzero, (spellable_code operand h.2).append ⟨trivial, trivial⟩⟩
  | binary op left right _ _, h => by
    rw [parts, List.forall_mem_cons, List.forall_mem_append] at h
    exact ((spellable_code left h.2.1).append (spellable_conversion options _ _)).append
      (((spellable_code right h.2.2).append (spellable_conversion options _ _)).append
        ⟨trivial, trivial⟩)
  | assign target value _ _, h => by
    rw [parts, List.forall_mem_cons] at h
    exact (spellable_code value h.2).append ⟨h.1, trivial⟩
  | call callee args _ _, h => by
    rw [parts, List.forall_mem_cons] at h
    exact (spellable_argsCode args h.2).append ⟨h.1, trivial⟩

theorem spellable_argsCode : (es : List Expr) → (∀ e' ∈ argsParts es, e'.Spellable) →
    SpellableCode (argsCode options es)
  | [], _ => trivial
  | e :: es, h => by
    rw [argsParts, List.forall_mem_append] at h
    exact (spellable_code e h.1).append (spellable_argsCode es h.2)

end

end Expr

namespace Stmt

variable (options : EmitOptions)

theorem spellable_disposal (keep : Bool) (e : Expr) : SpellableCode (options.disposal keep e) := by
  unfold EmitOptions.disposal
  split
  · exact ⟨trivial, trivial⟩
  · exact trivial

mutual

theorem spellable_code (keep : Bool) : (s : Stmt) → (∀ s' ∈ s.nested, s'.Spellable) →
    SpellableCode (s.code options keep)
  | declaration kind name type e isConst span, h => by
    obtain ⟨hname, he⟩ := h _ (self_mem_nested _)
    exact (Expr.spellable_code options e he).append ⟨hname _ rfl, trivial⟩
  | ret e span, h => Expr.spellable_code options e (h _ (self_mem_nested _)).parts
  | conditional e code other span, h => by
    rw [nested, List.forall_mem_cons, List.forall_mem_append] at h
    exact (Expr.spellable_code options e h.1.parts).append
      ⟨⟨spellable_branchCode code h.2.1, spellable_alternateCode other h.2.2⟩, trivial⟩
  | expression e span, h =>
    (Expr.spellable_code options e (h _ (self_mem_nested _)).parts).append
      (spellable_disposal options keep e)

theorem spellable_branchCode : (ss : List Stmt) → (∀ s' ∈ branchNested ss, s'.Spellable) →
    SpellableCode (branchCode options ss)
  | [], _ => trivial
  | s :: ss, h => by
    rw [branchNested, List.forall_mem_append] at h
    exact (spellable_code false s h.1).append (spellable_branchCode ss h.2)

theorem spellable_alternateCode : (alternate : Option (List Stmt)) →
    (∀ s' ∈ alternateNested alternate, s'.Spellable) →
      SpellableAlternate (alternateCode options alternate)
  | none, _ => trivial
  | some ss, h => spellable_branchCode ss h

end

theorem spellable_bodyCode {ss : List Stmt} (h : ∀ s' ∈ branchNested ss, s'.Spellable) :
    SpellableCode (bodyCode options ss) := by
  fun_induction bodyCode options ss with
  | case1 => exact trivial
  | case2 s => exact spellable_code options true s (by simpa [branchNested] using h)
  | case3 s ss _ ih =>
    rw [branchNested, List.forall_mem_append] at h
    exact (spellable_code options false s h.1).append (ih h.2)

end Stmt

theorem FunctionDecl.spellable_lower (options : EmitOptions) {f : FunctionDecl} (h : f.Spellable) :
    (f.lower options).Spellable := by
  have hnested : ∀ s ∈ Stmt.branchNested f.body, s.Spellable := by
    rw [Stmt.branchNested_eq_flatMap]
    exact h.nested
  have hdeclared : ∀ b ∈ Stmt.branchDeclarations f.body, IsWord b.name.name.toList := by
    intro b hb
    rw [Stmt.branchDeclarations_eq_filterMap] at hb
    obtain ⟨s, hs, hbinding⟩ := List.mem_filterMap.1 hb
    exact (hnested s hs).binding b hbinding
  refine ⟨h.name, List.forall_mem_map.2 h.params, ?_, Stmt.spellable_bodyCode options hnested⟩
  refine List.forall_mem_map.2 fun b hb => ?_
  split at hb
  · exact hdeclared b hb
  · exact h.locals b hb

theorem Program.spellable_lower (options : EmitOptions) {p : Program} (h : p.Spellable) :
    ∀ f ∈ (p.lower options).funcs, f.Spellable :=
  List.forall_mem_map.2 fun f hf => FunctionDecl.spellable_lower options (h f hf)

/-! ### texts with the same listing -/

namespace Instr

mutual

theorem text_written : (i : Instr) → i.written.text = i.text
  | conditional code other => by
    rw [written, text, text, texts_written code, elseText_written other]
  | intConst _ | doubleConst _ | doubleZero | localGet _ | localSet _ | binary _ _ | convert | drop
  | call _ _ => rfl

theorem texts_written : (is : List Instr) → texts (writtenCode is) = texts is
  | [] => rfl
  | i :: is => by rw [writtenCode, texts, texts, text_written i, texts_written is]

theorem elseText_written : (alternate : Option (List Instr)) →
    elseText (writtenAlternate alternate) = elseText alternate
  | none => rfl
  | some is => by rw [writtenAlternate, elseText, elseText, texts_written is]

end

end Instr

theorem Func.text_written (f : Func) : f.written.text = f.text := by
  have hempty : (writtenCode f.body).isEmpty = f.body.isEmpty := by cases f.body <;> rfl
  simp only [text, parts, written, Instr.texts_written, hempty]

theorem Module.text_written (m : Module) : (⟨m.funcs.map Func.written⟩ : Module).text = m.text := by
  have hexport : ∀ f : Func, f.written.exportText = f.exportText := fun _ => rfl
  simp [text, Function.comp_def, Func.text_written, hexport]

/-! ### reading back -/

section
variable {m : Module} (h : ∀ f ∈ m.funcs, f.Spellable)
include h

theorem Module.scan_text : SExpr.scan [] m.text.toList = m.expr.parts := by
  have hspells := Module.spells_text h [] nofun
  rwa [List.append_nil, SExpr.scan, SExpr.flush, List.isEmpty_nil, if_pos rfl, List.append_nil]
    at hspells

theorem Module.ofText?_text : Listing.ofText? m.text = some m.listing := by
  rw [Listing.ofText?, SExpr.ofText?_eq_some_iff.2 (Module.scan_text h), Option.bind_some,
    Module.ofSExpr?_expr h]

theorem Module.text_eq_iff {m' : Module} (h' : ∀ f ∈ m'.funcs, f.Spellable) :
    m.text = m'.text ↔ m.listing = m'.listing := by
  refine ⟨fun htext => ?_, fun hlisting => ?_⟩
  · have hread := Module.ofText?_text h
    rw [htext, Module.ofText?_text h'] at hread
    exact (Option.some.inj hread).symm
  · rw [← Module.text_written, ← Module.text_written m']
    exact congrArg (fun l => Module.text ⟨l.funcs⟩) hlisting

end

/-- what the module text of a program says, in the order of its declarations -/
def Program.listing (options : EmitOptions) (p : Program) : Listing where
  funcs := p.functions.map fun f => {
    name := f.name.name
    params := f.params.map Binding.slot
    result := f.returnType
    locals := f.slots options
    body := Instr.writtenCode (Stmt.bodyCode options f.body) }
  exports := p.functions.map fun f => (f.name.name, f.name.name)

/-- nothing of this is lost or added on the way -/
theorem Program.listing_lower (options : EmitOptions) (p : Program) :
    (p.lower options).listing = p.listing options := by
  simp only [Module.listing, lower, listing, List.map_map]
  rfl

/-- **Module texts are read back.**  If the names of a program are words and its literals are
numbers, its module text is the text of just one S-expression, and what this says are the functions
of the lowered program in order, each with its parameters, result, variables and all of its code,
and one export for each of them.  Two programs have the same text just if these are the same. -/
theorem Program.moduleText_read (options : EmitOptions) {p : Program} (h : p.Spellable) :
    (∃ e, ∀ es, SExpr.scan [] (p.moduleText options).toList = SExpr.itemsParts es ↔ es = [e]) ∧
    Listing.ofText? (p.moduleText options) = some (p.listing options) ∧
    ∀ (options' : EmitOptions) (q : Program), q.Spellable →
      (p.moduleText options = q.moduleText options' ↔ p.listing options = q.listing options') := by
  have hlower := Program.spellable_lower options h
  refine ⟨⟨(p.lower options).expr, fun es => ?_⟩, ?_, fun options' q hq => ?_⟩
  · rw [moduleText, Module.scan_text hlower, ← SExpr.itemsParts_singleton]
    exact ⟨fun heq => (SExpr.itemsParts_injective heq).symm, fun heq => heq ▸ rfl⟩
  · rw [moduleText, Module.ofText?_text hlower, Program.listing_lower]
  · rw [← Program.listing_lower, ← Program.listing_lower]
    exact Module.text_eq_iff hlower (Program.spellable_lower options' hq)

/-! ### an example -/

instance : DecidablePred Expr.Spellable
  | .number value _ _ => inferInstanceAs (Decidable (value.isNaN = false))
  | .var name _ _ => inferInstanceAs (Decidable (IsWord name.toList))
  | .assign target _ _ _ => inferInstanceAs (Decidable (IsWord target.name.toList))
  | .call callee _ _ _ => inferInstanceAs (Decidable (IsWord callee.name.toList))
  | .neg _ _ _ | .binary _ _ _ _ _ => isTrue trivial

instance : DecidablePred Stmt.Spellable := fun s =>
  decidable_of_iff ((∀ b ∈ s.binding?, IsWord b.name.name.toList) ∧
    ∀ e ∈ s.expr.parts, e.Spellable) ⟨fun h => ⟨h.1, h.2⟩, fun h => ⟨h.binding, h.parts⟩⟩

instance : DecidablePred FunctionDecl.Spellable := fun f =>
  decidable_of_iff (IsWord f.name.name.toList ∧ (∀ b ∈ f.params, IsWord b.name.name.toList) ∧
    (∀ b ∈ f.locals, IsWord b.name.name.toList) ∧ ∀ s ∈ f.nested, s.Spellable)
    ⟨fun h => ⟨h.1, h.2.1, h.2.2.1, h.2.2.2⟩, fun h => ⟨h.name, h.params, h.locals, h.nested⟩⟩

instance : DecidablePred Program.Spellable := fun p =>
  inferInstanceAs (Decidable (∀ f ∈ p.functions, _))

/-- a branch that is left out, and branches without code -/
def branchesFile : SourceFile :=
  ⟨"branches", "function f(a: Int): Double \x7b let x: Double = 0.1; if (a < 3) \x7b \x7d " ++
    "if (x < 1.0) \x7b if (a == a) \x7b x = f(-a); \x7d \x7d else \x7b \x7d return x; \x7d"⟩

theorem Program.moduleText_read_example : ∃ p, branchesFile.parse = .ok p ∧ p.Spellable ∧
    (∃ e, ∀ es, SExpr.scan [] (p.moduleText .strict).toList = SExpr.itemsParts es ↔ es = [e]) ∧
    Listing.ofText? (p.moduleText .strict) = some (p.listing .strict) ∧
    ∀ (options' : EmitOptions) (q : Program), q.Spellable →
      (p.moduleText .strict = q.moduleText options' ↔ p.listing .strict = q.listing options') := by
  have hcheck : (match branchesFile.parse with
      | .ok p => decide p.Spellable
      | .error _ => false) = true := by decide +kernel
  split at hcheck
  · next p hp =>
    have h := of_decide_eq_true hcheck
    exact ⟨p, hp, h, moduleText_read .strict h⟩
  · cases hcheck

end Wattle
