import Wattle.Proofs.Joining
import Wattle.Proofs.Lowering.Basic

/-!
# Variables of functions

Where the variables of a function come from and where its code uses them.  `Stmt.uses` lists the
uses in a tree, each with the type that the tree gives it, and the code of the tree has just these
accesses, in the same order (`Stmt.accesses_bodyCode`).  In an accepted program every use is one of
a variable that is declared, by a parameter or at some depth of the body, and no name is declared
twice (`SourceFile.variables_of_parse`).

* `StmtsTyped.uses_bound`         the uses in typed statements are bound behind them;
* `Declares.nodup`                slots that declare an environment have names that differ;
* `Reads.finds`                   the names that are declared stand in the tokens in order;
* `FunctionDecl.variables_perm`   a variable is a parameter, or declared on the first level or in a
                                  branch.
-/

namespace Wattle

/-! ### accesses in code -/

inductive Access where
  | get (name : String)
  | set (name : String)
deriving DecidableEq

def Access.name : Access → String
  | get name | set name => name

namespace Instr

mutual

/-- the accesses of an instruction, at any depth and in the order of the code -/
def accesses : Instr → List Access
  | localGet name => [.get name]
  | localSet name => [.set name]
  | conditional consequent alternate => codeAccesses consequent ++ alternateAccesses alternate
  | _ => []

def codeAccesses : List Instr → List Access
  | [] => []
  | i :: is => i.accesses ++ codeAccesses is

def alternateAccesses : Option (List Instr) → List Access
  | none => []
  | some is => codeAccesses is

end

section
variable (is is' : List Instr) (options : EmitOptions)

@[simp] theorem codeAccesses_append :
    codeAccesses (is ++ is') = codeAccesses is ++ codeAccesses is' := by
  induction is with
  | nil => rfl
  | cons i is ih => rw [List.cons_append, codeAccesses, codeAccesses, ih, List.append_assoc]

@[simp] theorem codeAccesses_const (value : Double) (type : DataType) :
    codeAccesses [const value type] = [] := by cases type <;> rfl

@[simp] theorem codeAccesses_zero (type : DataType) :
    codeAccesses (zero type :: is) = codeAccesses is := by cases type <;> rfl

@[simp] theorem codeAccesses_conversion (wanted found : DataType) :
    codeAccesses (options.conversion wanted found) = [] := by
  unfold EmitOptions.conversion
  split <;> rfl

@[simp] theorem codeAccesses_disposal (keep : Bool) (e : Expr) :
    codeAccesses (options.disposal keep e) = [] := by
  unfold EmitOptions.disposal
  split <;> rfl

end

end Instr

/-! ### uses in trees -/

/-- an access with the type that the tree gives it -/
structure Use where
  access : Access
  type : DataType
deriving DecidableEq

namespace Use

def slot (u : Use) : Slot := ⟨u.access.name, u.type⟩

/-- the value of a declaration is stored in its variable -/
def ofBinding (b : Binding) : Use := ⟨.set b.name.name, b.type⟩

end Use

namespace Expr

mutual

/-- the uses of variables, in the order of evaluation -/
def uses : Expr → List Use
  | number _ _ _ => []
  | var name type _ => [⟨.get name, type⟩]
  | neg operand _ _ => operand.uses
  | binary _ left right _ _ => left.uses ++ right.uses
  | assign target value type _ => value.uses ++ [⟨.set target.name, type⟩]
  | call _ args _ _ => argsUses args

def argsUses : List Expr → List Use
  | [] => []
  | e :: es => e.uses ++ argsUses es

end

theorem argsUses_eq_flatMap (es : List Expr) : argsUses es = es.flatMap uses := by
  induction es with
  | nil => rfl
  | cons e es ih => rw [argsUses, ih, List.flatMap_cons]

mutual

theorem accesses_code (options : EmitOptions) :
    (e : Expr) → Instr.codeAccesses (e.code options) = e.uses.map Use.access
  | number value type _ => Instr.codeAccesses_const value type
  | var _ _ _ => rfl
  | neg operand type _ => by
    rw [code, Instr.codeAccesses_zero, Instr.codeAccesses_append, accesses_code options operand]
    exact List.append_nil _
  | binary op left right type _ => by
    simp only [code, Instr.codeAccesses_append, Instr.codeAccesses_conversion, List.append_nil,
      accesses_code options left, accesses_code options right, uses, List.map_append]
    rw [show Instr.codeAccesses [.binary op (op.operandType left type)] = [] from rfl,
      List.append_nil]
  | assign target value type _ => by
    rw [code, Instr.codeAccesses_append, accesses_code options value, uses, List.map_append]
    rfl
  | call callee args _ _ => by
    rw [code, Instr.codeAccesses_append, accesses_argsCode options args]
    exact List.append_nil _

theorem accesses_argsCode (options : EmitOptions) :
    (es : List Expr) → Instr.codeAccesses (argsCode options es) = (argsUses es).map Use.access
  | [] => rfl
  | e :: es => by
    rw [argsCode, Instr.codeAccesses_append, accesses_code options e, accesses_argsCode options es,
      argsUses, List.map_append]

end

end Expr

namespace Stmt

mutual

def uses : Stmt → List Use
  | declaration _ name type e _ _ => e.uses ++ [.ofBinding ⟨name, type⟩]
  | ret e _ => e.uses
  | conditional e consequent alternate _ =>
    e.uses ++ (branchUses consequent ++ alternateUses alternate)
  | expression e _ => e.uses

def branchUses : List Stmt → List Use
  | [] => []
  | s :: ss => s.uses ++ branchUses ss

def alternateUses : Option (List Stmt) → List Use
  | none => []
  | some ss => branchUses ss

end

theorem alternateUses_eq (alternate : Option (List Stmt)) :
    alternateUses alternate = branchUses (alternate.getD []) := by
  cases alternate <;> rfl

section
variable (options : EmitOptions)

mutual

theorem accesses_code (keep : Bool) :
    (s : Stmt) → Instr.codeAccesses (s.code options keep) = s.uses.map Use.access
  | declaration _ name type e _ _ => by
    rw [code, Instr.codeAccesses_append, e.accesses_code, uses, List.map_append]
    rfl
  | ret e _ => e.accesses_code options
  | conditional e consequent alternate _ => by
    rw [code, Instr.codeAccesses_append, e.accesses_code, uses, List.map_append, List.map_append,
      ← accesses_branchCode consequent, ← accesses_alternateCode alternate]
    exact congrArg _ (List.append_nil _)
  | expression e _ => by
    rw [code, Instr.codeAccesses_append, e.accesses_code, Instr.codeAccesses_disposal,
      List.append_nil, uses]

theorem accesses_branchCode : (ss : List Stmt) →
    Instr.codeAccesses (branchCode options ss) = (branchUses ss).map Use.access
  | [] => rfl
  | s :: ss => by
    rw [branchCode, Instr.codeAccesses_append, accesses_code false s, accesses_branchCode ss,
      branchUses, List.map_append]

theorem accesses_alternateCode : (alternate : Option (List Stmt)) →
    Instr.alternateAccesses (alternateCode options alternate) =
      (alternateUses alternate).map Use.access
  | none => rfl
  | some ss => accesses_branchCode ss

end

/-- the code of a body has the accesses of its uses, in order -/
theorem accesses_bodyCode (ss : List Stmt) :
    Instr.codeAccesses (bodyCode options ss) = (branchUses ss).map Use.access := by
  induction ss with
  | nil => rfl
  | cons s ss ih =>
    cases ss with
    | nil =>
      rw [bodyCode, accesses_code, branchUses, branchUses, List.append_nil]
    | cons s' ss =>
      rw [bodyCode, Instr.codeAccesses_append, accesses_code, ih, ← List.map_append]
      · rfl
      · simp

end

/-! ### declared variables are used -/

mutual

/-- the value of a declaration is stored, so that the variable has a use -/
theorem ofBinding_mem_uses {b : Binding} :
    (s : Stmt) → b ∈ s.declarations → Use.ofBinding b ∈ s.uses
  | declaration _ name type e _ _, hb => by
    obtain rfl : b = ⟨name, type⟩ := List.mem_singleton.1 hb
    exact List.mem_append_right _ (List.mem_singleton.2 rfl)
  | ret _ _, hb => absurd hb List.not_mem_nil
  | conditional e consequent alternate _, hb => by
    rw [declarations, List.mem_append] at hb
    rw [uses, List.mem_append, List.mem_append]
    obtain hb | hb := hb
    · exact .inr (.inl (ofBinding_mem_branchUses consequent hb))
    · exact .inr (.inr (ofBinding_mem_alternateUses alternate hb))
  | expression _ _, hb => absurd hb List.not_mem_nil

theorem ofBinding_mem_branchUses {b : Binding} :
    (ss : List Stmt) → b ∈ branchDeclarations ss → Use.ofBinding b ∈ branchUses ss
  | [], hb => absurd hb List.not_mem_nil
  | s :: ss, hb => by
    rw [branchDeclarations, List.mem_append] at hb
    rw [branchUses, List.mem_append]
    obtain hb | hb := hb
    · exact .inl (ofBinding_mem_uses s hb)
    · exact .inr (ofBinding_mem_branchUses ss hb)

theorem ofBinding_mem_alternateUses {b : Binding} : (alternate : Option (List Stmt)) →
    b ∈ alternateDeclarations alternate → Use.ofBinding b ∈ alternateUses alternate
  | none, hb => absurd hb List.not_mem_nil
  | some ss, hb => ofBinding_mem_branchUses ss hb

end

/-- the statements in the branches of a statement -/
def inner (s : Stmt) : List Stmt := s.nested.tail

theorem nested_eq_cons (s : Stmt) : s.nested = s :: s.inner := by cases s <;> rfl

/-- statements at any depth stand on the first level or in a branch -/
theorem branchNested_perm (ss : List Stmt) : (branchNested ss).Perm (ss ++ ss.flatMap inner) := by
  induction ss with
  | nil => exact .nil
  | cons s ss ih =>
    rw [branchNested, nested_eq_cons, List.cons_append, List.cons_append, List.flatMap_cons]
    exact ((ih.append_left s.inner).trans (List.perm_append_comm_assoc _ _ _)).cons s

end Stmt

/-! ### uses are bound -/

section
variable {Δ : Signatures} {Γ Γ' : Env} {e : Expr} {ss : List Stmt}

def Env.Binds (Γ : Env) (us : List Use) : Prop := ∀ u ∈ us, Γ u.access.name = some u.type

namespace Env.Binds

variable {us us' : List Use}

theorem append (h : Γ.Binds us) (h' : Γ.Binds us') : Γ.Binds (us ++ us') := by
  intro u hu
  obtain hu | hu := List.mem_append.1 hu
  · exact h u hu
  · exact h' u hu

theorem le (h : Γ.Binds us) (hle : Γ.Le Γ') : Γ'.Binds us := fun u hu => hle (h u hu)

theorem singleton {u : Use} (h : Γ u.access.name = some u.type) : Γ.Binds [u] := by
  intro v hv
  rwa [List.mem_singleton.1 hv]

end Env.Binds

theorem Expr.Typed.uses_bound (h : e.Typed Δ Γ) : Γ.Binds e.uses := by
  induction h with
  | number => exact fun u hu => absurd hu List.not_mem_nil
  | var h => exact .singleton h
  | neg _ ih => exact ih
  | arithmetic _ _ _ ihl ihr => exact ihl.append ihr
  | comparison _ _ _ _ ihl ihr => exact ihl.append ihr
  | assign ht _ _ ih => exact ih.append (.singleton ht)
  | call _ _ _ ih =>
    intro u hu
    rw [Expr.uses, Expr.argsUses_eq_flatMap, List.mem_flatMap] at hu
    obtain ⟨a, ha, hu⟩ := hu
    exact ih a ha u hu

/-- every variable that statements use is bound behind them, with the type it is used with -/
theorem StmtsTyped.uses_bound (h : StmtsTyped Δ Γ ss Γ') : Γ'.Binds (Stmt.branchUses ss) := by
  induction h with
  | nil => exact fun u hu => absurd hu List.not_mem_nil
  | @declaration Γ Γ' _ name type _ _ _ _ hnew hi _ hs ih =>
    have hbound : (Γ.bind name.name type) name.name = some type := if_pos rfl
    have hinit := hi.uses_bound.le (Env.le_bind type hnew)
    have hname : (Γ.bind name.name type).Binds [.ofBinding ⟨name, type⟩] := .singleton hbound
    exact ((hinit.append hname).le hs.le).append ih
  | ret he hs ih => exact (he.uses_bound.le hs.le).append ih
  | expression he hs ih => exact (he.uses_bound.le hs.le).append ih
  | conditional hc _ h₁ h₂ hs ih₁ ih₂ ih =>
    rw [Stmt.branchUses, Stmt.uses, Stmt.alternateUses_eq]
    have hhead := hc.uses_bound.le (h₁.le.trans h₂.le)
    have hbranches := (ih₁.le h₂.le).append ih₂
    exact ((hhead.append hbranches).le hs.le).append ih

end

namespace Declares

variable {slots : List Slot} {Γ : Env}

theorem nodup (h : Declares slots Γ) : (slots.map Slot.name).Nodup := by
  rw [List.nodup_iff_count]
  intro x
  rw [List.count, List.countP_map, List.countP_eq_length_filter]
  show (slots.filter (·.name == x)).length ≤ 1
  rw [h x]
  cases Γ x <;> simp

/-- the one slot of a variable that is bound -/
theorem filter_eq {u : Use} (h : Declares slots Γ) (hu : Γ u.access.name = some u.type) :
    slots.filter (·.name == u.access.name) = [u.slot] := by
  rw [h, hu]
  rfl

end Declares

/-! ### names in the text -/

/-- the token of a declared name -/
def Binding.token (b : Binding) : Token := ⟨.identifier b.name.name, b.name.span⟩

/-- the tokens of declared names stand in a row, in order, and `rest'` behind the last one -/
def Finds (rest : List Token) (bs : List Binding) (rest' : List Token) : Prop :=
  (bs.map Binding.token ++ rest').Sublist rest

namespace Finds

variable {a b c : List Token} {bs bs' : List Binding}

theorem of_suffix (h : b <:+ a) : Finds a [] b := h.sublist

theorem trans (h : Finds a bs b) (h' : Finds b bs' c) : Finds a (bs ++ bs') c := by
  rw [Finds, List.map_append, List.append_assoc]
  exact (List.Sublist.append_left h' _).trans h

theorem behind (h : Finds a bs b) (h' : c <:+ b) : Finds a bs c := by
  have hall := h.trans (of_suffix h')
  rwa [List.append_nil] at hall

theorem front (h : Finds b bs c) (h' : b <:+ a) : Finds a bs c := (of_suffix h').trans h

end Finds

/-- the variables of a function, parameters first, in the order of the text -/
def FunctionDecl.variables (f : FunctionDecl) : List Binding :=
  f.params ++ f.nested.filterMap Stmt.binding?

theorem FunctionDecl.variables_eq (f : FunctionDecl) :
    f.variables = f.params ++ Stmt.branchDeclarations f.body := by
  rw [FunctionDecl.variables, nested, Stmt.branchDeclarations_eq_filterMap,
    Stmt.branchNested_eq_flatMap]

/-- what a part of a program declares -/
def Nonterminal.declared : (n : Nonterminal) → n.Value → List Binding
  | expr _, _ => []
  | param, b => [b]
  | row n, as | items n, as => List.flatMap n.declared as
  | statement, s | conditional, s => Stmt.declarations s
  | statements, ss => Stmt.branchDeclarations ss
  | block, b | alternate, b => Stmt.branchDeclarations b.1
  | function, f => FunctionDecl.variables f
  | functions, fs => List.flatMap FunctionDecl.variables fs

namespace Parser.State

variable {s s' : State}

theorem finds_of_current {b : Binding} (h : s.current = b.token) (hr : s.rest ≠ []) :
    Finds s.rest [b] s.advance.rest := by
  obtain ⟨t, rest, e⟩ := List.exists_cons_of_ne_nil hr
  have ht : t = b.token := by simpa [current, e] using h
  rw [advance_rest, e, ht]
  exact List.Sublist.refl _

theorem suffix_of_writtenType {written : Option DataType} (h : writtenType s = .done written s') :
    s'.rest <:+ s.rest := by
  obtain ⟨-, -, rfl⟩ | ⟨-, _, -, -, rfl⟩ := writtenType_done.1 h
  · exact List.suffix_refl _
  · exact (advance_suffix _).trans (advance_suffix s)

end Parser.State

section
variable {limits : Limits} {n : Nonterminal} {s s' : Parser.State} {a : n.Value}

open Wattle.Parser State

/-- behind the condition of a conditional -/
theorem Reads.suffix_of_condition {nesting : Nesting}
    (h : Reads limits n (s.enter nesting).advance.advance a s') : s'.advance.rest <:+ s.rest := by
  have hopen : (s.enter nesting).advance.advance.rest <:+ (s.enter nesting).rest :=
    (advance_suffix _).trans (advance_suffix _)
  rw [enter_rest] at hopen
  exact ((advance_suffix s').trans h.rest_suffix).trans hopen

/-- what a part of a program declares stands in its tokens, in order -/
theorem Reads.finds (h : Reads limits n s a s') (hr : s'.rest ≠ []) :
    Finds s.rest (n.declared a) s'.rest := by
  have hs := h.rest_suffix
  induction h with
  | number | var | call | group | neg | unsigned | operand | binary | unassigned | assign
  | expression | ret | expressionStmt => exact .of_suffix hs
  | noItems | noStatements | noFunctions => exact .of_suffix hs
  | single h ih =>
    show Finds _ [_].flatten _
    rw [List.flatten_singleton]
    exact ih hr hs
  | cons h hc hr' ih ihs =>
    have hs₁ := rest_of_sees hc (by simp)
    exact (ih hs₁ h.rest_suffix).trans ((ihs hr hr'.rest_suffix).front (advance_suffix _))
  | someItems h ih => exact ih hr h.rest_suffix
  | @declaration s kind written init type s₁ s₂ name hk hname hnew hnote ha hi ht hsemi ih =>
    have hs₁ : s₁.rest <:+ s.advance.advance.rest := suffix_of_writtenType hnote
    have hs₂ : s₂.rest <:+ s.advance.advance.rest :=
      (hi.rest_suffix.trans (advance_suffix s₁)).trans hs₁
    have hne : s.advance.rest ≠ [] := by
      intro e
      rw [advance_rest s.advance, e, List.tail_nil, List.suffix_nil] at hs₂
      exact rest_of_sees hsemi (by simp) hs₂
    have hfound := finds_of_current (b := ⟨name, type⟩) hname hne
    exact (hfound.behind ((advance_suffix s₂).trans hs₂)).front (advance_suffix s)
  | branching h ih => exact ih hr h.rest_suffix
  | moreStatements h hr' ih ihs =>
    have hs₁ := hr'.rest_ne_nil hr
    exact (ih hs₁ h.rest_suffix).trans (ihs hr hr'.rest_suffix)
  | block ho h hc ih =>
    have hs₁ := rest_of_sees hc (by simp)
    exact ((ih hs₁ h.rest_suffix).front (advance_suffix _)).behind (advance_suffix _)
  | @conditional s condition s₁ ss stop s' hd hk ho h hc ht hb ih ihb =>
    rw [leave_rest] at hr ⊢
    have hbranch := (ihb hr hb.rest_suffix).front h.suffix_of_condition
    show Finds _ (_ ++ []) _
    rwa [List.append_nil]
  | @conditionalElse s condition s₁ ss stop s₂ ss' stop' s' hd hk ho h hc ht hb he ha ih ihb iha =>
    rw [leave_rest] at hr ⊢
    have hs₂ := rest_of_sees he (by simp)
    have hbranch := (ihb hs₂ hb.rest_suffix).front h.suffix_of_condition
    exact hbranch.trans ((iha hr ha.rest_suffix).front (advance_suffix s₂))
  | elseBlock h ih => exact ih hr h.rest_suffix
  | @elseIf s s' a h ih =>
    show Finds _ (_ ++ []) _
    rw [List.append_nil]
    exact ih hr h.rest_suffix
  | @param s b hname hc ht =>
    have hne : s.rest ≠ [] := rest_of_advance (rest_of_sees hc (by simp))
    have hfound := finds_of_current hname hne
    exact hfound.behind ((advance_suffix _).trans (advance_suffix _))
  | @function s s₁ params result scope body stop s' name hk hname ho hp hc hm ht hscope hb f hf ih
      ihb =>
    have hs₁ := rest_of_sees hc (by simp)
    have hhead : s.advance.advance.advance.rest <:+ s.rest :=
      ((advance_suffix _).trans (advance_suffix _)).trans (advance_suffix s)
    have hmark : s₁.advance.advance.advance.rest <:+ s₁.rest :=
      ((advance_suffix _).trans (advance_suffix _)).trans (advance_suffix s₁)
    have hparams := (ih hs₁ hp.rest_suffix).front hhead
    have hrow : Nonterminal.declared (.items .param) params = params := by
      show List.flatMap (fun b => [b]) params = params
      simp
    rw [hrow] at hparams
    subst hf
    show Finds _ (FunctionDecl.variables _) _
    rw [FunctionDecl.variables_eq]
    exact hparams.trans ((ihb hr hb.rest_suffix).front hmark)
  | moreFunctions h hr' ih ihs =>
    exact (ih (hr'.rest_ne_nil hr) h.rest_suffix).trans (ihs hr hr'.rest_suffix)

/-- the variables that stand on the first level of the body -/
theorem Reads.locals_eq {fs : List FunctionDecl} {f : FunctionDecl}
    (h : Reads limits .functions s fs s') (hf : f ∈ fs) :
    f.locals = f.body.filterMap Stmt.binding? := by
  induction fs generalizing s with
  | nil => exact absurd hf List.not_mem_nil
  | cons g fs ih =>
    cases h with
    | moreFunctions hg hs =>
      obtain rfl | hf := List.mem_cons.1 hf
      · cases hg with
        | function _ _ _ _ _ _ _ _ _ e => rw [e]
      · exact ih hs hf

end

/-! ### functions -/

section
variable {f : FunctionDecl} {Δ : Signatures} (options : EmitOptions)

/-- the uses of variables in a function, in the order of its code -/
def FunctionDecl.uses (f : FunctionDecl) : List Use := Stmt.branchUses f.body

theorem FunctionDecl.accesses_lower :
    Instr.codeAccesses (f.lower options).body = f.uses.map Use.access :=
  Stmt.accesses_bodyCode options f.body

/-- with the nested variables hoisted, the function declares all of its variables -/
theorem FunctionDecl.slots_hoisted (h : options.hoistNestedLocals = true) :
    (f.lower options).params ++ (f.lower options).locals = f.variables.map Binding.slot := by
  rw [variables_eq, List.map_append]
  show _ ++ f.slots options = _
  rw [slots, h]
  rfl

/-- without that, it declares those outside of branches -/
theorem FunctionDecl.slots_plain (h : options.hoistNestedLocals = false)
    (hlocals : f.locals = f.body.filterMap Stmt.binding?) :
    (f.lower options).params ++ (f.lower options).locals =
      (f.params ++ f.body.filterMap Stmt.binding?).map Binding.slot := by
  rw [List.map_append, ← hlocals]
  show _ ++ f.slots options = _
  rw [slots, h]
  rfl

theorem FunctionDecl.Typed.declares (h : f.Typed Δ) :
    ∃ Γ, Declares (f.variables.map Binding.slot) Γ ∧ Γ.Binds f.uses := by
  obtain ⟨hparams, Γ, hbody⟩ := h
  rw [variables_eq, List.map_append]
  exact ⟨Γ, hbody.declares (.ofParams hparams), hbody.uses_bound⟩

/-- the names of the variables differ -/
theorem FunctionDecl.Typed.nodup_variables (h : f.Typed Δ) :
    (f.variables.map (·.name.name)).Nodup := by
  obtain ⟨Γ, hdeclares, -⟩ := h.declares
  have hnames := hdeclares.nodup
  rwa [List.map_map] at hnames

/-- a use is a use of just one of the variables, which has the type that the tree gives the use -/
theorem FunctionDecl.Typed.slot_of_use (h : f.Typed Δ) {u : Use} (hu : u ∈ f.uses) :
    (f.variables.map Binding.slot).filter (·.name == u.access.name) = [u.slot] := by
  obtain ⟨Γ, hdeclares, hbinds⟩ := h.declares
  exact hdeclares.filter_eq (hbinds u hu)

/-- the variables that are declared in branches -/
def FunctionDecl.branchVariables (f : FunctionDecl) : List Binding :=
  (f.body.flatMap Stmt.inner).filterMap Stmt.binding?

theorem FunctionDecl.variables_perm (f : FunctionDecl) :
    f.variables.Perm (f.params ++ f.body.filterMap Stmt.binding? ++ f.branchVariables) := by
  rw [variables_eq, Stmt.branchDeclarations_eq_filterMap, List.append_assoc, branchVariables,
    ← List.filterMap_append]
  exact ((Stmt.branchNested_perm f.body).filterMap Stmt.binding?).append_left f.params

/-- a name that is used, but not declared outside of branches, is one that is declared in a
branch -/
theorem FunctionDecl.Typed.undeclared_iff (h : f.Typed Δ) (x : String) :
    (x ∈ f.uses.map (·.access.name) ∧
        x ∉ (f.params ++ f.body.filterMap Stmt.binding?).map (·.name.name)) ↔
      x ∈ f.branchVariables.map (·.name.name) := by
  constructor
  · rintro ⟨hused, houtside⟩
    obtain ⟨u, hu, rfl⟩ := List.mem_map.1 hused
    have hslot : u.slot ∈ (f.variables.map Binding.slot).filter (·.name == u.access.name) := by
      rw [h.slot_of_use hu]
      exact List.mem_singleton.2 rfl
    obtain ⟨b, hb, e⟩ := List.mem_map.1 (List.mem_filter.1 hslot).1
    have hname : b.name.name = u.access.name := congrArg Slot.name e
    rw [← hname] at houtside ⊢
    obtain hb | hb := List.mem_append.1 (f.variables_perm.mem_iff.1 hb)
    · exact absurd (List.mem_map_of_mem hb) houtside
    · exact List.mem_map_of_mem hb
  · intro hx
    have hnodup := ((f.variables_perm.map (·.name.name)).nodup_iff).1 h.nodup_variables
    rw [List.map_append, List.nodup_append] at hnodup
    refine ⟨?_, fun houtside => hnodup.2.2 x houtside x hx rfl⟩
    obtain ⟨b, hb, rfl⟩ := List.mem_map.1 hx
    have hdeclared : b ∈ Stmt.branchDeclarations f.body := by
      rw [Stmt.branchDeclarations_eq_filterMap]
      exact ((Stmt.branchNested_perm f.body).filterMap Stmt.binding?).mem_iff.2
        (by rw [List.filterMap_append]; exact List.mem_append_right _ hb)
    exact List.mem_map.2 ⟨_, Stmt.ofBinding_mem_branchUses f.body hdeclared, rfl⟩

end

/-- **Variables are declared once, and declared for every use.**  The names of the variables of a
function differ and stand in the text in the order in which they are declared.  The code uses
variables where the tree does.  With the nested variables hoisted, each use is one of just one
declared variable, which has the type that the tree gives the use; without that, the names that are
used but not declared are those that are declared in branches. -/
theorem SourceFile.variables_of_parse {file : SourceFile} {p : Program} (h : file.parse = .ok p)
    {f : FunctionDecl} (hf : f ∈ p.functions) :
    (f.variables.map (·.name.name)).Nodup ∧
    (∃ tokens, file.tokens = .ok tokens ∧ (f.variables.map Binding.token).Sublist tokens) ∧
    f.locals = f.body.filterMap Stmt.binding? ∧
    ∀ options,
      Instr.codeAccesses (f.lower options).body = f.uses.map Use.access ∧
      (options.hoistNestedLocals = true →
        (f.lower options).params ++ (f.lower options).locals = f.variables.map Binding.slot ∧
        ∀ u ∈ f.uses, ((f.lower options).params ++ (f.lower options).locals).filter
          (·.name == u.access.name) = [⟨u.access.name, u.type⟩]) ∧
      (options.hoistNestedLocals = false → ∀ x,
        (x ∈ (Instr.codeAccesses (f.lower options).body).map Access.name ∧
            x ∉ ((f.lower options).params ++ (f.lower options).locals).map Slot.name) ↔
          x ∈ f.branchVariables.map (·.name.name)) := by
  obtain ⟨tokens, htokens, hp⟩ := SourceFile.ofTokens_of_parse h
  obtain ⟨s, hread, hend⟩ := Program.reads_of_ofTokens hp
  obtain ⟨earlier, later, hsplit⟩ := List.append_of_mem hf
  have htyped := SourceFile.typed_of_parse h earlier f later hsplit
  have hlocals := hread.locals_eq hf
  have hsublist : (f.variables.map Binding.token).Sublist tokens := by
    obtain ⟨ts, stop, rfl, hstop, hts⟩ := tokens_eq_snoc htokens
    have hrest : s.rest = [stop] := hread.rest_eq_stop hend rfl hstop hts
    have hfinds := hread.finds (by simp [hrest])
    have hall : f.variables.Sublist (p.functions.flatMap FunctionDecl.variables) := by
      rw [hsplit, List.flatMap_append, List.flatMap_cons]
      exact (List.sublist_append_left _ _).trans (List.sublist_append_right _ _)
    exact ((hall.map _).trans (List.sublist_append_left _ _)).trans hfinds
  refine ⟨htyped.nodup_variables, ⟨tokens, htokens, hsublist⟩, hlocals, fun options => ?_⟩
  refine ⟨f.accesses_lower options, fun hoist => ?_, fun hoist x => ?_⟩
  · rw [f.slots_hoisted options hoist]
    exact ⟨rfl, fun u hu => htyped.slot_of_use hu⟩
  · rw [f.accesses_lower options, f.slots_plain options hoist hlocals, List.map_map, List.map_map]
    exact htyped.undeclared_iff x

/-- of the two variables of the second function, one is declared in a branch -/
theorem SourceFile.variables_example : ∃ p f, exampleFile.parse = .ok p ∧ f ∈ p.functions ∧
    (f.lower .strict).params ++ (f.lower .strict).locals = [⟨"a", .int⟩, ⟨"b", .double⟩] ∧
    (∀ u ∈ f.uses, [Slot.mk "a" .int, ⟨"b", .double⟩].filter (·.name == u.access.name) =
      [⟨u.access.name, u.type⟩]) ∧
    ∀ x, (x ∈ (Instr.codeAccesses (f.lower .plain).body).map Access.name ∧
        x ∉ ((f.lower .plain).params ++ (f.lower .plain).locals).map Slot.name) ↔ x = "b" := by
  have hcheck : (exampleFile.parse.toOption.bind fun p => p.functions.getLast?.map fun f =>
      (f.variables.map Binding.slot, f.branchVariables.map (·.name.name))) =
        some ([⟨"a", .int⟩, ⟨"b", .double⟩], ["b"]) := by decide +kernel
  cases hp : exampleFile.parse with
  | error d =>
    rw [hp] at hcheck
    cases hcheck
  | ok p =>
    rw [hp, Except.toOption, Option.bind_some] at hcheck
    obtain ⟨f, hf, hcheck⟩ := Option.map_eq_some_iff.1 hcheck
    obtain ⟨hslots, hbranch⟩ := Prod.mk.inj hcheck
    have hf : f ∈ p.functions := List.mem_of_getLast? hf
    obtain ⟨-, -, -, hoptions⟩ := SourceFile.variables_of_parse hp hf
    obtain ⟨hdeclared, huses⟩ := (hoptions .strict).2.1 rfl
    have hundeclared := (hoptions .plain).2.2 rfl
    rw [hdeclared, hslots] at huses
    simp only [hbranch, List.mem_singleton] at hundeclared
    exact ⟨p, f, rfl, hf, hdeclared.trans hslots, huses, hundeclared⟩

end Wattle
