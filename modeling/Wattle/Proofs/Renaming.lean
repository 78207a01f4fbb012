import Wattle.Module
import Wattle.Token
import Wattle.Proofs.Lowering.Basic

/-!
# Other names of variables

The variables of a program under other names: each function has its own renaming, and the names of
functions stay.  In a row of tokens the variables are the identifiers that stand in front of no
parenthesis (`renameTokens`), and in a tree they have places of their own (`Program.rename`).

The module of a renamed program is the renamed module (`Program.lower_rename`): its parameters, its
variables and the instructions that read and write them have the other names, and all else is as it
was.
-/

namespace Wattle

/-! ### tokens -/

/-- the kind of a token under another name; in front of a parenthesis the name is that of a
function, and stays -/
def TokenKind.rename (σ : String → String) (kind next : TokenKind) : TokenKind :=
  match kind with
  | .identifier name => if next = .symbol .leftParen then kind else .identifier (σ name)
  | _ => kind

def Token.rename (σ : String → String) (t : Token) (next : TokenKind) : Token :=
  ⟨t.kind.rename σ next, t.span⟩

def nextKind : List Token → TokenKind
  | [] => .endOfFile
  | t :: _ => t.kind

/-- a row of tokens under other names: `σ` is for those in front of the first function, and `ρ` has
one renaming for each function -/
def renameRow (σ : String → String) (ρ : Nat → String → String) : List Token → List Token
  | [] => []
  | t :: ts => t.rename σ (nextKind ts) ::
    if t.kind = .keyword .functionWord then renameRow (ρ 0) (fun i => ρ (i + 1)) ts
    else renameRow σ ρ ts

/-- the tokens of a program, with a renaming of the variables of each function -/
def renameTokens (ρ : Nat → String → String) (tokens : List Token) : List Token :=
  renameRow id ρ tokens

/-- a renaming gives different names to the variables that differ -/
def KeepsApart (σ : String → String) (names : List String) : Prop :=
  ∀ x ∈ names, ∀ y ∈ names, σ x = σ y → x = y

instance (σ : String → String) (names : List String) : Decidable (KeepsApart σ names) :=
  inferInstanceAs (Decidable (∀ x ∈ names, ∀ y ∈ names, σ x = σ y → x = y))

section
variable {σ : String → String} {next kind kind' : TokenKind}

theorem TokenKind.rename_eq_iff (h : ∀ name, kind' ≠ .identifier name) :
    kind.rename σ next = kind' ↔ kind = kind' := by
  cases kind with
  | identifier name =>
    simp only [rename]
    split <;> simp [(h _).symm]
  | _ => rfl

theorem TokenKind.rename_callee {name : String} :
    (TokenKind.identifier name).rename σ (.symbol .leftParen) = .identifier name := by
  simp [rename]

theorem TokenKind.rename_variable {name : String} (h : next ≠ .symbol .leftParen) :
    (TokenKind.identifier name).rename σ next = .identifier (σ name) := by
  simp [rename, h]

end

/-! ### programs -/

def Binding.rename (σ : String → String) (b : Binding) : Binding :=
  ⟨⟨σ b.name.name, b.name.span⟩, b.type⟩

namespace Expr

mutual

def rename (σ : String → String) : Expr → Expr
  | number value type span => number value type span
  | var name type span => var (σ name) type span
  | neg operand type span => neg (operand.rename σ) type span
  | binary op left right type span => binary op (left.rename σ) (right.rename σ) type span
  | assign target value type span =>
    assign ⟨σ target.name, target.span⟩ (value.rename σ) type span
  | call callee args type span => call callee (argsRename σ args) type span

def argsRename (σ : String → String) : List Expr → List Expr
  | [] => []
  | e :: es => e.rename σ :: argsRename σ es

end

section
variable (σ : String → String) (e : Expr)

theorem argsRename_eq_map (es : List Expr) : argsRename σ es = es.map (rename σ) := by
  induction es with
  | nil => rfl
  | cons e es ih => rw [argsRename, ih, List.map_cons]

@[simp] theorem type_rename : (e.rename σ).type = e.type := by cases e <;> rfl
@[simp] theorem span_rename : (e.rename σ).span = e.span := by cases e <;> rfl
@[simp] theorem isAssign_rename : (e.rename σ).isAssign = e.isAssign := by cases e <;> rfl

theorem rename_withSpan (span : Span) :
    (e.withSpan span).rename σ = (e.rename σ).withSpan span := by
  cases e <;> rfl

end

end Expr

namespace Stmt

mutual

def rename (σ : String → String) : Stmt → Stmt
  | declaration kind name type e isConst span =>
    declaration kind ⟨σ name.name, name.span⟩ type (e.rename σ) isConst span
  | ret e span => ret (e.rename σ) span
  | conditional e consequent alternate span =>
    conditional (e.rename σ) (branchRename σ consequent) (alternateRename σ alternate) span
  | expression e span => expression (e.rename σ) span

def branchRename (σ : String → String) : List Stmt → List Stmt
  | [] => []
  | s :: ss => s.rename σ :: branchRename σ ss

def alternateRename (σ : String → String) : Option (List Stmt) → Option (List Stmt)
  | none => none
  | some ss => some (branchRename σ ss)

end

section
variable (σ : String → String)

theorem branchRename_eq_map (ss : List Stmt) : branchRename σ ss = ss.map (rename σ) := by
  induction ss with
  | nil => rfl
  | cons s ss ih => rw [branchRename, ih, List.map_cons]

@[simp] theorem span_rename (s : Stmt) : (s.rename σ).span = s.span := by cases s <;> rfl

theorem binding?_rename (s : Stmt) : (s.rename σ).binding? = s.binding?.map (Binding.rename σ) := by
  cases s <;> rfl

theorem bindings_rename (ss : List Stmt) :
    (ss.map (rename σ)).filterMap binding? = (ss.filterMap binding?).map (Binding.rename σ) := by
  simp only [List.filterMap_map, List.map_filterMap]
  exact congrArg (List.filterMap · ss) (funext (binding?_rename σ))

end

end Stmt

/-- the variables of a function under other names; its own name and those of its calls stay -/
def FunctionDecl.rename (σ : String → String) (f : FunctionDecl) : FunctionDecl where
  name := f.name
  params := f.params.map (Binding.rename σ)
  locals := f.locals.map (Binding.rename σ)
  returnType := f.returnType
  body := f.body.map (Stmt.rename σ)
  span := f.span

@[simp] theorem FunctionDecl.signature_rename (σ : String → String) (f : FunctionDecl) :
    (f.rename σ).signature = f.signature := by
  simp [signature, rename, Binding.rename, Function.comp_def]

/-- each function under its own renaming -/
def Program.rename (ρ : Nat → String → String) (p : Program) : Program :=
  ⟨p.functions.mapIdx fun i f => f.rename (ρ i), p.span⟩

/-! ### modules -/

def Slot.rename (σ : String → String) (s : Slot) : Slot := ⟨σ s.name, s.type⟩

namespace Instr

mutual

def rename (σ : String → String) : Instr → Instr
  | intConst n => intConst n
  | doubleConst x => doubleConst x
  | doubleZero => doubleZero
  | localGet name => localGet (σ name)
  | localSet name => localSet (σ name)
  | binary op type => binary op type
  | convert => convert
  | drop => drop
  | call callee arity => call callee arity
  | conditional consequent alternate =>
    conditional (codeRename σ consequent) (alternateRename σ alternate)

def codeRename (σ : String → String) : List Instr → List Instr
  | [] => []
  | i :: is => i.rename σ :: codeRename σ is

def alternateRename (σ : String → String) : Option (List Instr) → Option (List Instr)
  | none => none
  | some is => some (codeRename σ is)

end

theorem codeRename_eq_map (σ : String → String) (is : List Instr) :
    codeRename σ is = is.map (rename σ) := by
  induction is with
  | nil => rfl
  | cons i is ih => rw [codeRename, ih, List.map_cons]

end Instr

def Func.rename (σ : String → String) (f : Func) : Func where
  name := f.name
  params := f.params.map (Slot.rename σ)
  result := f.result
  locals := f.locals.map (Slot.rename σ)
  body := f.body.map (Instr.rename σ)

def Module.rename (ρ : Nat → String → String) (m : Module) : Module :=
  ⟨m.funcs.mapIdx fun i f => f.rename (ρ i)⟩

/-! ### lowering -/

section
variable (σ : String → String) (options : EmitOptions)

theorem EmitOptions.conversion_rename (wanted found : DataType) :
    (options.conversion wanted found).map (Instr.rename σ) = options.conversion wanted found := by
  unfold conversion
  split <;> rfl

theorem EmitOptions.disposal_rename (keep : Bool) (e : Expr) :
    (options.disposal keep e).map (Instr.rename σ) = options.disposal keep (e.rename σ) := by
  unfold disposal
  rw [Expr.isAssign_rename]
  split <;> rfl

theorem Instr.const_rename (value : Double) (type : DataType) :
    (Instr.const value type).rename σ = .const value type := by
  cases type <;> rfl

theorem Instr.zero_rename (type : DataType) : (Instr.zero type).rename σ = .zero type := by
  cases type <;> rfl

namespace Expr

mutual

theorem code_rename :
    (e : Expr) → (e.rename σ).code options = (e.code options).map (Instr.rename σ)
  | number value type _ => congrArg ([·]) (Instr.const_rename σ value type).symm
  | var _ _ _ => rfl
  | neg operand type _ => by
    simp only [rename, code, code_rename operand, List.map_cons, List.map_append,
      Instr.zero_rename]
    rfl
  | binary op left right type _ => by
    simp only [rename, code, code_rename left, code_rename right, type_rename,
      BinaryOp.operandType, List.map_append, EmitOptions.conversion_rename]
    rfl
  | assign _ value _ _ => by
    simp only [rename, code, code_rename value, List.map_append]
    rfl
  | call _ args _ _ => by
    have hlength : (argsRename σ args).length = args.length := by
      rw [argsRename_eq_map, List.length_map]
    simp only [rename, code, argsCode_rename args, hlength, List.map_append]
    rfl

theorem argsCode_rename : (es : List Expr) →
    argsCode options (argsRename σ es) = (argsCode options es).map (Instr.rename σ)
  | [] => rfl
  | e :: es => by
    simp only [argsRename, argsCode, code_rename e, argsCode_rename es, List.map_append]

end

end Expr

namespace Stmt

mutual

theorem code_rename (keep : Bool) : (s : Stmt) →
    (s.rename σ).code options keep = (s.code options keep).map (Instr.rename σ)
  | declaration _ _ _ e _ _ => by
    simp only [rename, code, e.code_rename, List.map_append]
    rfl
  | ret e _ => by simp only [rename, code, e.code_rename]
  | conditional e consequent alternate _ => by
    simp only [rename, code, e.code_rename, branchCode_rename consequent,
      alternateCode_rename alternate, List.map_append, List.map_cons, List.map_nil, Instr.rename,
      Instr.codeRename_eq_map]
  | expression e _ => by
    simp only [rename, code, e.code_rename, List.map_append, EmitOptions.disposal_rename]

theorem branchCode_rename : (ss : List Stmt) →
    branchCode options (branchRename σ ss) = (branchCode options ss).map (Instr.rename σ)
  | [] => rfl
  | s :: ss => by
    simp only [branchRename, branchCode, code_rename false s, branchCode_rename ss,
      List.map_append]

theorem alternateCode_rename : (alternate : Option (List Stmt)) →
    alternateCode options (alternateRename σ alternate) =
      Instr.alternateRename σ (alternateCode options alternate)
  | none => rfl
  | some ss => by
    simp only [alternateRename, alternateCode, branchCode_rename ss, Instr.alternateRename,
      Instr.codeRename_eq_map]

end

theorem bodyCode_rename (ss : List Stmt) :
    bodyCode options (ss.map (rename σ)) = (bodyCode options ss).map (Instr.rename σ) := by
  induction ss with
  | nil => rfl
  | cons s ss ih =>
    cases ss with
    | nil => exact code_rename σ options true s
    | cons s' ss =>
      simp only [List.map_cons, bodyCode, code_rename, List.map_append] at ih ⊢
      rw [ih]

mutual

theorem declarations_rename :
    (s : Stmt) → (s.rename σ).declarations = s.declarations.map (Binding.rename σ)
  | declaration _ _ _ _ _ _ | ret _ _ | expression _ _ => rfl
  | conditional _ consequent alternate _ => by
    simp only [rename, declarations, List.map_append, branchDeclarations_rename consequent,
      alternateDeclarations_rename alternate]

theorem branchDeclarations_rename : (ss : List Stmt) →
    branchDeclarations (branchRename σ ss) = (branchDeclarations ss).map (Binding.rename σ)
  | [] => rfl
  | s :: ss => by
    simp only [branchRename, branchDeclarations, List.map_append, declarations_rename s,
      branchDeclarations_rename ss]

theorem alternateDeclarations_rename : (alternate : Option (List Stmt)) →
    alternateDeclarations (alternateRename σ alternate) =
      (alternateDeclarations alternate).map (Binding.rename σ)
  | none => rfl
  | some ss => branchDeclarations_rename ss

end

end Stmt

theorem FunctionDecl.lower_rename (f : FunctionDecl) :
    (f.rename σ).lower options = (f.lower options).rename σ := by
  have hslots (bs : List Binding) :
      (bs.map (Binding.rename σ)).map Binding.slot = (bs.map Binding.slot).map (Slot.rename σ) := by
    rw [List.map_map, List.map_map]
    rfl
  have hlocals : (f.rename σ).slots options = (f.slots options).map (Slot.rename σ) := by
    simp only [slots, rename, ← Stmt.branchRename_eq_map, Stmt.branchDeclarations_rename]
    split <;> exact hslots _
  simp only [lower, hlocals, Func.rename]
  simp only [rename, hslots, Stmt.bodyCode_rename]

/-- the module of a renamed program is the renamed module -/
theorem Program.lower_rename (ρ : Nat → String → String) (p : Program) :
    (p.rename ρ).lower options = (p.lower options).rename ρ := by
  refine congrArg Module.mk (List.ext_getElem? fun i => ?_)
  simp only [lower, rename, List.getElem?_map, List.getElem?_mapIdx, Option.map_map,
    Function.comp_def, FunctionDecl.lower_rename]

end

end Wattle
