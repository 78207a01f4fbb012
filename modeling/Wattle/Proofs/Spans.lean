import Wattle.Module
import Wattle.Parser.Program
import Wattle.Proofs.Parts

/-!
# Other spans

A `SpanMap` gives spans for spans, so that the smallest span over two others goes to the smallest
one over their images.  Applied to all spans in a program it leaves the rest of the tree as it is
(`mapSpan`); `SpanMap.erase` makes all spans equal, and programs that it takes to the same program
differ in their spans only.  The module that a program is lowered to has no spans
(`Program.lower_mapSpan`).
-/

namespace Wattle

/-- other spans, with those of larger parts made from those of the smaller ones -/
structure SpanMap where
  toFun : Span → Span
  merge : ∀ s t, toFun (s.merge t) = (toFun s).merge (toFun t)

namespace SpanMap

instance : CoeFun SpanMap fun _ => Span → Span := ⟨toFun⟩

@[simp] theorem apply_merge (g : SpanMap) (s t : Span) : g (s.merge t) = (g s).merge (g t) :=
  g.merge s t

/-- one span for all -/
def erase : SpanMap where
  toFun _ := .point .origin
  merge _ _ := by decide

@[simp] theorem erase_apply (s : Span) : erase s = .point .origin := rfl

end SpanMap

/-! ### expressions -/

def Ident.mapSpan (g : SpanMap) (name : Ident) : Ident := ⟨name.name, g name.span⟩

def Binding.mapSpan (g : SpanMap) (b : Binding) : Binding := ⟨b.name.mapSpan g, b.type⟩

@[simp] theorem Ident.name_mapSpan (g : SpanMap) (name : Ident) :
    (name.mapSpan g).name = name.name := rfl

@[simp] theorem Ident.span_mapSpan (g : SpanMap) (name : Ident) :
    (name.mapSpan g).span = g name.span := rfl

@[simp] theorem Binding.slot_mapSpan (g : SpanMap) (b : Binding) : (b.mapSpan g).slot = b.slot :=
  rfl

namespace Expr

mutual

def mapSpan (g : SpanMap) : Expr → Expr
  | number value type span => number value type (g span)
  | var name type span => var name type (g span)
  | neg operand type span => neg (operand.mapSpan g) type (g span)
  | binary op left right type span =>
    binary op (left.mapSpan g) (right.mapSpan g) type (g span)
  | assign target value type span => assign (target.mapSpan g) (value.mapSpan g) type (g span)
  | call callee args type span => call (callee.mapSpan g) (argsMapSpan g args) type (g span)

def argsMapSpan (g : SpanMap) : List Expr → List Expr
  | [] => []
  | e :: es => e.mapSpan g :: argsMapSpan g es

end

section
variable (g : SpanMap) (e : Expr)

theorem argsMapSpan_eq_map (es : List Expr) : argsMapSpan g es = es.map (mapSpan g) := by
  induction es with
  | nil => rfl
  | cons e es ih => rw [argsMapSpan, ih, List.map_cons]

@[simp] theorem type_mapSpan : (e.mapSpan g).type = e.type := by cases e <;> rfl
@[simp] theorem span_mapSpan : (e.mapSpan g).span = g e.span := by cases e <;> rfl
@[simp] theorem isAssign_mapSpan : (e.mapSpan g).isAssign = e.isAssign := by cases e <;> rfl

theorem mapSpan_withSpan (span : Span) :
    (e.withSpan span).mapSpan g = (e.mapSpan g).withSpan (g span) := by
  cases e <;> rfl

end

end Expr

/-! ### statements and functions -/

namespace Stmt

mutual

def mapSpan (g : SpanMap) : Stmt → Stmt
  | declaration kind name type e isConst span =>
    declaration kind (name.mapSpan g) type (e.mapSpan g) isConst (g span)
  | ret e span => ret (e.mapSpan g) (g span)
  | conditional e consequent alternate span =>
    conditional (e.mapSpan g) (branchMapSpan g consequent) (alternateMapSpan g alternate) (g span)
  | expression e span => expression (e.mapSpan g) (g span)

def branchMapSpan (g : SpanMap) : List Stmt → List Stmt
  | [] => []
  | s :: ss => s.mapSpan g :: branchMapSpan g ss

def alternateMapSpan (g : SpanMap) : Option (List Stmt) → Option (List Stmt)
  | none => none
  | some ss => some (branchMapSpan g ss)

end

section
variable (g : SpanMap)

theorem branchMapSpan_eq_map (ss : List Stmt) : branchMapSpan g ss = ss.map (mapSpan g) := by
  induction ss with
  | nil => rfl
  | cons s ss ih => rw [branchMapSpan, ih, List.map_cons]

@[simp] theorem span_mapSpan (s : Stmt) : (s.mapSpan g).span = g s.span := by cases s <;> rfl

theorem binding?_mapSpan (s : Stmt) :
    (s.mapSpan g).binding? = s.binding?.map (Binding.mapSpan g) := by
  cases s <;> rfl

theorem bindings_mapSpan (ss : List Stmt) :
    (ss.map (mapSpan g)).filterMap binding? = (ss.filterMap binding?).map (Binding.mapSpan g) := by
  simp only [List.filterMap_map, List.map_filterMap]
  exact congrArg (List.filterMap · ss) (funext (binding?_mapSpan g))

end

end Stmt

def FunctionDecl.mapSpan (g : SpanMap) (f : FunctionDecl) : FunctionDecl where
  name := f.name.mapSpan g
  params := f.params.map (Binding.mapSpan g)
  locals := f.locals.map (Binding.mapSpan g)
  returnType := f.returnType
  body := f.body.map (Stmt.mapSpan g)
  span := g f.span

@[simp] theorem FunctionDecl.signature_mapSpan (g : SpanMap) (f : FunctionDecl) :
    (f.mapSpan g).signature = f.signature := by
  simp [signature, mapSpan, Binding.mapSpan, Function.comp_def]

/-! ### parts -/

section
variable (g : SpanMap)

mutual

theorem Expr.parts_mapSpan : (e : Expr) → (e.mapSpan g).parts = e.parts.map (mapSpan g)
  | number _ _ _ | var _ _ _ => rfl
  | neg operand _ _ => congrArg (_ :: ·) (parts_mapSpan operand)
  | binary _ left right _ _ => by
    simp only [mapSpan, parts, parts_mapSpan left, parts_mapSpan right, List.map_cons,
      List.map_append]
  | assign _ value _ _ => congrArg (_ :: ·) (parts_mapSpan value)
  | call _ args _ _ => congrArg (_ :: ·) (argsParts_mapSpan args)

theorem Expr.argsParts_mapSpan : (es : List Expr) →
    argsParts (argsMapSpan g es) = (argsParts es).map (mapSpan g)
  | [] => rfl
  | e :: es => by
    simp only [argsMapSpan, argsParts, parts_mapSpan e, argsParts_mapSpan es, List.map_append]

end

theorem Expr.callee?_mapSpan (e : Expr) : (e.mapSpan g).callee? = e.callee? := by
  cases e <;> rfl

theorem Stmt.expr_mapSpan (s : Stmt) : (s.mapSpan g).expr = s.expr.mapSpan g := by
  cases s <;> rfl

mutual

theorem Stmt.nested_mapSpan : (s : Stmt) → (s.mapSpan g).nested = s.nested.map (mapSpan g)
  | declaration _ _ _ _ _ _ | ret _ _ | expression _ _ => rfl
  | conditional _ consequent alternate _ => by
    simp only [mapSpan, nested, List.map_cons, List.map_append, branchNested_mapSpan consequent,
      alternateNested_mapSpan alternate]

theorem Stmt.branchNested_mapSpan : (ss : List Stmt) →
    branchNested (branchMapSpan g ss) = (branchNested ss).map (mapSpan g)
  | [] => rfl
  | s :: ss => by
    simp only [branchMapSpan, branchNested, nested_mapSpan s, branchNested_mapSpan ss,
      List.map_append]

theorem Stmt.alternateNested_mapSpan : (alternate : Option (List Stmt)) →
    alternateNested (alternateMapSpan g alternate) = (alternateNested alternate).map (mapSpan g)
  | none => rfl
  | some ss => branchNested_mapSpan ss

end

theorem FunctionDecl.parts_mapSpan (f : FunctionDecl) :
    (f.mapSpan g).parts = f.parts.map (Expr.mapSpan g) := by
  simp only [parts, nested, mapSpan, List.flatMap_map, List.flatMap_assoc, List.map_flatMap,
    Stmt.nested_mapSpan, Stmt.expr_mapSpan, Expr.parts_mapSpan]

end

/-! ### programs -/

def Program.mapSpan (g : SpanMap) (p : Program) : Program :=
  ⟨p.functions.map (FunctionDecl.mapSpan g), g p.span⟩

/-- the program without its spans -/
def Program.eraseSpans (p : Program) : Program := p.mapSpan .erase

/-! ### lowering -/

section
variable (g : SpanMap) (options : EmitOptions)

namespace Expr

mutual

theorem code_mapSpan : (e : Expr) → (e.mapSpan g).code options = e.code options
  | number _ _ _ | var _ _ _ => rfl
  | neg operand _ _ => by simp only [mapSpan, code, code_mapSpan operand]
  | binary op left right _ _ => by
    simp only [mapSpan, code, code_mapSpan left, code_mapSpan right, type_mapSpan,
      BinaryOp.operandType]
  | assign _ value _ _ => by simp only [mapSpan, code, code_mapSpan value, Ident.name_mapSpan]
  | call _ args _ _ => by
    have hlength : (argsMapSpan g args).length = args.length := by
      rw [argsMapSpan_eq_map, List.length_map]
    simp only [mapSpan, code, argsCode_mapSpan args, hlength, Ident.name_mapSpan]

theorem argsCode_mapSpan : (es : List Expr) →
    argsCode options (argsMapSpan g es) = argsCode options es
  | [] => rfl
  | e :: es => by simp only [argsMapSpan, argsCode, code_mapSpan e, argsCode_mapSpan es]

end

end Expr

namespace Stmt

mutual

theorem code_mapSpan (keep : Bool) :
    (s : Stmt) → (s.mapSpan g).code options keep = s.code options keep
  | declaration _ _ _ e _ _ => by simp only [mapSpan, code, e.code_mapSpan, Ident.name_mapSpan]
  | ret e _ => by simp only [mapSpan, code, e.code_mapSpan]
  | conditional e consequent alternate _ => by
    simp only [mapSpan, code, e.code_mapSpan, branchCode_mapSpan consequent,
      alternateCode_mapSpan alternate]
  | expression e _ => by
    simp only [mapSpan, code, e.code_mapSpan, EmitOptions.disposal, Expr.isAssign_mapSpan]

theorem branchCode_mapSpan : (ss : List Stmt) →
    branchCode options (branchMapSpan g ss) = branchCode options ss
  | [] => rfl
  | s :: ss => by simp only [branchMapSpan, branchCode, code_mapSpan false s, branchCode_mapSpan ss]

theorem alternateCode_mapSpan : (alternate : Option (List Stmt)) →
    alternateCode options (alternateMapSpan g alternate) = alternateCode options alternate
  | none => rfl
  | some ss => by simp only [alternateMapSpan, alternateCode, branchCode_mapSpan ss]

end

theorem bodyCode_mapSpan (ss : List Stmt) :
    bodyCode options (ss.map (mapSpan g)) = bodyCode options ss := by
  induction ss with
  | nil => rfl
  | cons s ss ih =>
    cases ss with
    | nil => exact code_mapSpan g options true s
    | cons s' ss =>
      simp only [List.map_cons, bodyCode, code_mapSpan] at ih ⊢
      rw [ih]

mutual

theorem declarations_mapSpan :
    (s : Stmt) → (s.mapSpan g).declarations = s.declarations.map (Binding.mapSpan g)
  | declaration _ _ _ _ _ _ | ret _ _ | expression _ _ => rfl
  | conditional _ consequent alternate _ => by
    simp only [mapSpan, declarations, List.map_append, branchDeclarations_mapSpan consequent,
      alternateDeclarations_mapSpan alternate]

theorem branchDeclarations_mapSpan : (ss : List Stmt) →
    branchDeclarations (branchMapSpan g ss) = (branchDeclarations ss).map (Binding.mapSpan g)
  | [] => rfl
  | s :: ss => by
    simp only [branchMapSpan, branchDeclarations, List.map_append, declarations_mapSpan s,
      branchDeclarations_mapSpan ss]

theorem alternateDeclarations_mapSpan : (alternate : Option (List Stmt)) →
    alternateDeclarations (alternateMapSpan g alternate) =
      (alternateDeclarations alternate).map (Binding.mapSpan g)
  | none => rfl
  | some ss => branchDeclarations_mapSpan ss

end

end Stmt

theorem FunctionDecl.lower_mapSpan (f : FunctionDecl) :
    (f.mapSpan g).lower options = f.lower options := by
  have hslots (bs : List Binding) :
      (bs.map (Binding.mapSpan g)).map Binding.slot = bs.map Binding.slot := by
    simp [Function.comp_def]
  have hlocals : (f.mapSpan g).slots options = f.slots options := by
    simp only [slots, mapSpan, ← Stmt.branchMapSpan_eq_map, Stmt.branchDeclarations_mapSpan]
    split <;> exact hslots _
  simp only [lower, hlocals]
  simp only [mapSpan, hslots, Stmt.bodyCode_mapSpan, Ident.name_mapSpan]

theorem Program.lower_mapSpan (p : Program) : (p.mapSpan g).lower options = p.lower options := by
  simp [lower, mapSpan, FunctionDecl.lower_mapSpan, Function.comp_def]

/-- programs that differ in their spans only have one module text -/
theorem Program.moduleText_eq {p q : Program} (h : p.eraseSpans = q.eraseSpans) :
    p.moduleText options = q.moduleText options := by
  rw [moduleText, moduleText, ← lower_mapSpan .erase, ← lower_mapSpan .erase options q]
  exact congrArg (fun p => (lower options p).text) h

end

end Wattle
