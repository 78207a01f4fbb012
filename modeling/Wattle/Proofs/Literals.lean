import Wattle.Proofs.Grammar
import Wattle.Proofs.Parts

/-!
# The numbers of a program

A tree does not keep the spelling of its numbers, so that they are compared with the tokens by
position.  From the left to the right, the numbers in a derivation have the values and the types
that are spelled by the numbers in its yield (`Derives.literals`).
-/

namespace Wattle

/-! ### the numbers in a tree -/

namespace Expr

/-- the value and the type of a number -/
def literal? : Expr → Option (Double × DataType)
  | number value type _ => some (value, type)
  | _ => none

def literals (e : Expr) : List (Double × DataType) := e.parts.filterMap literal?

theorem literalType?_eq (e : Expr) : e.literalType? = e.literal?.map Prod.snd := by
  cases e <;> rfl

@[simp] theorem literals_number (value : Double) (type : DataType) (span : Span) :
    (number value type span).literals = [(value, type)] := rfl

@[simp] theorem literals_var (name : String) (type : DataType) (span : Span) :
    (var name type span).literals = [] := rfl

@[simp] theorem literals_neg (operand : Expr) (type : DataType) (span : Span) :
    (neg operand type span).literals = operand.literals := rfl

@[simp] theorem literals_binary (op : BinaryOp) (left right : Expr) (type : DataType)
    (span : Span) :
    (binary op left right type span).literals = left.literals ++ right.literals := by
  simp [literals, parts, List.filterMap_cons, literal?]

@[simp] theorem literals_assign (target : Ident) (value : Expr) (type : DataType) (span : Span) :
    (assign target value type span).literals = value.literals := rfl

@[simp] theorem literals_call (callee : Ident) (args : List Expr) (type : DataType)
    (span : Span) : (call callee args type span).literals = args.flatMap literals := by
  simp only [literals, parts, argsParts_eq_flatMap, List.filterMap_cons, literal?,
    List.filterMap_flatMap]
  rfl

@[simp] theorem literals_withSpan (e : Expr) (span : Span) :
    (e.withSpan span).literals = e.literals := by
  cases e <;> simp [withSpan]

end Expr

namespace Stmt

def literals (s : Stmt) : List (Double × DataType) := s.nested.flatMap fun s => s.expr.literals

@[simp] theorem literals_declaration (kind : VarKind) (name : Ident) (type : DataType) (e : Expr)
    (isConst : Bool) (span : Span) :
    (declaration kind name type e isConst span).literals = e.literals := by
  simp [literals, nested, expr]

@[simp] theorem literals_ret (e : Expr) (span : Span) : (ret e span).literals = e.literals := by
  simp [literals, nested, expr]

@[simp] theorem literals_conditional (e : Expr) (ss : List Stmt) (alternate : Option (List Stmt))
    (span : Span) : (conditional e ss alternate span).literals =
      e.literals ++ (ss.flatMap literals ++ (alternate.getD []).flatMap literals) := by
  simp only [literals, nested, branchNested_eq_flatMap, alternateNested_eq_flatMap,
    List.flatMap_cons, List.flatMap_append, List.flatMap_assoc, expr]
  rfl

@[simp] theorem literals_expression (e : Expr) (span : Span) :
    (expression e span).literals = e.literals := by
  simp [literals, nested, expr]

end Stmt

def FunctionDecl.literals (f : FunctionDecl) : List (Double × DataType) :=
  f.body.flatMap Stmt.literals

/-- the numbers in a program, in the order of the text -/
def Program.literals (p : Program) : List (Double × DataType) :=
  p.functions.flatMap FunctionDecl.literals

theorem Program.literalTypes_eq (p : Program) : p.literalTypes = p.literals.map Prod.snd := by
  unfold literalTypes literals
  rw [List.map_flatMap]
  congr 1
  funext f
  simp only [FunctionDecl.parts, FunctionDecl.nested, FunctionDecl.literals, Stmt.literals,
    Expr.literals, List.filterMap_flatMap, List.flatMap_assoc, List.map_flatMap,
    List.map_filterMap, ← Expr.literalType?_eq]

/-! ### spelled numbers -/

/-- the value and the type that a spelling has, if it has any -/
def literalOf? (lexeme : String) : Option (Double × DataType) :=
  if '.' ∈ lexeme.toList then (Double.ofText? lexeme).map (·, .double)
  else (word? lexeme).map fun n => (.ofNat n, .int)

theorem Literal.literalOf? {lexeme : String} {value : Double} {type : DataType}
    (h : Literal lexeme value type) : literalOf? lexeme = some (value, type) := by
  obtain ⟨rfl, h⟩ := h
  unfold Wattle.literalOf? literalType at *
  split
  · next hpoint => simpa [if_pos hpoint] using h
  · next hpoint =>
    rw [if_neg hpoint] at h
    obtain ⟨n, hn, rfl⟩ := h
    simp [hn]

theorem literalType_of_literalOf? {lexeme : String} {literal : Double × DataType}
    (h : literalOf? lexeme = some literal) : literalType lexeme = literal.2 := by
  unfold literalOf? at h
  unfold literalType
  by_cases hpoint : '.' ∈ lexeme.toList
  · rw [if_pos hpoint] at h ⊢
    obtain ⟨value, -, rfl⟩ := Option.map_eq_some_iff.1 h
    rfl
  · rw [if_neg hpoint] at h ⊢
    obtain ⟨n, -, rfl⟩ := Option.map_eq_some_iff.1 h
    rfl

theorem map_literalType {lexemes : List String} {literals : List (Double × DataType)}
    (h : lexemes.map literalOf? = literals.map some) :
    lexemes.map literalType = literals.map Prod.snd := by
  induction lexemes generalizing literals with
  | nil =>
    obtain rfl := List.map_eq_nil_iff.1 h.symm
    rfl
  | cons lexeme lexemes ih =>
    obtain ⟨literal, rest, rfl, hliteral, hrest⟩ := List.map_eq_cons_iff.1 h.symm
    rw [List.map_cons, List.map_cons, ih hrest.symm, literalType_of_literalOf? hliteral.symm]

namespace TokenKind

/-- the spelling of a token that is a number -/
def lexeme? : TokenKind → Option String
  | .number lexeme => some lexeme
  | _ => none

/-- the type of a token that is a number -/
def literalType? : TokenKind → Option DataType
  | .number lexeme => some (literalType lexeme)
  | _ => none

theorem literalType?_eq (k : TokenKind) : k.literalType? = k.lexeme?.map literalType := by
  cases k <;> rfl

end TokenKind

/-! ### the numbers in a derivation -/

def Nonterminal.literals : (n : Nonterminal) → n.Value → List (Double × DataType)
  | expr _, e => Expr.literals e
  | param, _ => []
  | row n, as | items n, as => List.flatMap n.literals as
  | statement, s | conditional, s => Stmt.literals s
  | statements, ss => List.flatMap Stmt.literals ss
  | block, b | alternate, b => List.flatMap Stmt.literals b.1
  | function, f => FunctionDecl.literals f
  | functions, fs => List.flatMap FunctionDecl.literals fs

theorem typeNote_lexemes (written : Bool) (type : DataType) :
    (typeNote written type).filterMap TokenKind.lexeme? = [] := by
  cases written <;> rfl

/-- **The numbers in a derivation are spelled in its yield**, in order. -/
theorem Derives.literals {e c : Nat} {n : Nonterminal} {ks : List TokenKind} {a : n.Value}
    (h : Derives e c n ks a) :
    (ks.filterMap TokenKind.lexeme?).map literalOf? = (n.literals a).map some := by
  induction h with
  | number h => simp [Nonterminal.literals, TokenKind.lexeme?, h.literalOf?]
  | var | param | noItems | noStatements | noFunctions => rfl
  | call _ ih | group _ ih | neg _ ih | unsigned _ ih | operand _ ih | unassigned _ ih
  | assign _ ih | expression _ ih | single _ ih | someItems _ ih | ret _ ih | branching _ ih
  | expressionStmt _ ih | block _ ih | elseBlock _ ih | elseIf _ ih =>
    simpa [Nonterminal.literals, TokenKind.lexeme?, List.filterMap_cons] using ih
  | binary _ _ _ ih ih' | cons _ _ ih ih' | moreStatements _ _ ih ih'
  | conditional _ _ ih ih' | moreFunctions _ _ ih ih' =>
    simp only [Nonterminal.literals] at ih ih'
    simp [Nonterminal.literals, TokenKind.lexeme?, List.filterMap_cons, ih, ih']
  | conditionalElse _ _ _ ih ih' ih'' =>
    simp only [Nonterminal.literals] at ih ih' ih''
    simp [Nonterminal.literals, TokenKind.lexeme?, List.filterMap_cons, ih, ih', ih'']
  | declaration written _ ih =>
    simp only [Nonterminal.literals] at ih
    simp [Nonterminal.literals, TokenKind.lexeme?, List.filterMap_cons, typeNote_lexemes, ih]
  | function _ _ ih ih' =>
    simp only [Nonterminal.literals] at ih ih'
    simp [Nonterminal.literals, TokenKind.lexeme?, List.filterMap_cons, typeMark,
      FunctionDecl.literals, ih, ih']

/-- and so are their types -/
theorem Derives.literalTypes {e c : Nat} {n : Nonterminal} {ks : List TokenKind} {a : n.Value}
    (h : Derives e c n ks a) :
    ks.filterMap TokenKind.literalType? = (n.literals a).map Prod.snd := by
  rw [← map_literalType h.literals, List.map_filterMap, funext TokenKind.literalType?_eq]

end Wattle
