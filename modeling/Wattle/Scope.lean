import Wattle.Ast

/-!
# Names in scope

A `Scope` holds the variables of one function, all on one level.  A `FunctionTable` holds the
signatures of the functions declared so far; of two declarations of a name the later one counts.
-/

namespace Wattle

/-! ### variables -/

structure Scope where
  bindings : List (String × DataType)
deriving DecidableEq

namespace Scope

def empty : Scope := ⟨[]⟩

def lookup (s : Scope) (name : String) : Option DataType := s.bindings.lookup name

/-- adds a variable; `none` if the name is taken -/
def declare? (s : Scope) (name : String) (type : DataType) : Option Scope :=
  if (s.lookup name).isSome then none else some ⟨(name, type) :: s.bindings⟩

/-- adds a variable, unless the name is taken -/
def declare (s : Scope) (name : String) (type : DataType) : Scope :=
  (s.declare? name type).getD s

/-- the scope of a row of parameters, or the first one whose name is taken -/
def declareAll (s : Scope) : List Binding → Except Ident Scope
  | [] => .ok s
  | b :: bs =>
    match s.declare? b.name.name b.type with
    | none => .error b.name
    | some s' => s'.declareAll bs

@[simp] theorem lookup_empty (name : String) : empty.lookup name = none := rfl

theorem lookup_declare (s : Scope) (name other : String) (type : DataType) :
    (s.declare name type).lookup other =
      if other = name then some ((s.lookup name).getD type) else s.lookup other := by
  unfold declare declare?
  cases h : s.lookup name with
  | some t =>
    by_cases e : other = name
    · subst e; simp [h]
    · simp [e]
  | none =>
    by_cases e : other = name
    · subst e; simp [lookup]
    · have e' : (other == name) = false := by simpa using e
      simp [lookup, List.lookup_cons, e, e']

end Scope

/-! ### functions -/

structure Signature where
  params : List DataType
  returnType : DataType
deriving DecidableEq

structure FunctionTable where
  entries : List (String × Signature)
deriving DecidableEq

namespace FunctionTable

def empty : FunctionTable := ⟨[]⟩

def get? (t : FunctionTable) (name : String) : Option Signature := t.entries.lookup name

def register (t : FunctionTable) (name : String) (signature : Signature) : FunctionTable :=
  ⟨(name, signature) :: t.entries⟩

@[simp] theorem get?_empty (name : String) : empty.get? name = none := rfl

theorem get?_register (t : FunctionTable) (name other : String) (signature : Signature) :
    (t.register name signature).get? other =
      if other = name then some signature else t.get? other := by
  by_cases e : other = name
  · subst e; simp [get?, register]
  · have e' : (other == name) = false := by simpa using e
    simp [get?, register, List.lookup_cons, e, e']

end FunctionTable

/-- the signature that a declaration gives its function -/
def FunctionDecl.signature (f : FunctionDecl) : Signature := ⟨f.params.map (·.type), f.returnType⟩

end Wattle
