import Wattle.Module
import Wattle.Proofs.Fragment

/-!
# Lowered programs

The code of branches and results, and what the declarations of a function amount to.  Statements
only add variables (`StmtsTyped.le`), and the slots of the parameters and of all declarations, at
any depth, declare every variable that is bound behind the last statement, once and with its type
(`FunctionDecl.declares`).  In the same way a module defines each function once if the names differ
(`filter_map_lower`).
-/

namespace Wattle

/-! ### the code of branches -/

theorem Stmt.branchCode_cons (options : EmitOptions) (s : Stmt) (ss : List Stmt) :
    branchCode options (s :: ss) = s.code options false ++ branchCode options ss := rfl

theorem Stmt.alternateCode_getD (options : EmitOptions) (alternate : Option (List Stmt)) :
    (alternateCode options alternate).getD [] = branchCode options (alternate.getD []) := by
  cases alternate <;> rfl

/-! ### results -/

section
variable {Δ : Signatures} {Γ Γ' : Env} {s : Stmt} {type : DataType}

theorem Stmt.code_of_yields (options : EmitOptions) (h : s.Yields type) :
    s.code options true = s.expr.code options := by
  cases s with
  | declaration | conditional => exact absurd h id
  | ret => rfl
  | expression => simp [code, EmitOptions.disposal, expr]

/-- the expression of a result is well typed behind it, as a result changes no variables -/
theorem StmtsTyped.of_result (h : StmtsTyped Δ Γ [s] Γ') (hs : s.Yields type)
    (hplain : s.source.Plain Δ) :
    s.expr.Typed Δ Γ' ∧ s.expr.Plain Δ ∧ s.expr.type = type := by
  cases h with
  | declaration | conditional => exact absurd hs id
  | ret he hrest =>
    cases hrest
    exact ⟨he, hplain, hs⟩
  | @expression _ _ e span _ he hrest =>
    cases hrest
    obtain ⟨htype, ha⟩ := hs
    obtain ⟨_, _, _, _, rfl, -⟩ | ⟨-, hsource⟩ := Stmt.source_expression e span
    · cases ha
    · exact ⟨he, hsource ▸ hplain, htype⟩

end

/-- the type of a sum, or of another operator that computes, is `Double`, or that of both
operands -/
theorem arithmetic_cases {left right wanted : DataType}
    (h : wanted = if left = .double ∨ right = .double then .double else .int) :
    (wanted = .double ∨ left = wanted) ∧ (wanted = .double ∨ right = wanted) := by
  subst h
  cases left <;> cases right <;> decide

/-! ### declarations in branches -/

namespace Stmt

@[simp] theorem branchDeclarations_nil : branchDeclarations [] = [] := rfl

@[simp] theorem branchDeclarations_cons (s : Stmt) (ss : List Stmt) :
    branchDeclarations (s :: ss) = s.declarations ++ branchDeclarations ss := rfl

theorem alternateDeclarations_eq (alternate : Option (List Stmt)) :
    alternateDeclarations alternate = branchDeclarations (alternate.getD []) := by
  cases alternate <;> rfl

mutual

theorem declarations_eq_filterMap : (s : Stmt) → s.declarations = s.nested.filterMap binding?
  | declaration .. | ret .. | expression .. => rfl
  | conditional e code other span => by
    have hself : (conditional e code other span).binding? = none := rfl
    rw [declarations, nested, List.filterMap_cons_none hself, List.filterMap_append,
      branchDeclarations_eq_filterMap code, alternateDeclarations_eq_filterMap other]

theorem branchDeclarations_eq_filterMap : (ss : List Stmt) →
    branchDeclarations ss = (branchNested ss).filterMap binding?
  | [] => rfl
  | s :: ss => by
    rw [branchDeclarations, branchNested, List.filterMap_append, declarations_eq_filterMap s,
      branchDeclarations_eq_filterMap ss]

theorem alternateDeclarations_eq_filterMap : (alternate : Option (List Stmt)) →
    alternateDeclarations alternate = (alternateNested alternate).filterMap binding?
  | none => rfl
  | some ss => branchDeclarations_eq_filterMap ss

end

end Stmt

/-! ### environments grow -/

namespace Env

/-- all variables of one environment are in the other one -/
def Le (Γ Γ' : Env) : Prop := ∀ ⦃x t⦄, Γ x = some t → Γ' x = some t

theorem Le.refl (Γ : Env) : Γ.Le Γ := fun _ _ h => h

theorem Le.trans {Γ Γ₁ Γ' : Env} (h : Γ.Le Γ₁) (h' : Γ₁.Le Γ') : Γ.Le Γ' := fun _ _ hx => h' (h hx)

theorem le_bind {Γ : Env} {name : String} (type : DataType) (hnew : Γ name = none) :
    Γ.Le (Γ.bind name type) := by
  intro x t h
  have hx : x ≠ name := fun e => by simp [e, hnew] at h
  simpa [bind, hx] using h

end Env

section
variable {Δ : Signatures} {Γ Γ' : Env} {s : Stmt} {ss : List Stmt}

theorem StmtsTyped.le (h : StmtsTyped Δ Γ ss Γ') : Γ.Le Γ' := by
  induction h with
  | nil => exact .refl _
  | declaration hnew _ _ _ ih => exact (Env.le_bind _ hnew).trans ih
  | ret _ _ ih | expression _ _ ih => exact ih
  | conditional _ _ _ _ _ ih₁ ih₂ ih => exact (ih₁.trans ih₂).trans ih

/-- the first statement of a row, and the others behind it -/
theorem StmtsTyped.of_cons (h : StmtsTyped Δ Γ (s :: ss) Γ') :
    ∃ Γ₁, StmtsTyped Δ Γ [s] Γ₁ ∧ StmtsTyped Δ Γ₁ ss Γ' := by
  cases h with
  | declaration hnew hi ht hs => exact ⟨_, .declaration hnew hi ht .nil, hs⟩
  | ret h hs => exact ⟨_, .ret h .nil, hs⟩
  | expression h hs => exact ⟨_, .expression h .nil, hs⟩
  | conditional hc ht h₁ h₂ hs => exact ⟨_, .conditional hc ht h₁ h₂ .nil, hs⟩

end

/-! ### slots -/

/-- the slots are the variables of an environment, each once -/
def Declares (slots : List Slot) (Γ : Env) : Prop :=
  ∀ x, slots.filter (·.name == x) = ((Γ x).map (Slot.mk x)).toList

namespace Declares

variable {slots : List Slot} {Γ : Env}

theorem snoc {b : Binding} (h : Declares slots Γ) (hnew : Γ b.name.name = none) :
    Declares (slots ++ [b.slot]) (Γ.bind b.name.name b.type) := by
  intro x
  rw [List.filter_append, h x]
  by_cases hx : x = b.name.name
  · subst hx
    simp [hnew, Env.bind, Binding.slot]
  · have hx' : (b.name.name == x) = false := by simpa using Ne.symm hx
    simp [Env.bind, Binding.slot, hx, hx']

theorem ofParams {params : List Binding} (h : (params.map (·.name.name)).Nodup) :
    Declares (params.map Binding.slot) (.ofParams params) := by
  induction params with
  | nil => exact fun _ => rfl
  | cons b bs ih =>
    rw [List.map_cons, List.nodup_cons] at h
    obtain ⟨hb, hbs⟩ := h
    intro x
    have hrest := ih hbs x
    by_cases hx : b.name.name = x
    · have hnone : (bs.map Binding.slot).filter (·.name == x) = [] := by
        rw [List.filter_eq_nil_iff]
        intro s hs e
        obtain ⟨c, hc, rfl⟩ := List.mem_map.1 hs
        exact hb (List.mem_map.2 ⟨c, hc, (by simpa [Binding.slot] using e : c.name.name = x).trans
          hx.symm⟩)
      simpa [Binding.slot, Env.ofParams, hx] using hnone
    · have hx' : (b.name.name == x) = false := by simpa using hx
      simpa [List.filter_cons, Binding.slot, Env.ofParams, hx'] using hrest

end Declares

theorem StmtsTyped.declares {Δ : Signatures} {Γ Γ' : Env} {ss : List Stmt} {slots : List Slot}
    (h : StmtsTyped Δ Γ ss Γ') (hd : Declares slots Γ) :
    Declares (slots ++ (Stmt.branchDeclarations ss).map Binding.slot) Γ' := by
  induction h generalizing slots with
  | nil => simpa using hd
  | @declaration _ _ _ name type _ _ _ _ hnew _ _ _ ih =>
    simpa [Stmt.declarations] using ih (hd.snoc (b := ⟨name, type⟩) hnew)
  | ret _ _ ih | expression _ _ ih => simpa [Stmt.declarations] using ih hd
  | conditional _ _ _ _ _ ih₁ ih₂ ih =>
    simpa [Stmt.declarations, Stmt.alternateDeclarations_eq] using ih (ih₂ (ih₁ hd))

/-- a typed function declares each of its variables once -/
theorem FunctionDecl.declares {Δ : Signatures} {Γ : Env} {f : FunctionDecl}
    (hparams : (f.params.map (·.name.name)).Nodup)
    (hbody : StmtsTyped Δ (.ofParams f.params) f.body Γ) :
    Declares ((f.lower .strict).params ++ (f.lower .strict).locals) Γ :=
  hbody.declares (.ofParams hparams)

/-! ### functions -/

theorem filter_map_lower (options : EmitOptions) {fs : List FunctionDecl} {g : FunctionDecl}
    (hnames : (fs.map (·.name.name)).Nodup) (hg : g ∈ fs) :
    (fs.map (·.lower options)).filter (·.name == g.name.name) = [g.lower options] := by
  induction fs with
  | nil => simp at hg
  | cons f fs ih =>
    rw [List.map_cons, List.nodup_cons] at hnames
    obtain ⟨hf, hfs⟩ := hnames
    rcases List.mem_cons.1 hg with rfl | hg
    · have hnone : (fs.map (·.lower options)).filter (·.name == g.name.name) = [] := by
        rw [List.filter_eq_nil_iff]
        intro h hh e
        obtain ⟨f, hmem, rfl⟩ := List.mem_map.1 hh
        exact hf (List.mem_map.2 ⟨f, hmem, by simpa [FunctionDecl.lower] using e⟩)
      rw [List.map_cons, List.filter_cons_of_pos (by simp [FunctionDecl.lower]), hnone]
    · have hne : f.name.name ≠ g.name.name := fun e => hf (e ▸ List.mem_map_of_mem hg)
      rw [List.map_cons, List.filter_cons_of_neg (by simpa [FunctionDecl.lower] using hne)]
      exact ih hfs hg

/-- a known function is one in front, with its signature -/
theorem Signatures.of_ofFunctions {fs : List FunctionDecl} {name : String} {signature : Signature}
    (h : ofFunctions fs name = some signature) :
    ∃ g ∈ fs, g.name.name = name ∧ g.signature = signature := by
  obtain ⟨g, hg, hs⟩ := Option.map_eq_some_iff.1 h
  exact ⟨g, List.mem_reverse.1 (List.mem_of_find?_eq_some hg),
    by simpa using List.find?_some hg, hs⟩

end Wattle
