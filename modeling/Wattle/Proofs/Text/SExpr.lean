import Wattle.Token.Scan

/-!
# S-expressions

The form that module texts are written in: atoms, and lists in parentheses.  A text is cut into
parentheses and atoms, which end at blanks and parentheses (`SExpr.scan`), and these are put
together to expressions (`SExpr.read`).  A row of them is read if and only if it is that of some
expressions, so that the parentheses of a text that is read are balanced, and it is read in one way
only (`SExpr.read_eq_some_iff`).
-/

namespace Wattle

inductive SExpr where
  | atom (text : String)
  | list (items : List SExpr)

namespace SExpr

/-! ### parts -/

inductive Part where
  | opening
  | closing
  | atom (text : String)
deriving DecidableEq

mutual

def parts : SExpr → List Part
  | atom text => [.atom text]
  | list items => .opening :: (itemsParts items ++ [.closing])

def itemsParts : List SExpr → List Part
  | [] => []
  | e :: es => e.parts ++ itemsParts es

end

theorem itemsParts_append (es es' : List SExpr) :
    itemsParts (es ++ es') = itemsParts es ++ itemsParts es' := by
  induction es with
  | nil => rfl
  | cons e es ih => rw [List.cons_append, itemsParts, itemsParts, ih, List.append_assoc]

theorem itemsParts_singleton (e : SExpr) : itemsParts [e] = e.parts := List.append_nil _

/-! ### reading expressions -/

/-- reads expressions behind `items`, which stand in a list that stands behind `outer` -/
def read : List (List SExpr) → List SExpr → List Part → Option (List SExpr)
  | [], items, [] => some items
  | _ :: _, _, [] => none
  | outer, items, .atom text :: ps => read outer (items ++ [atom text]) ps
  | outer, items, .opening :: ps => read (items :: outer) [] ps
  | [], _, .closing :: _ => none
  | above :: outer, items, .closing :: ps => read outer (above ++ [list items]) ps

mutual

theorem read_parts (outer : List (List SExpr)) (items : List SExpr) (ps : List Part) :
    (e : SExpr) → read outer items (e.parts ++ ps) = read outer (items ++ [e]) ps
  | atom text => by rw [parts, List.singleton_append, read]
  | list es => by
    rw [parts, List.cons_append, read, List.append_assoc, read_itemsParts, List.nil_append,
      List.singleton_append, read]

theorem read_itemsParts (outer : List (List SExpr)) (items : List SExpr) (ps : List Part) :
    (es : List SExpr) → read outer items (itemsParts es ++ ps) = read outer (items ++ es) ps
  | [] => by rw [itemsParts, List.nil_append, List.append_nil]
  | e :: es => by
    rw [itemsParts, List.append_assoc, read_parts outer items _ e, read_itemsParts outer _ ps es,
      List.append_assoc, List.singleton_append]

end

/-- the parts in front of an expression: the lists that are open there, from the innermost one -/
def openParts : List (List SExpr) → List Part
  | [] => []
  | above :: outer => openParts outer ++ (itemsParts above ++ [.opening])

theorem parts_of_read {outer : List (List SExpr)} {items es : List SExpr} {ps : List Part}
    (h : read outer items ps = some es) :
    openParts outer ++ (itemsParts items ++ ps) = itemsParts es := by
  induction ps generalizing outer items with
  | nil =>
    cases outer with
    | nil =>
      obtain rfl := Option.some.inj h
      exact List.append_nil _
    | cons => cases h
  | cons p ps ih =>
    cases p with
    | atom text =>
      have hread := ih (by simpa only [read] using h)
      rwa [itemsParts_append, itemsParts_singleton, parts, List.append_assoc] at hread
    | opening =>
      have hread := ih (by simpa only [read] using h)
      simpa [openParts, itemsParts] using hread
    | closing =>
      cases outer with
      | nil => cases h
      | cons above outer =>
        have hread := ih (by simpa only [read] using h)
        simpa [openParts, itemsParts_append, itemsParts_singleton, parts] using hread

/-- **What is read is what the parts are those of**, and nothing else is read. -/
theorem read_eq_some_iff {ps : List Part} {es : List SExpr} :
    read [] [] ps = some es ↔ ps = itemsParts es := by
  refine ⟨parts_of_read, ?_⟩
  rintro rfl
  have h := read_itemsParts [] [] [] es
  rwa [List.append_nil] at h

theorem itemsParts_injective {es es' : List SExpr} (h : itemsParts es = itemsParts es') :
    es = es' :=
  Option.some.inj ((read_eq_some_iff.2 h).symm.trans (read_eq_some_iff.2 rfl)).symm

/-! ### reading texts -/

/-- an atom, unless there are no characters -/
def flush (cs : List Char) : List Part := if cs.isEmpty then [] else [.atom (String.ofList cs)]

/-- the parts of a text behind the first characters of an atom -/
def scan (front : List Char) : List Char → List Part
  | [] => flush front
  | c :: cs =>
    if c = '(' then flush front ++ .opening :: scan [] cs
    else if c = ')' then flush front ++ .closing :: scan [] cs
    else if isBlank c then flush front ++ scan [] cs
    else scan (front ++ [c]) cs

/-- the expression that a text is the text of -/
def ofText? (s : String) : Option SExpr :=
  match read [] [] (scan [] s.toList) with
  | some [e] => some e
  | _ => none

theorem ofText?_eq_some_iff {s : String} {e : SExpr} :
    ofText? s = some e ↔ scan [] s.toList = e.parts := by
  rw [← itemsParts_singleton, ← read_eq_some_iff]
  unfold ofText?
  split
  · next e' h => simp [h]
  · next h => exact ⟨(nomatch ·), fun h' => absurd h' (h e)⟩

/-! ### texts of parts -/

/-- neither a parenthesis nor a blank -/
def isAtomPart (c : Char) : Bool := c != '(' && c != ')' && !isBlank c

/-- the text of some parts, in front of anything that ends an atom -/
def Spells (cs : List Char) (ps : List Part) : Prop :=
  ∀ rest : List Char, (∀ c ∈ rest.head?, isAtomPart c = false) →
    scan [] (cs ++ rest) = ps ++ scan [] rest

/-- the characters of an atom -/
def IsAtom (cs : List Char) : Prop := cs ≠ [] ∧ ∀ c ∈ cs, isAtomPart c = true

instance : DecidablePred IsAtom := fun cs =>
  decidable_of_iff (cs ≠ [] ∧ cs.all isAtomPart = true) (by rw [IsAtom, List.all_eq_true])

theorem scan_atom {front cs rest : List Char} (h : ∀ c ∈ cs, isAtomPart c = true) :
    scan front (cs ++ rest) = scan (front ++ cs) rest := by
  induction cs generalizing front with
  | nil => simp
  | cons c cs ih =>
    obtain ⟨hc, hcs⟩ := List.forall_mem_cons.1 h
    simp only [isAtomPart, Bool.and_eq_true, bne_iff_ne, Bool.not_eq_true'] at hc
    rw [List.cons_append, scan, if_neg hc.1.1, if_neg hc.1.2, hc.2, if_neg Bool.false_ne_true,
      ih hcs, List.append_assoc, List.singleton_append]

theorem scan_flush {front rest : List Char} (h : ∀ c ∈ rest.head?, isAtomPart c = false) :
    scan front rest = flush front ++ scan [] rest := by
  cases rest with
  | nil => simp [scan, flush]
  | cons c rest =>
    have hflush : flush [] = [] := rfl
    simp only [scan, hflush, List.nil_append]
    split
    · rfl
    · split
      · rfl
      · split
        · rfl
        · next ho hc hb => simp [isAtomPart, ho, hc, hb] at h

namespace Spells

variable {cs cs' : List Char} {ps ps' : List Part}

theorem nil : Spells [] [] := fun _ _ => rfl

theorem atom {s : String} (h : IsAtom s.toList) : Spells s.toList [.atom s] := by
  intro rest hrest
  rw [scan_atom h.2, List.nil_append, scan_flush hrest, flush]
  simp [h.1]

theorem parens (h : Spells cs ps) :
    Spells ('(' :: (cs ++ [')'])) (.opening :: (ps ++ [.closing])) := by
  intro rest _
  have hclose := h (')' :: rest) (by simp [isAtomPart])
  simp [scan, flush, hclose]

/-- a blank between two texts -/
theorem blank {c : Char} (h : Spells cs ps) (hc : isBlank c = true) (h' : Spells cs' ps') :
    Spells (cs ++ c :: cs') (ps ++ ps') := by
  intro rest hrest
  have hne : c ≠ '(' ∧ c ≠ ')' := by
    refine ⟨?_, ?_⟩ <;> rintro rfl <;> cases hc
  have hblank := h (c :: (cs' ++ rest)) (by simp [isAtomPart, hc])
  rw [List.append_assoc, List.cons_append, hblank, scan, if_neg hne.1, if_neg hne.2, if_pos hc,
    h' rest hrest]
  simp [flush]

end Spells

end SExpr

end Wattle
