/-!
# Positions and spans

A position is a line and a column, both counted from `1`.  A column counts the bytes of the UTF-8
form, and only a line feed starts a new line.  A span runs from the position of its first byte to
the position of its last one; `Span.merge` is the smallest span over two others.
-/

namespace Wattle

structure Position where
  line : Nat
  column : Nat
deriving DecidableEq, Inhabited

namespace Position

/-- the order of reading: lines first, then columns -/
instance : LE Position where
  le p q := p.line < q.line ∨ p.line = q.line ∧ p.column ≤ q.column

instance (p q : Position) : Decidable (p ≤ q) :=
  inferInstanceAs (Decidable (p.line < q.line ∨ p.line = q.line ∧ p.column ≤ q.column))

instance : Min Position := minOfLe
instance : Max Position := maxOfLe

/-- the first position of a text -/
def origin : Position := ⟨1, 1⟩

/-- the position behind one character -/
def next (p : Position) (c : Char) : Position :=
  if c = '\n' then ⟨p.line + 1, 1⟩ else ⟨p.line, p.column + c.utf8Size⟩

/-- the position behind a piece of text -/
def after (p : Position) (cs : List Char) : Position := cs.foldl next p

@[simp] theorem after_nil (p : Position) : p.after [] = p := rfl

@[simp] theorem after_cons (p : Position) (c : Char) (cs : List Char) :
    p.after (c :: cs) = (p.next c).after cs := rfl

theorem after_append (p : Position) (a b : List Char) :
    p.after (a ++ b) = (p.after a).after b := List.foldl_append

theorem le_iff {p q : Position} :
    p ≤ q ↔ p.line < q.line ∨ p.line = q.line ∧ p.column ≤ q.column := Iff.rfl

theorem min_def (p q : Position) : min p q = if p ≤ q then p else q := rfl
theorem max_def (p q : Position) : max p q = if p ≤ q then q else p := rfl

end Position

structure Span where
  first : Position
  last : Position
deriving DecidableEq, Inhabited

namespace Span

/-- the span of a single position -/
def point (p : Position) : Span := ⟨p, p⟩

/-- the span from a position up to the column in front of another one; no column is below `1` -/
def upTo (start stop : Position) : Span := ⟨start, stop.line, max (stop.column - 1) 1⟩

/-- the smallest span over two others -/
def merge (s t : Span) : Span := ⟨min s.first t.first, max s.last t.last⟩

/-- a span is shown by where it starts -/
def text (s : Span) : String := toString s.first.line ++ ":" ++ toString s.first.column

@[simp] theorem merge_first (s t : Span) : (s.merge t).first = min s.first t.first := rfl
@[simp] theorem merge_last (s t : Span) : (s.merge t).last = max s.last t.last := rfl

end Span

end Wattle
