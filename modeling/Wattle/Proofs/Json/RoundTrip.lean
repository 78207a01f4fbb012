import Wattle.Proofs.Json.Reading

/-!
# Values are read back

The text of a value determines the value.  It is one of its spellings, the one without blanks
(`spaced_put`), if its numbers are spelled as numbers; so the value is read back from it
(`read?_write`).  Nothing in the text is a control character (`printable_write`).
-/

namespace Wattle.Json

/-! ### values of other kinds -/

theorem nat?_nat (n : Nat) : (nat n).nat? = some n := by
  have hdigits : (toString n).toList = Nat.toDigits 10 n := Nat.toList_repr
  rw [nat, nat?, hdigits, if_pos (List.all_eq_true.2 isDigit_of_mem_toDigits),
    Nat.ofDigitChars_ten_toDigits]

@[simp] theorem nat_inj {m n : Nat} : nat m = nat n ↔ m = n := by
  refine ⟨fun h => ?_, congrArg nat⟩
  have hread := nat?_nat m
  rw [h, nat?_nat] at hread
  exact (Option.some.inj hread).symm

@[simp] theorem text_inj {s t : String} : text s = text t ↔ s = t := by
  simp [text]

@[simp] theorem record_inj {members members' : List (String × Json)} :
    record members = record members' ↔ members = members' := by
  refine ⟨fun h => ?_, congrArg record⟩
  refine (List.map_inj_right ?_).1 (Json.object.inj h)
  rintro ⟨key, value⟩ ⟨key', value'⟩ heq
  simpa using heq

/-! ### well-formed values -/

mutual

/-- every number in a value is spelled as one -/
def WellFormed : Json → Prop
  | number lexeme => IsNumber lexeme.toList
  | array items => ItemsWellFormed items
  | object members => MembersWellFormed members
  | _ => True

def ItemsWellFormed : List Json → Prop
  | [] => True
  | item :: items => item.WellFormed ∧ ItemsWellFormed items

def MemberWellFormed : Option String × Json → Prop
  | (_, value) => value.WellFormed

def MembersWellFormed : List (Option String × Json) → Prop
  | [] => True
  | member :: members => MemberWellFormed member ∧ MembersWellFormed members

end

section
variable {α : Type}

@[simp] theorem wellFormed_text (s : String) : (text s).WellFormed := trivial

@[simp] theorem wellFormed_bool (value : Bool) : (bool value).WellFormed := trivial

/-- the digits of a whole number have no zero in front -/
@[simp] theorem wellFormed_nat (n : Nat) : (nat n).WellFormed := by
  have hdigits : (toString n).toList = Nat.toDigits 10 n := Nat.toList_repr
  have hwhole : Nat.toDigits 10 n = ['0'] ∨
      IsDigits (Nat.toDigits 10 n) ∧ (Nat.toDigits 10 n).head? ≠ some '0' := by
    by_cases hn : n = 0
    · exact .inl (hn ▸ rfl)
    · exact .inr ⟨(shortest_toDigits n).isDigits, (shortest_toDigits n).head_ne hn⟩
  show IsNumber (toString n).toList
  rw [hdigits]
  simpa using IsNumber.intro (.inl rfl) hwhole (.inl rfl) (.inl rfl)

@[simp] theorem wellFormed_record (members : List (String × Json)) :
    (record members).WellFormed ↔ ∀ m ∈ members, m.2.WellFormed := by
  show MembersWellFormed (members.map fun m => (some m.1, m.2)) ↔ _
  induction members with
  | nil => simp [MembersWellFormed]
  | cons m members ih =>
    rw [List.map_cons, MembersWellFormed, MemberWellFormed, ih, List.forall_mem_cons]

@[simp] theorem wellFormed_array (items : List Json) :
    (array items).WellFormed ↔ ∀ item ∈ items, item.WellFormed := by
  show ItemsWellFormed items ↔ _
  induction items with
  | nil => simp [ItemsWellFormed]
  | cons item items ih => rw [ItemsWellFormed, ih, List.forall_mem_cons]

end

/-! ### what is written is a spelling -/

theorem spelled_escapeChar (c : Char) : (Piece.of c).Spelled (escapeChar c) := by
  obtain ⟨e, hc, he, hpiece⟩ | ⟨hlow, hc, hpiece⟩ | ⟨hlow, hquote, hslash, hc, hpiece⟩ :=
    escapeChar_cases c <;> rw [hc, hpiece]
  · exact .short he
  · exact .unit (unit?_digitChar _ hlow)
  · exact .plain hlow hquote hslash

theorem piecesSpelled_escape (cs : List Char) : PiecesSpelled (cs.map .of) (escape cs) := by
  induction cs with
  | nil => exact .nil
  | cons c cs ih => exact .cons (spelled_escapeChar c) ih

theorem exists_quoted (text : Option String) (rest : List Char) :
    ∃ w, Quoted text w ∧ putString text rest = w ++ rest := by
  cases text with
  | none =>
    have hunit : unit? 'd' '8' '0' '0' = some 0xD800 := by decide
    have hjoin : joinPieces [.unit 0xD800] = none := by decide
    exact ⟨_, quoted_iff.2 ⟨_, _, .cons (.unit hunit) .nil, rfl, by rw [hjoin]; rfl⟩, rfl⟩
  | some s =>
    refine ⟨_, quoted_iff.2 ⟨_, _, piecesSpelled_escape s.toList, rfl, ?_⟩, ?_⟩
    · rw [joinPieces_map, Option.map_some, String.ofList_toList]
    · simp [putString]

mutual

/-- the compact text of a value is a spacing without blanks -/
theorem spaced_put : (j : Json) → j.WellFormed → ∀ rest,
    ∃ row, j.Spelled row ∧ Spaced row (j.put rest) rest
  | null, _, _ => ⟨_, .null, .word .nil⟩
  | bool true, _, _ => ⟨_, .true, .word .nil⟩
  | bool false, _, _ => ⟨_, .false, .word .nil⟩
  | number _, h, _ => ⟨_, .number h, .word .nil⟩
  | string text, _, rest => by
    obtain ⟨w, hw, hput⟩ := exists_quoted text rest
    rw [put, hput]
    exact ⟨_, .string hw, .word .nil⟩
  | array [], _, _ => ⟨_, .emptyArray, .word (.word .nil)⟩
  | array (item :: items), h, rest => by
    obtain ⟨row, hrow, hspaced⟩ := spaced_put item h.1 (putItems items rest)
    obtain ⟨rows, hrows, hspaced⟩ := spaced_putItems items h.2 hrow hspaced
    exact ⟨_, .array hrows, .word hspaced⟩
  | object [], _, _ => ⟨_, .emptyObject, .word (.word .nil)⟩
  | object ((key, value) :: members), h, rest => by
    obtain ⟨w, hw, hput⟩ := exists_quoted key (':' :: value.put (putMembers members rest))
    obtain ⟨row, hrow, hspaced⟩ := spaced_put value h.1 (putMembers members rest)
    obtain ⟨rows, hrows, hspaced⟩ := spaced_putMembers members h.2 hw hrow hspaced
    rw [put, putMember, hput]
    exact ⟨_, .object hrows, .word hspaced⟩

/-- a first item, and those behind it -/
theorem spaced_putItems : (items : List Json) → ItemsWellFormed items →
    ∀ {item row cs rest}, item.Spelled row → Spaced row cs (putItems items rest) →
      ∃ rows, ItemsSpelled (item :: items) rows ∧ Spaced (rows ++ [[']']]) cs rest
  | [], _, _, _, _, _, hrow, hspaced => ⟨_, .last hrow, hspaced.append (.word .nil)⟩
  | item :: items, h, _, _, _, rest, hrow, hspaced => by
    obtain ⟨row', hrow', hspaced'⟩ := spaced_put item h.1 (putItems items rest)
    obtain ⟨rows, hrows, hspaced'⟩ := spaced_putItems items h.2 hrow' hspaced'
    refine ⟨_, .next hrow hrows, ?_⟩
    rw [List.append_assoc]
    exact hspaced.append (.word hspaced')

/-- a first member, and those behind it -/
theorem spaced_putMembers : (members : List (Option String × Json)) → MembersWellFormed members →
    ∀ {key w value row cs rest}, Quoted key w → value.Spelled row →
      Spaced row cs (putMembers members rest) →
      ∃ rows, MembersSpelled ((key, value) :: members) rows ∧
        Spaced (rows ++ [['}']]) (w ++ ':' :: cs) rest
  | [], _, _, _, _, _, _, _, hkey, hrow, hspaced =>
    ⟨_, .last hkey hrow, .word (.word (hspaced.append (.word .nil)))⟩
  | (key, value) :: members, h, _, w, _, _, _, rest, hkey, hrow, hspaced => by
    obtain ⟨w', hw', hput⟩ := exists_quoted key (':' :: value.put (putMembers members rest))
    obtain ⟨row', hrow', hspaced'⟩ := spaced_put value h.1 (putMembers members rest)
    obtain ⟨rows, hrows, hspaced'⟩ := spaced_putMembers members h.2 hw' hrow' hspaced'
    rw [putMembers, putMember, hput] at hspaced
    refine ⟨_, .next hkey hrow hrows, ?_⟩
    have hrest := hspaced.append (.word (w := [',']) hspaced')
    simpa using Spaced.word (w := w) (.word (w := [':']) hrest)

end

/-- **What is written is read back.** -/
theorem read?_write {j : Json} (h : j.WellFormed) : read? j.write = some j := by
  obtain ⟨row, hrow, hspaced⟩ := spaced_put j h []
  refine read?_eq_some_iff.2 ⟨row, hrow, [], ?_, nofun⟩
  rwa [write, String.toList_ofList]

/-- well-formed values with one text are one value -/
theorem write_inj {j k : Json} (hj : j.WellFormed) (hk : k.WellFormed) (h : j.write = k.write) :
    j = k := by
  have hread := read?_write hj
  rw [h, read?_write hk] at hread
  exact (Option.some.inj hread).symm

/-- the value of a key in the text of an object -/
def member? (key : String) (s : String) : Option Json :=
  match read? s with
  | some (object members) => value? key members
  | _ => none

theorem member?_write {key : String} {j : Json} {members : List (Option String × Json)}
    (h : j.WellFormed) (hmembers : j = object members) :
    member? key j.write = value? key members := by
  rw [member?, read?_write h, hmembers]

/-! ### no control characters -/

mutual

theorem printable_put : (j : Json) → j.WellFormed → ∀ {rest}, Printable rest →
    Printable (j.put rest)
  | null, _, _, hrest => (show Printable ['n', 'u', 'l', 'l'] by decide).append hrest
  | bool true, _, _, hrest => (show Printable ['t', 'r', 'u', 'e'] by decide).append hrest
  | bool false, _, _, hrest => (show Printable ['f', 'a', 'l', 's', 'e'] by decide).append hrest
  | number _, h, _, hrest => h.printable.append hrest
  | string text, _, _, hrest => printable_putString text hrest
  | array [], _, _, hrest => (show Printable ['[', ']'] by decide).append hrest
  | array (item :: items), h, _, hrest =>
    .cons (by decide) (printable_put item h.1 (printable_putItems items h.2 hrest))
  | object [], _, _, hrest => (show Printable ['\x7b', '\x7d'] by decide).append hrest
  | object (member :: members), h, _, hrest =>
    .cons (by decide) (printable_putMember member h.1 (printable_putMembers members h.2 hrest))

theorem printable_putItems : (items : List Json) → ItemsWellFormed items → ∀ {rest},
    Printable rest → Printable (putItems items rest)
  | [], _, _, hrest => .cons (by decide) hrest
  | item :: items, h, _, hrest =>
    .cons (by decide) (printable_put item h.1 (printable_putItems items h.2 hrest))

theorem printable_putMember : (member : Option String × Json) → MemberWellFormed member →
    ∀ {rest}, Printable rest → Printable (putMember member rest)
  | (key, value), h, _, hrest =>
    printable_putString key (.cons (by decide) (printable_put value h hrest))

theorem printable_putMembers : (members : List (Option String × Json)) →
    MembersWellFormed members → ∀ {rest}, Printable rest → Printable (putMembers members rest)
  | [], _, _, hrest => .cons (by decide) hrest
  | member :: members, h, _, hrest =>
    .cons (by decide) (printable_putMember member h.1 (printable_putMembers members h.2 hrest))

end

theorem printable_write {j : Json} (h : j.WellFormed) : Printable j.write.toList := by
  rw [write, String.toList_ofList]
  exact printable_put j h nofun

end Wattle.Json
