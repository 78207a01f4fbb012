import Wattle.Json.Options
import Wattle.Proofs.Json.RoundTrip

/-!
# Options are read by content

Which documents are options, and which options they are, said of the value of a text and not of the
text: `CompileOptions.Accepted` and `CompileOptions.given`.  Blanks, escapes, the order of the
members and members with other keys have no part in it (`CompileOptions.read?_by_content`).

The keys of the two objects are texts.  In a value that is passed over the strings and the keys may
have any escapes, also such as denote no text.
-/

namespace Wattle

namespace Json

/-! ### members -/

/-- a part of a value: the member with a key of an object, the item at a place of an array -/
def part? (key : String) (place : Nat) : Json → Option Json
  | object members => members.lookup (some key)
  | array items => items[place]?
  | _ => none

/-- whether a part of a value is `true` -/
def isOn (key : String) (place : Nat) (j : Json) : Bool :=
  match j.part? key place with
  | some (bool b) => b
  | _ => false

/-- a key that occurs at most once, with a boolean -/
structure IsSwitch (key : String) (ms : List (String × Json)) : Prop where
  once : (ms.map Prod.fst).count key ≤ 1
  boolean : ∀ value, (key, value) ∈ ms → ∃ b, value = bool b

/-- the members of a record as the reader has them -/
def fields (ms : List (String × Json)) : List (Option String × Json) :=
  ms.map fun m => (some m.1, m.2)

section
variable {key : String} {ms : List (String × Json)}

theorem all_fields (ms : List (String × Json)) : (fields ms).all (·.1.isSome) = true := by
  simp [fields]

/-- if every key of an object is a text, it is a record -/
theorem exists_fields {members : List (Option String × Json)}
    (h : members.all (·.1.isSome) = true) : ∃ ms, members = fields ms := by
  induction members with
  | nil => exact ⟨[], rfl⟩
  | cons m members ih =>
    obtain ⟨key, value⟩ := m
    rw [List.all_cons, Bool.and_eq_true] at h
    obtain ⟨key, rfl⟩ := Option.isSome_iff_exists.1 h.1
    obtain ⟨ms, rfl⟩ := ih h.2
    exact ⟨(key, value) :: ms, rfl⟩

theorem mem_values {value : Json} : value ∈ values key (fields ms) ↔ (key, value) ∈ ms := by
  simp [values, fields]

theorem length_values : (values key (fields ms)).length = (ms.map Prod.fst).count key := by
  induction ms with
  | nil => rfl
  | cons m ms ih => by_cases h : m.1 = key <;> simp_all [values, fields]

theorem head?_values : (values key (fields ms)).head? = (fields ms).lookup (some key) := by
  induction ms with
  | nil => rfl
  | cons m ms ih =>
    by_cases h : m.1 = key
    · simp [values, fields, h]
    · have hkey : (key == m.1) = false := beq_false_of_ne fun heq => h heq.symm
      simpa [values, fields, List.lookup_cons, h, hkey] using ih

theorem switch?_eq_some_iff (place : Nat) {b : Bool} : switch? key (fields ms) = some b ↔
    IsSwitch key ms ∧ b = (record ms).isOn key place := by
  have hpart : (record ms).part? key place = (values key (fields ms)).head? := head?_values.symm
  have hswitch : IsSwitch key ms ↔ (values key (fields ms)).length ≤ 1 ∧
      ∀ value ∈ values key (fields ms), ∃ b, value = bool b := by
    simp only [length_values, mem_values]
    exact ⟨fun h => ⟨h.once, h.boolean⟩, fun h => ⟨h.1, h.2⟩⟩
  rw [isOn, hpart, hswitch, switch?]
  generalize values key (fields ms) = vs
  match vs with
  | [] => simp [eq_comm]
  | [bool b'] => simp [eq_comm]
  | [null] | [number _] | [string _] | [array _] | [object _] => simp
  | _ :: _ :: _ => simp

end

/-! ### rearranged members -/

/-- the members of an object in another order, with more or fewer members whose keys are not
known -/
inductive Rearranged (known : List String) : List (String × Json) → List (String × Json) → Prop
  | perm {ms ms'} (h : ms.Perm ms') : Rearranged known ms ms'
  | add {key value ms} (h : key ∉ known) : Rearranged known ms ((key, value) :: ms)
  | remove {key value ms} (h : key ∉ known) : Rearranged known ((key, value) :: ms) ms
  | trans {ms ms' ms''} (h : Rearranged known ms ms') (h' : Rearranged known ms' ms'') :
      Rearranged known ms ms''

section
variable {known : List String} {key : String} {ms ms' : List (String × Json)}

/-- a known key has the same values, maybe in another order -/
theorem Rearranged.values_perm (h : Rearranged known ms ms') (hkey : key ∈ known) :
    (values key (fields ms)).Perm (values key (fields ms')) := by
  induction h with
  | perm h => exact (h.map _).filterMap _
  | @add other _ _ hother =>
    have hne : other ≠ key := fun heq => hother (heq ▸ hkey)
    simp [values, fields, hne]
  | @remove other _ _ hother =>
    have hne : other ≠ key := fun heq => hother (heq ▸ hkey)
    simp [values, fields, hne]
  | trans _ _ ih ih' => exact ih.trans ih'

/-- rows in another order are the same unless they have two entries -/
theorem perm_cases {vs vs' : List Json} (h : vs.Perm vs') :
    vs = vs' ∨ ∃ v w more v' w' more', vs = v :: w :: more ∧ vs' = v' :: w' :: more' := by
  have hlength := h.length_eq
  match vs, vs' with
  | [], _ => exact .inl h.nil_eq
  | [_], _ => exact .inl h.singleton_eq
  | _ :: _ :: _, [] | _ :: _ :: _, [_] => simp at hlength
  | v :: w :: more, v' :: w' :: more' => exact .inr ⟨v, w, more, v', w', more', rfl, rfl⟩

theorem switch?_of_two {members : List (Option String × Json)} {v w : Json} {more : List Json}
    (h : values key members = v :: w :: more) : switch? key members = none := by
  rw [switch?, h]
  cases v <;> rfl

theorem Rearranged.switch?_eq (h : Rearranged known ms ms') (hkey : key ∈ known) :
    switch? key (fields ms) = switch? key (fields ms') := by
  obtain heq | ⟨v, w, more, v', w', more', hvs, hvs'⟩ := perm_cases (h.values_perm hkey)
  · rw [switch?, switch?, heq]
  · rw [switch?_of_two hvs, switch?_of_two hvs']

end

end Json

/-! ### the switches -/

namespace EmitOptions

/-- the names of the switches, in their order -/
def names : List String :=
  ["drop_expression_values", "hoist_nested_locals", "convert_mixed_operands"]

/-- the values that stand for switches: an object in which each name occurs at most once, with a
boolean, or an array of at most three booleans -/
inductive Accepted : Json → Prop
  | object {ms} (hswitch : ∀ key ∈ names, Json.IsSwitch key ms) : Accepted (.record ms)
  | array {switches : List Bool} (hlength : switches.length ≤ 3) :
      Accepted (.array (switches.map .bool))

/-- the switches that a value gives; one that it does not give is off -/
def given (j : Json) : EmitOptions :=
  ⟨j.isOn "drop_expression_values" 0, j.isOn "hoist_nested_locals" 1,
    j.isOn "convert_mixed_operands" 2⟩

section
variable {ms : List (String × Json)} {o : EmitOptions}

theorem ofJson?_record (ms : List (String × Json)) : ofJson? (.record ms) = (do
    let drop ← Json.switch? "drop_expression_values" (Json.fields ms)
    let hoist ← Json.switch? "hoist_nested_locals" (Json.fields ms)
    let convert ← Json.switch? "convert_mixed_operands" (Json.fields ms)
    some ⟨drop, hoist, convert⟩) := by
  rw [Json.record, ofJson?]
  exact if_pos (Json.all_fields ms)

theorem ofJson?_record_eq_some_iff :
    ofJson? (.record ms) = some o ↔
      (∀ key ∈ names, Json.IsSwitch key ms) ∧ o = given (.record ms) := by
  simp only [ofJson?_record, Option.bind_eq_bind, Option.bind_eq_some_iff, Option.some.injEq]
  constructor
  · rintro ⟨drop, hdrop, hoist, hhoist, convert, hconvert, rfl⟩
    obtain ⟨h₀, rfl⟩ := (Json.switch?_eq_some_iff 0).1 hdrop
    obtain ⟨h₁, rfl⟩ := (Json.switch?_eq_some_iff 1).1 hhoist
    obtain ⟨h₂, rfl⟩ := (Json.switch?_eq_some_iff 2).1 hconvert
    exact ⟨by simp [names, h₀, h₁, h₂], rfl⟩
  · rintro ⟨hswitch, rfl⟩
    have hread (place : Nat) {key : String} (hkey : key ∈ names) :
        Json.switch? key (Json.fields ms) = some ((Json.record ms).isOn key place) :=
      (Json.switch?_eq_some_iff place).2 ⟨hswitch key hkey, rfl⟩
    exact ⟨_, hread 0 (by decide), _, hread 1 (by decide), _, hread 2 (by decide), rfl⟩

theorem ofJson?_eq_some_iff {j : Json} : ofJson? j = some o ↔ Accepted j ∧ o = given j := by
  constructor
  · intro h
    unfold ofJson? at h
    split at h
    · next members =>
      split at h
      · next hall =>
        obtain ⟨ms, rfl⟩ := Json.exists_fields hall
        have hread : ofJson? (.record ms) = some o := (if_pos hall).trans h
        obtain ⟨hswitch, rfl⟩ := ofJson?_record_eq_some_iff.1 hread
        exact ⟨.object hswitch, rfl⟩
      · cases h
    · cases h
      exact ⟨@Accepted.array [] (by decide), rfl⟩
    · next drop =>
      cases h
      exact ⟨@Accepted.array [drop] (by simp), rfl⟩
    · next drop hoist =>
      cases h
      exact ⟨@Accepted.array [drop, hoist] (by simp), rfl⟩
    · next drop hoist convert =>
      cases h
      exact ⟨@Accepted.array [drop, hoist, convert] (by simp), rfl⟩
    · cases h
  · rintro ⟨hswitch | hlength, rfl⟩
    · exact ofJson?_record_eq_some_iff.2 ⟨hswitch, rfl⟩
    · next switches =>
      match switches with
      | [] | [_] | [_, _] | [_, _, _] => rfl
      | _ :: _ :: _ :: _ :: _ =>
        simp only [List.length_cons] at hlength
        omega

theorem ofJson?_rearranged {ms ms' : List (String × Json)} (h : Json.Rearranged names ms ms') :
    ofJson? (.record ms) = ofJson? (.record ms') := by
  have hswitch {key : String} (hkey : key ∈ names) := h.switch?_eq hkey
  rw [ofJson?_record, ofJson?_record, hswitch (by decide), hswitch (by decide),
    hswitch (by decide)]

end

end EmitOptions

/-! ### the options -/

namespace CompileOptions

/-- the values that stand for options: an object in which the group of switches occurs at most
once, or an array of at most that group -/
inductive Accepted : Json → Prop
  | object {ms} (hlength : (ms.map Prod.fst).count "codegen" ≤ 1)
      (hgroup : ∀ value, ("codegen", value) ∈ ms → EmitOptions.Accepted value) :
      Accepted (.record ms)
  | array {items} (hlength : items.length ≤ 1)
      (hgroup : ∀ item ∈ items, EmitOptions.Accepted item) : Accepted (.array items)

/-- the options that a value gives; without its group every switch is off -/
def given (j : Json) : CompileOptions :=
  ⟨(j.part? "codegen" 0).elim .plain EmitOptions.given⟩

/-- the options of the values that stand for the group -/
def ofGroups? : List Json → Option CompileOptions
  | [] => some plain
  | [codegen] => (EmitOptions.ofJson? codegen).map CompileOptions.mk
  | _ => none

theorem ofJson?_record (ms : List (String × Json)) :
    ofJson? (.record ms) = ofGroups? (Json.values "codegen" (Json.fields ms)) := by
  rw [Json.record, ofJson?]
  exact if_pos (Json.all_fields ms)

theorem ofJson?_array (items : List Json) : ofJson? (.array items) = ofGroups? items := by
  match items with
  | [] | [_] | _ :: _ :: _ => rfl

section
variable {j : Json} {o : CompileOptions}

theorem ofGroups?_eq_some_iff {groups : List Json} : ofGroups? groups = some o ↔
    (groups.length ≤ 1 ∧ ∀ group ∈ groups, EmitOptions.Accepted group) ∧
      o = ⟨groups.head?.elim .plain EmitOptions.given⟩ := by
  match groups with
  | [] => simp [ofGroups?, plain, eq_comm]
  | [group] =>
    obtain ⟨codegen⟩ := o
    simp [ofGroups?, EmitOptions.ofJson?_eq_some_iff]
  | _ :: _ :: _ => simp [ofGroups?]

theorem exists_of_ofJson? (h : ofJson? j = some o) :
    (∃ ms, j = .record ms) ∨ ∃ items, j = .array items := by
  unfold ofJson? at h
  split at h
  · next members =>
    split at h
    · next hall =>
      obtain ⟨ms, rfl⟩ := Json.exists_fields hall
      exact .inl ⟨ms, rfl⟩
    · cases h
  · exact .inr ⟨_, rfl⟩
  · exact .inr ⟨_, rfl⟩
  · cases h

theorem ofJson?_eq_some_iff : ofJson? j = some o ↔ Accepted j ∧ o = given j := by
  constructor
  · intro h
    obtain ⟨ms, rfl⟩ | ⟨items, rfl⟩ := exists_of_ofJson? h
    · rw [ofJson?_record, ofGroups?_eq_some_iff, Json.length_values, Json.head?_values] at h
      obtain ⟨⟨hlength, hgroup⟩, ho⟩ := h
      exact ⟨.object hlength fun value hvalue => hgroup value (Json.mem_values.2 hvalue), ho⟩
    · rw [ofJson?_array, ofGroups?_eq_some_iff, List.head?_eq_getElem?] at h
      obtain ⟨⟨hlength, hgroup⟩, ho⟩ := h
      exact ⟨.array hlength hgroup, ho⟩
  · rintro ⟨⟨hlength, hgroup⟩ | ⟨hlength, hgroup⟩, rfl⟩
    · rw [ofJson?_record, ofGroups?_eq_some_iff, Json.length_values, Json.head?_values]
      exact ⟨⟨hlength, fun value hvalue => hgroup value (Json.mem_values.1 hvalue)⟩, rfl⟩
    · rw [ofJson?_array, ofGroups?_eq_some_iff, List.head?_eq_getElem?]
      exact ⟨⟨hlength, hgroup⟩, rfl⟩

end

/-- options are decoded from the value that encodes them -/
theorem ofJson?_toJson (o : CompileOptions) : ofJson? o.toJson = some o := by
  rfl

/-- the same document up to the order of the members, and up to members that are not known, of the
object and of the group -/
inductive Rearranged : Json → Json → Prop
  | members {ms ms'} (h : Json.Rearranged ["codegen"] ms ms') :
      Rearranged (.record ms) (.record ms')
  | group {ms ms' before after} (h : Json.Rearranged EmitOptions.names ms ms') :
      Rearranged (.record (before ++ ("codegen", .record ms) :: after))
        (.record (before ++ ("codegen", .record ms') :: after))
  | item {ms ms'} (h : Json.Rearranged EmitOptions.names ms ms') :
      Rearranged (.array [.record ms]) (.array [.record ms'])
  | trans {j j' j''} (h : Rearranged j j') (h' : Rearranged j' j'') : Rearranged j j''

theorem ofGroups?_congr {group group' : Json} {before after : List Json}
    (h : EmitOptions.ofJson? group = EmitOptions.ofJson? group') :
    ofGroups? (before ++ group :: after) = ofGroups? (before ++ group' :: after) := by
  match before, after with
  | [], [] => simp only [List.nil_append, ofGroups?, h]
  | [], _ :: _ | [_], _ | _ :: _ :: _, _ => rfl

theorem Rearranged.ofJson?_eq {j j' : Json} (h : Rearranged j j') : ofJson? j = ofJson? j' := by
  induction h with
  | members h =>
    rw [ofJson?_record, ofJson?_record]
    obtain heq | ⟨v, w, more, v', w', more', hvs, hvs'⟩ :=
      Json.perm_cases (h.values_perm (List.mem_singleton_self "codegen"))
    · rw [heq]
    · rw [hvs, hvs']
      rfl
  | @group ms ms' before after h =>
    have hvalues (group : Json) :
        Json.values "codegen" (Json.fields (before ++ ("codegen", group) :: after)) =
          Json.values "codegen" (Json.fields before) ++
            group :: Json.values "codegen" (Json.fields after) := by
      simp [Json.values, Json.fields]
    rw [ofJson?_record, ofJson?_record, hvalues, hvalues]
    exact ofGroups?_congr (EmitOptions.ofJson?_rearranged h)
  | item h => exact @ofGroups?_congr _ _ [] [] (EmitOptions.ofJson?_rearranged h)
  | trans _ _ ih ih' => exact ih.trans ih'

/-! ### texts -/

theorem read?_of_spells {s : String} {j : Json} (h : Json.Spells s j) : read? s = ofJson? j := by
  rw [read?, Json.read?_eq_some_iff.2 h, Option.bind_some]

theorem wellFormed_toJson (o : CompileOptions) : o.toJson.WellFormed := by
  simp [toJson, EmitOptions.toJson]

/-- **Options are decoded by content.**  A text is accepted if and only if it spells a value that
stands for options, and the options are those that the value gives.  Blanks between the words do not
matter, nor does the order of the members, nor do members that are not known; and options are read
back from their text. -/
theorem read?_by_content :
    (∀ s o, read? s = some o ↔ ∃ j, Json.Spells s j ∧ Accepted j ∧ o = given j) ∧
    (∀ j row s s', Json.Spelled j row → Json.Spacing row s → Json.Spacing row s' →
      read? s = read? s') ∧
    (∀ j j' s s', Rearranged j j' → Json.Spells s j → Json.Spells s' j' → read? s = read? s') ∧
    ∀ o : CompileOptions, read? o.toJson.write = some o := by
  refine ⟨fun s o => ?_, fun j row s s' hrow hs hs' => ?_, fun j j' s s' h hs hs' => ?_,
    fun o => ?_⟩
  · simp only [read?, Option.bind_eq_some_iff, Json.read?_eq_some_iff, ofJson?_eq_some_iff]
  · rw [read?_of_spells ⟨row, hrow, hs⟩, read?_of_spells ⟨row, hrow, hs'⟩]
  · rw [read?_of_spells hs, read?_of_spells hs', h.ofJson?_eq]
  · rw [read?, Json.read?_write o.wellFormed_toJson, Option.bind_some, ofJson?_toJson]

/-- the words of a row with the same blanks in front of each -/
def spread (g : List Char) (row : List (List Char)) : String := String.ofList (row.flatMap (g ++ ·))

theorem spacing_spread {g : List Char} (hg : Json.Blank g) (row : List (List Char)) :
    Json.Spacing row (spread g row) := by
  refine ⟨[], ?_, nofun⟩
  rw [spread, String.toList_ofList]
  induction row with
  | nil => exact .nil
  | cons w row ih =>
    rw [List.flatMap_cons, List.append_assoc]
    exact .cons hg ih

/-- a member that is passed over, with a known name in it, in front of a group -/
def nested : List (String × Json) :=
  [("x", .record [("codegen", .array [.null])]),
    ("codegen", .record [("hoist_nested_locals", .bool true)])]

/-- their words, with an escape in the name of the group -/
def nestedRow : List (List Char) :=
  [['{'], '"' :: "x\"".toList, [':'], ['{'], '"' :: "codegen\"".toList, [':'], ['['],
    ['n', 'u', 'l', 'l'], [']'], ['}'], [','], '"' :: "\\u0063odegen\"".toList, [':'], ['{'],
    '"' :: "hoist_nested_locals\"".toList, [':'], ['t', 'r', 'u', 'e'], ['}'], ['}']]

theorem spelled_nestedRow : (Json.record nested).Spelled nestedRow := by
  have hword {s : String} {w : List Char} (h : Json.readString w = some (some s, [])) :
      Json.Quoted (some s) ('"' :: w) := Json.quoted_iff_readString.2 h
  have hx := @hword "x" "x\"".toList (by decide +kernel)
  have hcodegen := @hword "codegen" "codegen\"".toList (by decide +kernel)
  have hescaped := @hword "codegen" "\\u0063odegen\"".toList (by decide +kernel)
  have hhoist := @hword "hoist_nested_locals" "hoist_nested_locals\"".toList (by decide +kernel)
  exact .object (.next hx (.object (.last hcodegen (.array (.last .null))))
    (.last hescaped (.object (.last hhoist .true))))

theorem accepted_nested : Accepted (.record nested) := by
  refine .object (by decide) fun value hvalue => ?_
  simp only [nested, List.mem_cons, Prod.mk.injEq, List.not_mem_nil, or_false] at hvalue
  obtain ⟨h, -⟩ | ⟨-, rfl⟩ := hvalue
  · exact absurd h (by decide)
  · refine .object fun key hkey => ⟨?_, fun value hvalue => ?_⟩
    · simp only [EmitOptions.names, List.mem_cons, List.not_mem_nil, or_false] at hkey
      rcases hkey with rfl | rfl | rfl <;> decide
    · simp only [List.mem_cons, Prod.mk.injEq, List.not_mem_nil, or_false] at hvalue
      exact ⟨true, hvalue.2⟩

/-- two spacings of one document, and the text of the group alone -/
theorem read?_by_content_nested :
    read? (spread [' '] nestedRow) = some ⟨⟨false, true, false⟩⟩ ∧
      read? (spread [' '] nestedRow) = read? (spread ['\n', '\t'] nestedRow) ∧
      read? (spread [' '] nestedRow) = read? (Json.record nested.tail).write ∧
      read? (toJson ⟨.strict⟩).write = some ⟨.strict⟩ := by
  have hspacing := spacing_spread (g := [' ']) (by decide) nestedRow
  have hspells : Json.Spells (spread [' '] nestedRow) (.record nested) :=
    ⟨_, spelled_nestedRow, hspacing⟩
  have hwritten : Json.Spells (Json.record nested.tail).write (.record nested.tail) :=
    Json.read?_eq_some_iff.1 (Json.read?_write (by simp [nested]))
  obtain ⟨haccept, hblank, hrearranged, hread⟩ := read?_by_content
  refine ⟨(haccept _ _).2 ⟨_, hspells, accepted_nested, by rfl⟩, ?_, ?_, hread ⟨.strict⟩⟩
  · exact hblank _ _ _ _ spelled_nestedRow hspacing (spacing_spread (by decide) nestedRow)
  · exact hrearranged _ _ _ _ (.members (.remove (by decide))) hspells hwritten

end CompileOptions

end Wattle
