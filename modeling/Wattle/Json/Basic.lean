/-!
# JSON values and their text

`Json` keeps what a document says in the order in which it says it: numbers as they are spelled,
members of objects with repetitions.  A string whose escapes name an unpaired surrogate denotes no
text.  `Json.write` is the compact text of a value, in which nothing is escaped that may stand for
itself.
-/

namespace Wattle

inductive Json where
  | null
  | bool (value : Bool)
  | number (lexeme : String)
  /-- a string, `none` where its escapes do not denote a text -/
  | string (text : Option String)
  | array (items : List Json)
  | object (members : List (Option String × Json))

namespace Json

/-! ### values of other kinds -/

def text (s : String) : Json := string (some s)
def nat (n : Nat) : Json := number (toString n)

/-- an object with the given members in the given order -/
def record (members : List (String × Json)) : Json :=
  object (members.map fun m => (some m.1, m.2))

/-- the encoding of a value, with `null` for none -/
def option {α : Type} (encode : α → Json) : Option α → Json
  | none => null
  | some a => encode a

/-! ### the text of a string -/

/-- the spelling of a character in a string -/
def escapeChar (c : Char) : List Char :=
  if c = '"' then ['\\', '"']
  else if c = '\\' then ['\\', '\\']
  else if c = '\x08' then ['\\', 'b']
  else if c = '\x0c' then ['\\', 'f']
  else if c = '\n' then ['\\', 'n']
  else if c = '\r' then ['\\', 'r']
  else if c = '\t' then ['\\', 't']
  else if c.toNat < 32 then
    ['\\', 'u', '0', '0', Nat.digitChar (c.toNat / 16), Nat.digitChar (c.toNat % 16)]
  else [c]

def escape (cs : List Char) : List Char := cs.flatMap escapeChar

/-- a string in quotes, before `rest`; one that denotes no text is written as a lone surrogate -/
def putString : Option String → List Char → List Char
  | some s, rest => '"' :: (escape s.toList ++ '"' :: rest)
  | none, rest => '"' :: '\\' :: 'u' :: 'd' :: '8' :: '0' :: '0' :: '"' :: rest

/-! ### the text of a value -/

mutual

/-- the text of a value, before `rest` -/
def put : Json → List Char → List Char
  | null, rest => 'n' :: 'u' :: 'l' :: 'l' :: rest
  | bool true, rest => 't' :: 'r' :: 'u' :: 'e' :: rest
  | bool false, rest => 'f' :: 'a' :: 'l' :: 's' :: 'e' :: rest
  | number lexeme, rest => lexeme.toList ++ rest
  | string text, rest => putString text rest
  | array [], rest => '[' :: ']' :: rest
  | array (item :: items), rest => '[' :: item.put (putItems items rest)
  | object [], rest => '{' :: '}' :: rest
  | object (member :: members), rest => '{' :: putMember member (putMembers members rest)

/-- the items behind a first one, with the closing bracket -/
def putItems : List Json → List Char → List Char
  | [], rest => ']' :: rest
  | item :: items, rest => ',' :: item.put (putItems items rest)

def putMember : Option String × Json → List Char → List Char
  | (key, value), rest => putString key (':' :: value.put rest)

/-- the members behind a first one, with the closing brace -/
def putMembers : List (Option String × Json) → List Char → List Char
  | [], rest => '}' :: rest
  | member :: members, rest => ',' :: putMember member (putMembers members rest)

end

/-- the compact text of a value -/
def write (j : Json) : String := String.ofList (j.put [])

end Json

end Wattle
