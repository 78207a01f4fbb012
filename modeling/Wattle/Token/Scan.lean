import Wattle.Diagnostic

/-!
# From text to tokens

A text is a row of tokens with gaps before, between and behind them.  A gap is made of blanks and
comments, a comment runs from `//` up to the end of its line, and a token is the longest spelling
at its place.  `splitGap` and `scan?` cut the two off the front of a text; neither loses a
character (`splitGap_append`, `scan?_append`).  `scanTokens` alternates them, and stops at the
first character that starts neither.
-/

namespace Wattle

/-! ### gaps -/

def isBlank (c : Char) : Bool := c == ' ' || c == '\t' || c == '\r' || c == '\n'

/-- whether a comment is open behind `c`, with `none` where `c` ends the gap -/
def gapStep (inComment : Bool) (c : Char) (rest : List Char) : Option Bool :=
  if inComment then some (c != '\n')
  else if isBlank c then some false
  else if c == '/' && rest.head? == some '/' then some true
  else none

/-- the gap at the front of a text, and what follows it -/
def splitGap (inComment : Bool) : List Char → List Char × List Char
  | [] => ([], [])
  | c :: cs =>
    match gapStep inComment c cs with
    | none => ([], c :: cs)
    | some inside => (c :: (splitGap inside cs).1, (splitGap inside cs).2)

theorem splitGap_append (inComment : Bool) (cs : List Char) :
    (splitGap inComment cs).1 ++ (splitGap inComment cs).2 = cs := by
  induction cs generalizing inComment with
  | nil => rfl
  | cons c cs ih =>
    simp only [splitGap]
    split
    · rfl
    · next b _ => simpa using ih b

/-! ### spellings -/

/-- a run of digits, with a fraction if a point and one more digit follow -/
def splitNumber (cs : List Char) : List Char × List Char :=
  match cs.dropWhile Char.isDigit with
  | '.' :: d :: rest =>
    if d.isDigit then
      (cs.takeWhile Char.isDigit ++ '.' :: d :: rest.takeWhile Char.isDigit,
        rest.dropWhile Char.isDigit)
    else (cs.takeWhile Char.isDigit, '.' :: d :: rest)
  | rest => (cs.takeWhile Char.isDigit, rest)

def isWordStart (c : Char) : Bool := c.isAlpha || c == '_'
def isWordPart (c : Char) : Bool := c.isAlphanum || c == '_'

/-- the longest symbol at the front of a text; a slash before a slash opens a comment -/
def splitSymbol? : List Char → Option (Symbol × List Char)
  | '=' :: '=' :: rest => some (.equal, rest)
  | '!' :: '=' :: rest => some (.notEqual, rest)
  | '<' :: '=' :: rest => some (.lessEqual, rest)
  | '>' :: '=' :: rest => some (.greaterEqual, rest)
  | '=' :: rest => some (.assign, rest)
  | '<' :: rest => some (.less, rest)
  | '>' :: rest => some (.greater, rest)
  | '+' :: rest => some (.plus, rest)
  | '-' :: rest => some (.minus, rest)
  | '*' :: rest => some (.star, rest)
  | '/' :: rest => some (.slash, rest)
  | '(' :: rest => some (.leftParen, rest)
  | ')' :: rest => some (.rightParen, rest)
  | '{' :: rest => some (.leftBrace, rest)
  | '}' :: rest => some (.rightBrace, rest)
  | ',' :: rest => some (.comma, rest)
  | ':' :: rest => some (.colon, rest)
  | ';' :: rest => some (.semicolon, rest)
  | _ => none

/-- the longest spelling at the front of a text, as a kind of token, and what follows it -/
def scan? : List Char → Option (TokenKind × List Char)
  | [] => none
  | c :: cs =>
    if c.isDigit then
      some (.number (String.ofList (splitNumber (c :: cs)).1), (splitNumber (c :: cs)).2)
    else if isWordStart c then
      some (.ofWord (String.ofList (c :: cs.takeWhile isWordPart)), cs.dropWhile isWordPart)
    else
      match splitSymbol? (c :: cs) with
      | some (sign, rest) => some (.symbol sign, rest)
      | none => none

theorem splitNumber_append (cs : List Char) : (splitNumber cs).1 ++ (splitNumber cs).2 = cs := by
  have h := List.takeWhile_append_dropWhile (p := Char.isDigit) (l := cs)
  unfold splitNumber
  split
  · next d rest e =>
    have hr := List.takeWhile_append_dropWhile (p := Char.isDigit) (l := rest)
    rw [e] at h
    split
    · simp [hr, h]
    · exact h
  · exact h

theorem splitSymbol?_append {cs rest : List Char} {sign : Symbol}
    (h : splitSymbol? cs = some (sign, rest)) : sign.text.toList ++ rest = cs := by
  unfold splitSymbol? at h
  split at h <;> first | (cases h; rfl) | simp at h

theorem scan?_append {cs rest : List Char} {kind : TokenKind} (h : scan? cs = some (kind, rest)) :
    kind.text.toList ++ rest = cs := by
  unfold scan? at h
  split at h
  · simp at h
  · next c cs =>
    split at h
    · obtain ⟨rfl, rfl⟩ : _ ∧ _ := by simpa using h
      simpa [TokenKind.text] using splitNumber_append (c :: cs)
    · split at h
      · cases h
        simp [List.takeWhile_append_dropWhile]
      · split at h
        · next e =>
          cases h
          exact splitSymbol?_append e
        · simp at h

theorem splitNumber_ne_nil {c : Char} {cs : List Char} (h : c.isDigit) :
    (splitNumber (c :: cs)).1 ≠ [] := by
  have hd : (c :: cs).takeWhile Char.isDigit = c :: cs.takeWhile Char.isDigit := by simp [h]
  unfold splitNumber
  split
  · split <;> simp [hd]
  · simp [hd]

theorem scan?_text_ne {cs rest : List Char} {kind : TokenKind} (h : scan? cs = some (kind, rest)) :
    kind.text.toList ≠ [] := by
  unfold scan? at h
  split at h
  · simp at h
  · next c cs =>
    split at h
    · next hd =>
      obtain ⟨rfl, rfl⟩ : _ ∧ _ := by simpa using h
      simpa [TokenKind.text] using splitNumber_ne_nil hd
    · split at h
      · cases h
        simp
      · split at h
        · next sign _ _ =>
          cases h
          cases sign <;> decide
        · simp at h

theorem scan?_length {cs rest : List Char} {kind : TokenKind} (h : scan? cs = some (kind, rest)) :
    rest.length < cs.length := by
  have hl := congrArg List.length (scan?_append h)
  have hp := List.length_pos_iff.2 (scan?_text_ne h)
  rw [List.length_append] at hl
  omega

theorem splitGap_length (inComment : Bool) (cs : List Char) :
    (splitGap inComment cs).2.length ≤ cs.length := by
  have hl := congrArg List.length (splitGap_append inComment cs)
  rw [List.length_append] at hl
  omega

/-! ### the tokens of a text -/

/-- the tokens of a text that starts at a position, with the end of the file as the last one -/
def scanTokens (p : Position) (cs : List Char) : Except Fault (List Token) :=
  let start := p.after (splitGap false cs).1
  match _h : (splitGap false cs).2 with
  | [] => .ok [.eof start]
  | c :: rest =>
    match _h' : scan? (c :: rest) with
    | none => .error ⟨.unexpectedCharacter c, .point start⟩
    | some (kind, rest') =>
      match scanTokens (start.after kind.text.toList) rest' with
      | .error fault => .error fault
      | .ok tokens => .ok (.placed kind start :: tokens)
termination_by cs.length
decreasing_by
  have h1 := splitGap_length false cs
  have h2 := scan?_length _h'
  rw [_h] at h1
  omega

/-- the tokens of a file, or its first character that starts none -/
def SourceFile.tokens (file : SourceFile) : Except Fault (List Token) :=
  scanTokens .origin file.text.toList

end Wattle
