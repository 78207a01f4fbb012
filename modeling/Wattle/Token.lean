import Wattle.Span

/-!
# Tokens

A token is a kind with the span it was read from.  Numbers and identifiers carry their spelling;
`TokenKind.text` is the spelling of any kind, and it is what stands in the source, except that the
end of the file has a name in place of a spelling.
-/

namespace Wattle

/-- the reserved words -/
inductive Keyword where
  | functionWord | letWord | constWord | ifWord | elseWord | returnWord | intWord | doubleWord
deriving DecidableEq

namespace Keyword

def text : Keyword → String
  | functionWord => "function"
  | letWord => "let"
  | constWord => "const"
  | ifWord => "if"
  | elseWord => "else"
  | returnWord => "return"
  | intWord => "Int"
  | doubleWord => "Double"

/-- every reserved word, statement words before the names of types -/
def all : List Keyword :=
  [functionWord, letWord, constWord, ifWord, elseWord, returnWord, intWord, doubleWord]

/-- the reserved word with a given spelling; capitals matter -/
def ofText? (s : String) : Option Keyword := all.find? fun k => k.text == s

/-- where a word stands in `all` -/
def index? (s : String) : Option Nat := all.findIdx? fun k => k.text == s

theorem ofText?_text (k : Keyword) : ofText? k.text = some k := by cases k <;> decide

theorem text_of_ofText? {s : String} {k : Keyword} (h : ofText? s = some k) : k.text = s := by
  simpa using List.find?_some h

end Keyword

/-- operators and punctuation -/
inductive Symbol where
  | plus | minus | star | slash
  | assign | equal | notEqual | less | lessEqual | greater | greaterEqual
  | leftParen | rightParen | leftBrace | rightBrace | comma | colon | semicolon
deriving DecidableEq

def Symbol.text : Symbol → String
  | plus => "+"
  | minus => "-"
  | star => "*"
  | slash => "/"
  | assign => "="
  | equal => "=="
  | notEqual => "!="
  | less => "<"
  | lessEqual => "<="
  | greater => ">"
  | greaterEqual => ">="
  | leftParen => "("
  | rightParen => ")"
  | leftBrace => "\x7b"
  | rightBrace => "\x7d"
  | comma => ","
  | colon => ":"
  | semicolon => ";"

inductive TokenKind where
  | number (lexeme : String)
  | identifier (name : String)
  | keyword (word : Keyword)
  | symbol (sign : Symbol)
  | endOfFile
deriving DecidableEq

namespace TokenKind

def text : TokenKind → String
  | number lexeme => lexeme
  | identifier name => name
  | keyword word => word.text
  | symbol sign => sign.text
  | endOfFile => "end of file"

def isKeyword : TokenKind → Bool
  | keyword _ => true
  | _ => false

/-- a word is a keyword if it is reserved, and an identifier otherwise -/
def ofWord (s : String) : TokenKind :=
  match Keyword.ofText? s with
  | some word => keyword word
  | none => identifier s

@[simp] theorem text_ofWord (s : String) : (ofWord s).text = s := by
  unfold ofWord
  split
  · next h => exact Keyword.text_of_ofText? h
  · rfl

end TokenKind

structure Token where
  kind : TokenKind
  span : Span
deriving DecidableEq

namespace Token

/-- the token of a spelling that starts at a position, up to the place behind its characters -/
def placed (kind : TokenKind) (start : Position) : Token :=
  ⟨kind, .upTo start (start.after kind.text.toList)⟩

/-- the end of a file is a point -/
def eof (p : Position) : Token := ⟨.endOfFile, Span.point p⟩

end Token

end Wattle
