/-!
# Source files and their lines

`SourceFile.line` gives a line of the text by its number, from `1`.  Lines end at line feeds; the
carriage returns at the end of a line are not part of it.  A line is cut out of the text by the
offsets of its first byte and of its line feed.
-/

namespace Wattle

namespace Line

/-- the offsets of the bytes behind the line feeds of a text that starts at a given offset -/
def starts : Nat → List Char → List Nat
  | _, [] => []
  | offset, c :: cs =>
    if c = '\n' then (offset + 1) :: starts (offset + 1) cs else starts (offset + c.utf8Size) cs

/-- from where to where the bytes of the line at an index go, without its line feed -/
def range? (starts : List Nat) (size index : Nat) : Option (Nat × Nat) :=
  match starts[index]? with
  | none => none
  | some start =>
    match starts[index + 1]? with
    | some next => some (start, next - 1)
    | none => some (start, size)

/-- cuts a text in front of a byte; `none` past the end of the text and inside of a character -/
def cut? : Nat → List Char → Option (List Char × List Char)
  | 0, cs => some ([], cs)
  | _ + 1, [] => none
  | n + 1, c :: cs =>
    if n + 1 < c.utf8Size then none
    else (cut? (n + 1 - c.utf8Size) cs).map fun (a, b) => (c :: a, b)

/-- the characters from one byte up to another -/
def slice? (start stop : Nat) (cs : List Char) : Option (List Char) :=
  if stop < start then none
  else (cut? start cs).bind fun (_, behind) => (cut? (stop - start) behind).map Prod.fst

/-- the text without the carriage returns at its end -/
def trim (cs : List Char) : List Char := (cs.reverse.dropWhile (· = '\r')).reverse

end Line

/-- a text with the name that diagnostics give it -/
structure SourceFile where
  name : String
  text : String
deriving DecidableEq

namespace SourceFile

/-- the offsets of the first bytes of the lines -/
def lineStarts (file : SourceFile) : List Nat := 0 :: Line.starts 0 file.text.toList

/-- from where to where the bytes of the line of the given number go -/
def lineRange? (file : SourceFile) : Nat → Option (Nat × Nat)
  | 0 => none
  | n + 1 => Line.range? file.lineStarts file.text.utf8ByteSize n

/-- the line of the given number, from `1`; `none` past the last line and for `0` -/
def line (file : SourceFile) (n : Nat) : Option String :=
  match file.lineRange? n with
  | none => none
  | some (start, stop) =>
    (Line.slice? start stop file.text.toList).map fun cs => String.ofList (Line.trim cs)

end SourceFile

end Wattle
