/-!
# Lines

A text is a sequence of lines, each ended by `LF` or `CR LF`; the last may be unterminated. A `CR`
that no `LF` follows belongs to its line.
-/

namespace Steward.Text

/-- A line without its terminator. -/
abbrev Line := List Char

/-- The line read so far (last character first) once its `LF` is met: a `CR` before it goes too. -/
def endLine : List Char → Line
  | '\r' :: cs => cs.reverse
  | cs => cs.reverse

/-- The lines of a text, given the line under way and the lines before it, both last first. -/
def linesFrom (done : List Line) (current : List Char) : List Char → List Line
  | [] => if current.isEmpty then done.reverse else (current.reverse :: done).reverse
  | c :: cs =>
    if c = '\n' then linesFrom (endLine current :: done) [] cs
    else linesFrom done (c :: current) cs

/-- The lines of a text. -/
def lines (text : List Char) : List Line := linesFrom [] [] text

/-- The byte offset of the character at `index`. -/
def byteOffset (line : Line) (index : Nat) : Nat := (line.take index).foldl (fun n c => n + c.utf8Size) 0

end Steward.Text
