import Steward.Path
import Steward.Text.Lines

/-!
# Source languages

The language of a file follows from its extension. It says where a line comment starts and which
fixes there are.
-/

namespace Steward

open Text (Line)

inductive Language where
  | python
  /-- JavaScript, TypeScript and the component formats built on them. -/
  | script
  | ruby
  | php
  | go
  | shell
  | rust
  /-- C and C++, sources and headers. -/
  | cFamily
  /-- Java, Kotlin and Scala. -/
  | jvm
  | cSharp
  | swift
  | other
deriving DecidableEq, Repr

/-- How a language writes line comments and string literals. -/
structure CommentSyntax where
  /-- `#` opens a comment. -/
  hash : Bool
  /-- `//` opens a comment. -/
  slash : Bool
  /-- The characters that open a string literal, each closed by itself. -/
  quotes : List Char
  /-- `'` opens a character literal if it is closed after one character. -/
  charLiterals : Bool
deriving DecidableEq, Repr

namespace Language

def all : List Language :=
  [python, script, ruby, php, go, shell, rust, cFamily, jvm, cSharp, swift, other]

def name : Language → String
  | python => "Python"
  | script => "Script"
  | ruby => "Ruby"
  | php => "Php"
  | go => "Go"
  | shell => "Shell"
  | rust => "Rust"
  | cFamily => "C"
  | jvm => "Jvm"
  | cSharp => "CSharp"
  | swift => "Swift"
  | other => "Other"

def ofName? (s : String) : Option Language := all.find? (·.name = s)

/-- The language of files with a lowercase extension. -/
def ofExtension (ext : String) : Language :=
  if ["py", "pyw"].contains ext then python
  else if ["js", "jsx", "mjs", "cjs", "ts", "tsx", "vue", "svelte"].contains ext then script
  else if ext = "rb" then ruby
  else if ext = "php" then php
  else if ext = "go" then go
  else if ["sh", "bash"].contains ext then shell
  else if ext = "rs" then rust
  else if ["c", "h", "cpp", "cc", "cxx", "hpp"].contains ext then cFamily
  else if ["java", "kt", "scala"].contains ext then jvm
  else if ext = "cs" then cSharp
  else if ext = "swift" then swift
  else other

/-- The language of a file, from the extension of its name in any case. -/
def ofPath (p : Path) : Language := ofExtension (Path.asciiLower (p.extension?.getD ""))

def commentSyntax : Language → CommentSyntax
  | python | ruby | shell => ⟨true, false, ['"', '\'', '\x60'], false⟩
  | script | go | cFamily | jvm | cSharp => ⟨false, true, ['"', '\'', '\x60'], false⟩
  | rust => ⟨false, true, ['"'], true⟩
  | swift => ⟨false, true, ['"'], false⟩
  | php | other => ⟨true, true, ['"', '\'', '\x60'], false⟩

/-- The marker that comments out a whole line. -/
def lineComment (l : Language) : String := if l.commentSyntax.slash then "//" else "#"

/-- Whether a comment starts at the front of `c :: rest`. In PHP `#[` is no comment. -/
def opensComment (l : Language) (c : Char) (rest : List Char) : Bool :=
  (c = '#' && l.commentSyntax.hash && !(l = php && rest.head? = some '[')) ||
    (c = '/' && l.commentSyntax.slash && rest.head? = some '/')

/-- How many characters after a single quote still belong to a character literal, if it is one:
either one character and the closing quote, or a backslash, one ASCII character and everything up to
the next single quote. -/
def charLiteralTail? : List Char → Option Nat
  | '\\' :: c :: rest =>
    if c.toNat < 0x80 then (rest.idxOf? '\'').map (· + 3) else none
  | '\\' :: [] => none
  | _ :: '\'' :: _ => some 2
  | _ => none

/-- Where the lexer stands: in code once `n` more characters are passed over, in a literal closed by
`q`, or in one just after a backslash. -/
inductive LexState where
  | code (n : Nat)
  | quoted (q : Char)
  | escaped (q : Char)
deriving DecidableEq, Repr

/-- The index where a line comment starts, counting from `index`. -/
def commentFrom (l : Language) (index : Nat) : LexState → List Char → Option Nat
  | _, [] => none
  | .code (n + 1), _ :: rest => commentFrom l (index + 1) (.code n) rest
  | .code 0, c :: rest =>
    if c = '\'' && l.commentSyntax.charLiterals then
      commentFrom l (index + 1) (.code ((charLiteralTail? rest).getD 0)) rest
    else if l.commentSyntax.quotes.contains c then commentFrom l (index + 1) (.quoted c) rest
    else if l.opensComment c rest then some index
    else commentFrom l (index + 1) (.code 0) rest
  | .quoted q, c :: rest =>
    if c = '\\' then commentFrom l (index + 1) (.escaped q) rest
    else if c = q then commentFrom l (index + 1) (.code 0) rest
    else commentFrom l (index + 1) (.quoted q) rest
  | .escaped q, _ :: rest => commentFrom l (index + 1) (.quoted q) rest

/-- The index of the character that starts the line's comment, outside of literals. -/
def commentStart (l : Language) (line : Line) : Option Nat := l.commentFrom 0 (.code 0) line

end Language

end Steward
