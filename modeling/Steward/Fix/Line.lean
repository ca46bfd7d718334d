import Steward.Detector

/-!
# Fixing a line

For each hazard and language the replacement that removes it, if there is one. All matches in allowed
places are replaced at once; `Fix.line?` gives the line after that.
-/

namespace Steward

open Text (Line)

/-- A line that a replacement depends on, such as an import, and other lines that do as well. -/
structure Preamble where
  line : String
  satisfiedBy : List String := []
deriving DecidableEq, Repr

namespace Fix

def importOs : Preamble := { line := "import os" }

def importAst : Preamble := { line := "import ast" }

def importShlex : Preamble := { line := "import shlex" }

def requireShellQuote : Preamble :=
  { line := "const \x7b quote \x7d = require('shell-quote');" }

def requireJson : Preamble := { line := "require 'json'", satisfiedBy := ["require \"json\""] }

def requireShellwords : Preamble :=
  { line := "require 'shellwords'", satisfiedBy := ["require \"shellwords\""] }

def importGoOs : Preamble := { line := "import \"os\"", satisfiedBy := ["\"os\""] }

def includeStdlib : Preamble :=
  { line := "#include <stdlib.h>", satisfiedBy := ["#include <cstdlib>"] }

def importFoundation : Preamble := { line := "import Foundation" }

/-- A piece of code and the preamble it needs. -/
abbrev Snippet := String × Option Preamble

/-- The expression that reads a variable of the environment, empty when it is not set. -/
def envLookup? (l : Language) (env : String) : Option Snippet :=
  match l with
  | .python => some ("os.environ.get(\"" ++ env ++ "\", \"\")", some importOs)
  | .script => some ("process.env." ++ env ++ " ?? \"\"", none)
  | .ruby => some ("ENV.fetch(\"" ++ env ++ "\", \"\")", none)
  | .php => some ("(getenv(\"" ++ env ++ "\") ?: \"\")", none)
  | .go => some ("os.Getenv(\"" ++ env ++ "\")", some importGoOs)
  | .shell => some ("$\x7b" ++ env ++ ":-\x7d", none)
  | .rust => some ("std::env::var(\"" ++ env ++ "\").unwrap_or_default()", none)
  | .cFamily => some ("getenv(\"" ++ env ++ "\")", some includeStdlib)
  | .jvm => some ("System.getenv().getOrDefault(\"" ++ env ++ "\", \"\")", none)
  | .cSharp => some ("(System.Environment.GetEnvironmentVariable(\"" ++ env ++ "\") ?? \"\")", none)
  | .swift =>
    some ("(ProcessInfo.processInfo.environment[\"" ++ env ++ "\"] ?? \"\")", some importFoundation)
  | .other => none

/-- The call that parses a literal in place of evaluating code. -/
def literalParser? : Language → Option Snippet
  | .python => some ("ast.literal_eval(", some importAst)
  | .script => some ("JSON.parse(", none)
  | .ruby => some ("JSON.parse(", some requireJson)
  | .php => some ("json_decode(", none)
  | _ => none

/-- The expression quoted for the shell. -/
def shellQuote? (l : Language) (var : String) : Option Snippet :=
  match l with
  | .python => some ("shlex.quote(" ++ var ++ ")", some importShlex)
  | .script => some ("quote([" ++ var ++ "])", some requireShellQuote)
  | .ruby => some ("Shellwords.escape(" ++ var ++ ")", some requireShellwords)
  | .php => some ("escapeshellarg(" ++ var ++ ")", none)
  | _ => none

/-- Whether a hazard can be fixed in a language. -/
def canFix (h : Hazard) (l : Language) : Bool :=
  match h with
  | .awsAccessKey => false
  | .hardcodedPassword | .hardcodedApiKey => (envLookup? l "").isSome
  | .dangerousEval => (literalParser? l).isSome
  | .commandInjection => (shellQuote? l "").isSome
  | .bareExcept | .consoleLog | .anyType | .todoComment => true

/-- The preamble that a hazard's replacement needs in a language. -/
def preamble? (h : Hazard) (l : Language) : Option Preamble :=
  match h with
  | .hardcodedPassword | .hardcodedApiKey => (envLookup? l "").bind (·.2)
  | .dangerousEval => (literalParser? l).bind (·.2)
  | .commandInjection => (shellQuote? l "").bind (·.2)
  | _ => none

/-- The environment variable for a name, given whether the character before was small or a digit:
a capital after such a character starts a new word. -/
def envNameFrom (afterSmall : Bool) : List Char → List Char
  | [] => []
  | c :: cs =>
    let rest := c.toUpper :: envNameFrom (c.isLower || c.isDigit) cs
    if c.isUpper && afterSmall then '_' :: rest else rest

/-- The environment variable for a name: `apiKey` becomes `API_KEY`. -/
def envName (name : String) : String := String.ofList (envNameFrom false name.toList)

/-- The text that goes in place of a span. -/
structure Edit where
  span : Span
  text : Line
deriving DecidableEq, Repr

namespace Edit

def apply (e : Edit) (line : Line) : Line :=
  line.take e.span.start ++ e.text ++ line.drop e.span.stop

end Edit

/-- What a marker in a comment becomes. -/
def closedMarker (marker : String) : String :=
  if marker = "TODO" then "✓ DONE" else if marker = "FIXME" then "✓ FIXED" else "✓ RESOLVED"

/-- The replacement of a group by a secret's lookup in the environment. -/
def secretEdit? (l : Language) (m : Match) (literal : Nat) (name : String) : Option Edit := do
  let span ← m.group? literal
  let (code, _) ← envLookup? l (envName name)
  return ⟨span, code.toList⟩

/-- The edit for one match. -/
def edit? (l : Language) (h : Hazard) (line : Line) (m : Match) : Option Edit :=
  match h with
  | .hardcodedPassword => secretEdit? l m 1 "password"
  | .hardcodedApiKey =>
    let name := ((m.group? 1).map fun s => String.ofList (s.text line)).getD "api_key"
    secretEdit? l m 2 name
  | .dangerousEval => (literalParser? l).map fun (call, _) => ⟨m.whole, call.toList⟩
  | .bareExcept => some ⟨m.whole, "except Exception as e:".toList⟩
  | .commandInjection => do
    let span ← m.group? 2
    let (code, _) ← shellQuote? l (String.ofList (span.text line))
    return ⟨span, code.toList⟩
  | .anyType => some ⟨m.whole, ": unknown".toList⟩
  | .todoComment => do
    let span ← m.group? 1
    return ⟨span, (closedMarker (String.ofList (span.text line))).toList⟩
  | .awsAccessKey | .consoleLog => none

/-- The edits of a line, left to right. -/
def edits (l : Language) (h : Hazard) (line : Line) : List Edit :=
  ((Detector.ofHazard h).placed l line).filterMap (edit? l h line)

/-- The line as a comment, keeping its indentation. -/
def commentOut (l : Language) (line : Line) : Line :=
  line.takeWhile Text.isBlank ++ l.lineComment.toList ++ [' '] ++ Text.trimStart line

/-- The line after its fix; none if there is nothing to replace. The last edit is made first, so
that the places of the others stay where they are. -/
def line? (l : Language) (h : Hazard) (line : Line) : Option Line :=
  match h with
  | .awsAccessKey => none
  | .consoleLog => some (commentOut l line)
  | _ =>
    match edits l h line with
    | [] => none
    | es => some (es.foldr Edit.apply line)

end Fix

end Steward
