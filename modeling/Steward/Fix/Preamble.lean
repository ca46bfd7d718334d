import Steward.Fix.Line

/-!
# Preambles

Where a file's header ends, by language, and the insertion of the lines that replacements depend on.
-/

namespace Steward

open Text (Line)

namespace Preamble

/-- Whether one of the lines already does what the preamble is for. -/
def presentIn (p : Preamble) (lines : List Line) : Bool :=
  lines.any fun l =>
    let t := String.ofList (Text.trim l)
    t = p.line || p.satisfiedBy.contains t

/-- A comment that declares the file's encoding, such as `# -*- coding: utf-8 -*-`. -/
def isCodingCookie (trimmed : Line) : Bool :=
  trimmed.head? = some '#' &&
    (Text.contains "coding:".toList trimmed || Text.contains "coding=".toList trimmed)

def isShebang (line : Line) : Bool := "#!".toList.isPrefixOf line

/-- The number of lines of a triple-quoted string that opens on `line`, if one does and is closed. -/
def docstringLength? (line : Line) (rest : List Line) : Option Nat := do
  let body := (Text.trimStart line).dropWhile fun c => ['r', 'R', 'u', 'U'].contains c
  let delim ← ["\"\"\"".toList, "'''".toList].find? (·.isPrefixOf body)
  if Text.contains delim (body.drop 3) then return 1
  else (rest.findIdx? (Text.contains delim)).map (· + 2)

/-- The number of lines of an import: with an open parenthesis on its first line, up to the line
that closes it or the end of the file. -/
def importLength (line : Line) (rest : List Line) : Nat :=
  if line.contains '(' then
    min (((line :: rest).takeWhile fun l => !l.contains ')').length + 1) (rest.length + 1)
  else 1

/-- The end of a Python module's header from line `i` on: shebang, coding cookie, docstring and
`from __future__` imports move the end `anchor` behind them. The first `skip` lines belong to what
came before; a docstring may come only first. -/
def pythonHeader (i anchor : Nat) (docstringAllowed : Bool) : Nat → List Line → Nat
  | _, [] => anchor
  | skip + 1, _ :: rest => pythonHeader (i + 1) anchor docstringAllowed skip rest
  | 0, line :: rest =>
    let t := Text.trim line
    if (i = 0 && isShebang t) || (i < 2 && isCodingCookie t) then
      pythonHeader (i + 1) (i + 1) docstringAllowed 0 rest
    else if t.isEmpty || t.head? = some '#' then
      pythonHeader (i + 1) anchor docstringAllowed 0 rest
    else
      match if docstringAllowed then docstringLength? line rest else none with
      | some n => pythonHeader (i + 1) (i + n) false (n - 1) rest
      | none =>
        if "from __future__ import".toList.isPrefixOf t then
          let n := importLength line rest
          pythonHeader (i + 1) (i + n) false (n - 1) rest
        else anchor

/-- A directive that turns on strict mode, with or without semicolons. -/
def isUseStrict (trimmed : Line) : Bool :=
  let t := String.ofList (trimmed.reverse.dropWhile (· = ';')).reverse
  t = "'use strict'" || t = "\"use strict\""

def isRubyMagic (trimmed : Line) : Bool :=
  Text.contains "frozen_string_literal:".toList trimmed || isCodingCookie trimmed

/-- The index of the first line that a new import may stand before. -/
def anchor (l : Language) (lines : List Line) : Nat :=
  let shebang := if (lines.head?.any isShebang) then 1 else 0
  let past (p : Line → Bool) : Nat :=
    shebang + ((lines.drop shebang).takeWhile fun line => p (Text.trim line)).length
  match l with
  | .python => pythonHeader 0 0 true 0 lines
  | .script => past isUseStrict
  | .ruby => past isRubyMagic
  | .go =>
    match lines.findIdx? fun line => "package ".toList.isPrefixOf (Text.trimStart line) with
    | some i => i + 1
    | none => 0
  | _ => shebang

/-- The lines with every missing preamble, in order, at the end of the header. -/
def insertAll (l : Language) (ps : List Preamble) (lines : List Line) : List Line :=
  let i := anchor l lines
  ps.foldr (fun p ls => if p.presentIn ls then ls else ls.insertIdx i p.line.toList) lines

end Preamble

end Steward
