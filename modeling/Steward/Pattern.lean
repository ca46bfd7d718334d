import Steward.Text.Blank
import Steward.Text.Word
import Steward.Text.Lines

/-!
# Patterns

Line patterns and how they match. Alternatives are tried from left to right and repetitions take as
much as they can, giving back only when what follows fails; the first success counts. Positions are
character indices into the line, so a match never splits a character.
-/

namespace Steward

open Text (Line)

/-- One item of a character class. -/
inductive ClassItem where
  | one (c : Char)
  | range (lo hi : Char)
  | word
  | space
deriving DecidableEq, Repr

namespace ClassItem

def mem (c : Char) : ClassItem → Bool
  | one d => c = d
  | range lo hi => lo ≤ c && c ≤ hi
  | word => Text.isWord c
  | space => Text.isBlank c

def source : ClassItem → String
  | one c => c.toString
  | range lo hi => s!"{lo}-{hi}"
  | word => "\\w"
  | space => "\\s"

end ClassItem

/-- A set of characters: those of the items, or all others. -/
structure CharClass where
  negated : Bool
  items : List ClassItem
deriving DecidableEq, Repr

namespace CharClass

/-- The space characters. -/
def blank : CharClass := ⟨false, [.space]⟩

/-- Any of the items. -/
def of (items : List ClassItem) : CharClass := ⟨false, items⟩

/-- Any character but `c`. -/
def except (c : Char) : CharClass := ⟨true, [.one c]⟩

def mem (k : CharClass) (c : Char) : Bool := k.items.any (·.mem c) != k.negated

def source : CharClass → String
  | ⟨false, [.space]⟩ => "\\s"
  | ⟨false, items⟩ => "[" ++ String.join (items.map (·.source)) ++ "]"
  | ⟨true, items⟩ => "[^" ++ String.join (items.map (·.source)) ++ "]"

end CharClass

inductive Pattern where
  /-- These characters, one after the other. -/
  | text (s : String)
  /-- One character of the class. -/
  | one (k : CharClass)
  /-- As many characters of the class as possible, perhaps none. -/
  | many (k : CharClass)
  /-- As many characters of the class as possible, at least one. -/
  | many1 (k : CharClass)
  /-- Exactly `n` characters of the class. -/
  | times (n : Nat) (k : CharClass)
  /-- A place where a word starts or ends. -/
  | edge
  | seq (p q : Pattern)
  | alt (p q : Pattern)
  /-- The pattern over and over, perhaps not at all. -/
  | star (p : Pattern)
  /-- The pattern, remembering what it matched under the number `n`. -/
  | group (n : Nat) (p : Pattern)
deriving DecidableEq, Repr

instance : Append Pattern := ⟨Pattern.seq⟩

instance : HOr Pattern Pattern Pattern := ⟨Pattern.alt⟩

/-- The characters from `start` up to, not including, `stop`. -/
structure Span where
  start : Nat
  stop : Nat
deriving DecidableEq, Repr, Inhabited

namespace Span

def text (s : Span) (line : Line) : Line := (line.take s.stop).drop s.start

end Span

/-- What a pattern matched: the whole span and those of its numbered groups, latest first. -/
structure Match where
  whole : Span
  groups : List (Nat × Span)
deriving DecidableEq, Repr

namespace Match

/-- The span of a group; group zero is the whole match. -/
def group? (m : Match) : Nat → Option Span
  | 0 => some m.whole
  | n => m.groups.lookup n

end Match

/-- A place in a line: how many characters stand before it, the last of them, and the rest. -/
structure Cursor where
  index : Nat
  before : Option Char
  rest : List Char
  groups : List (Nat × Span) := []
deriving Repr

namespace Cursor

/-- The cursor past its next character. -/
def step (c : Cursor) (x : Char) (xs : List Char) : Cursor :=
  { c with index := c.index + 1, before := some x, rest := xs }

/-- Whether exactly one side of the cursor is a word character. -/
def atEdge (c : Cursor) : Bool := c.before.any Text.isWord != c.rest.head?.any Text.isWord

/-- The cursor past the given characters, if they come next. -/
def skip? (c : Cursor) : List Char → Option Cursor
  | [] => some c
  | x :: xs =>
    match c.rest with
    | [] => none
    | y :: ys => if x = y then (c.step y ys).skip? xs else none

/-- The cursor past exactly `n` characters of the class. -/
def skipTimes? (k : CharClass) (c : Cursor) : Nat → Option Cursor
  | 0 => some c
  | n + 1 =>
    match c.rest with
    | [] => none
    | y :: ys => if k.mem y then (c.step y ys).skipTimes? k n else none

/-- All cursors reached over characters of the class, the furthest first, on top of `seen`. -/
def along (k : CharClass) (rest : List Char) (c : Cursor) (seen : List Cursor) : List Cursor :=
  match rest with
  | [] => c :: seen
  | y :: ys => if k.mem y then along k ys (c.step y ys) (c :: seen) else c :: seen

end Cursor

namespace Pattern

/-- Up to `fuel` rounds of `body`, as many as possible first. A round that moves nowhere is none. -/
def rounds {α : Type} (body : Cursor → (Cursor → Option α) → Option α) :
    Nat → Cursor → (Cursor → Option α) → Option α
  | 0, c, k => k c
  | fuel + 1, c, k =>
    (body c fun c' => if c'.index = c.index then none else rounds body fuel c' k) <|> k c

/-- Matches at the cursor, with `k` for what follows: the first way to match for which `k` succeeds. -/
def run {α : Type} : Pattern → Cursor → (Cursor → Option α) → Option α
  | text s, c, k => (c.skip? s.toList).bind k
  | one cls, c, k => (c.skipTimes? cls 1).bind k
  | many cls, c, k => (c.along cls c.rest []).findSome? k
  | many1 cls, c, k =>
    (c.skipTimes? cls 1).bind fun c' => (c'.along cls c'.rest []).findSome? k
  | times n cls, c, k => (c.skipTimes? cls n).bind k
  | edge, c, k => if c.atEdge then k c else none
  | seq p q, c, k => run p c fun c' => run q c' k
  | alt p q, c, k => run p c k <|> run q c k
  | star p, c, k => rounds (run p) c.rest.length c k
  | group n p, c, k =>
    run p c fun c' => k { c' with groups := (n, ⟨c.index, c'.index⟩) :: c'.groups }

/-- The match that starts at the cursor. -/
def matchAt? (p : Pattern) (c : Cursor) : Option Match :=
  p.run { c with groups := [] } fun c' => some ⟨⟨c.index, c'.index⟩, c'.groups⟩

/-- The matches from the cursor on, left to right and without overlap. The first `skip` characters
belong to the match before. -/
def matchesFrom (p : Pattern) (index : Nat) (before : Option Char) : Nat → List Char → List Match
  | _, [] => []
  | skip + 1, x :: xs => matchesFrom p (index + 1) (some x) skip xs
  | 0, x :: xs =>
    match p.matchAt? { index, before, rest := x :: xs } with
    | some m =>
      m :: matchesFrom p (index + 1) (some x) (m.whole.stop - m.whole.start - 1) xs
    | none => matchesFrom p (index + 1) (some x) 0 xs

/-- The matches of a pattern in a line. Patterns are written so that no match is empty. -/
def «matches» (p : Pattern) (line : Line) : List Match := p.matchesFrom 0 none 0 line

/-- The largest group number of a pattern. -/
def groupCount : Pattern → Nat
  | seq p q | alt p q => max p.groupCount q.groupCount
  | star p => p.groupCount
  | group n p => max n p.groupCount
  | _ => 0

/-- Characters that are escaped in the text of a pattern. -/
def isMeta (c : Char) : Bool := "\\.+*?()|[]\x7b\x7d^$".toList.contains c

/-- The usual text of a pattern. -/
def source : Pattern → String
  | text s => String.ofList (s.toList.flatMap fun c => if isMeta c then ['\\', c] else [c])
  | one k => k.source
  | many k => k.source ++ "*"
  | many1 k => k.source ++ "+"
  | times n k => k.source ++ "\x7b" ++ toString n ++ "\x7d"
  | edge => "\\b"
  | seq p q => p.source ++ q.source
  | alt p q => p.source ++ "|" ++ q.source
  | star p => "(?:" ++ p.source ++ ")*"
  | group _ p => "(" ++ p.source ++ ")"

end Pattern

end Steward
