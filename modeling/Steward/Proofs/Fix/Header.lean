import Steward.Proofs.Constitution
import Steward.Proofs.Fix.Insertion

/-!
# Headers of Python modules

A module starts with blank lines and comments, maybe a docstring, and imports from `__future__`;
nothing may be put in before or among them. Where a header ends is read off its lines one by one,
which goes wrong with a docstring in single quotes, and with an import that is spelled in another way
or continued by a backslash. `Python.Header.insertAll_keeps_iff` says for which headers new imports go
in behind.
-/

namespace Steward

open Text (Line Blanks)
open List

namespace Python

/-- A line that is blank or a comment. -/
def Idle (line : Line) : Prop := Text.trim line = [] ∨ (Text.trim line).head? = some '#'

instance : DecidablePred Idle := fun line =>
  inferInstanceAs (Decidable (Text.trim line = [] ∨ (Text.trim line).head? = some '#'))

/-! ## Docstrings -/

/-- How a line ends that starts in a string: what comes after the string, or else whether a backslash
comes last. -/
inductive Ending where
  | closed (rest : Line)
  | unclosed (escaped : Bool)

/-- Reads in a string up to its delimiter. What follows a backslash does not end it. -/
def ending (delim : Line) : Line → Ending
  | [] => .unclosed false
  | ['\\'] => .unclosed true
  | '\\' :: _ :: cs => ending delim cs
  | c :: cs =>
    if delim.isPrefixOf (c :: cs) then .closed ((c :: cs).drop delim.length) else ending delim cs

/-- Whether a string that is open before some lines ends on the last of them, and nothing comes after
it but a comment. In single quotes it only goes on after a backslash. -/
def isEnded (delim : Line) : List Line → Bool
  | [] => false
  | [line] =>
    match ending delim line with
    | .closed rest => Idle rest
    | .unclosed _ => false
  | line :: lines =>
    match ending delim line with
    | .closed _ => false
    | .unclosed escaped => (escaped || delim.length = 3) && isEnded delim lines

/-- A string that stands alone as a statement. -/
structure Docstring where
  /-- The letter before the quotes. -/
  letter : Line
  letter_mem : letter ∈ [[], ['r'], ['R'], ['u'], ['U']]
  quote : Char
  quote_eq : quote = '"' ∨ quote = '\''
  triple : Bool
  /-- The first line from the quotes on. -/
  body : Line
  more : List Line
  isEnded : isEnded (List.replicate (if triple then 3 else 1) quote) (body :: more)
  /-- A single quote is not the first of three. -/
  single : triple = false → ¬[quote, quote] <+: body

namespace Docstring

def delim (d : Docstring) : Line := List.replicate (if d.triple then 3 else 1) d.quote

def lines (d : Docstring) : List Line := (d.letter ++ d.delim ++ d.body) :: d.more

end Docstring

/-! ## Imports from `__future__` -/

/-- A line without its comment. -/
def code (line : Line) : Line := line.takeWhile (· ≠ '#')

/-- The number of open parentheses after a line. -/
def depthAfter (depth : Nat) (line : Line) : Nat :=
  depth + (code line).count '(' - (code line).count ')'

/-- Whether a backslash joins a line to the next. -/
def isJoined (line : Line) : Bool := !line.contains '#' && line.getLast? = some '\\'

/-- Whether lines are those of one statement, where some parentheses are open before them. -/
def isStatement : Nat → List Line → Bool
  | _, [] => false
  | depth, [line] => depthAfter depth line = 0 && !isJoined line
  | depth, line :: lines =>
    (0 < depthAfter depth line || isJoined line) && isStatement (depthAfter depth line) lines

/-- The words that an import from `__future__` starts with, as they are usually spelled. -/
def opening : Line := "from __future__ import".toList

/-- An import from `__future__`, with blank lines and comments before it. -/
structure FutureImport where
  gap : List Line
  idle : ∀ line ∈ gap, Idle line
  first : Line
  more : List Line
  words : ∃ sep sep' names, Blanks sep ∧ Blanks sep' ∧ sep ≠ [] ∧ sep' ≠ [] ∧
    first = "from".toList ++ sep ++ "__future__".toList ++ sep' ++ "import".toList ++ names
  isStatement : isStatement 0 (first :: more)
  /-- No name is a keyword. -/
  names : ∀ line ∈ more, ¬opening <+: Text.trim line

namespace FutureImport

def statement (f : FutureImport) : List Line := f.first :: f.more

def lines (f : FutureImport) : List Line := f.gap ++ f.statement

end FutureImport

/-- What a module starts with. -/
structure Header where
  /-- A shebang, a coding cookie, comments and blank lines. -/
  prelude : List Line
  idle : ∀ line ∈ prelude, Idle line
  docstring : Option Docstring
  futures : List FutureImport
  futures_ne_nil : futures ≠ []

namespace Header

def lines (h : Header) : List Line :=
  h.prelude ++ (h.docstring.elim [] Docstring.lines ++ h.futures.flatMap FutureImport.lines)

end Header

/-! ## Reading a header line by line -/

theorem exists_first {p : Line → Prop} [DecidablePred p] {lines : List Line} (h : ∃ x ∈ lines, p x) :
    ∃ before x after, lines = before ++ x :: after ∧ p x ∧ ∀ y ∈ before, ¬p y := by
  obtain ⟨x, hx⟩ := Option.isSome_iff_exists.1 (find?_isSome (p := (p ·)).2 (by simpa using h))
  obtain ⟨hp, before, after, hlines, hbefore⟩ := find?_eq_some_iff_append.1 hx
  exact ⟨before, x, after, hlines, by simpa using hp, fun y hy ↦ by simpa using hbefore y hy⟩

theorem exists_first_of_dropLast {p : Line → Prop} [DecidablePred p] {lines : List Line}
    (h : ∃ x ∈ lines.dropLast, p x) :
    ∃ before x after, lines = before ++ x :: after ∧ after ≠ [] ∧ p x ∧ ∀ y ∈ before, ¬p y := by
  obtain ⟨before, x, after, hlines, hx, hbefore⟩ := exists_first h
  have hne : lines ≠ [] := by
    rintro rfl
    simp at hlines
  refine ⟨before, x, after ++ [lines.getLast hne], ?_, by simp, hx, hbefore⟩
  rw [← cons_append, ← append_assoc, ← hlines, dropLast_append_getLast]

/-- A line that does not start with space loses it at the end alone when it is trimmed. -/
theorem exists_trim_cons {c : Char} (hc : Text.isBlank c = false) (cs : Line) :
    ∃ ds b, Text.trim (c :: cs) = c :: ds ∧ cs = ds ++ b ∧ Blanks b := by
  obtain ⟨b, b', hline, hb, hb'⟩ := Text.exists_trim (c :: cs)
  have hmem : c ∈ Text.trim (c :: cs) := Text.mem_trim_of_mem mem_cons_self hc
  cases b with
  | cons x b =>
    have hx : c = x := (List.cons.inj hline).1
    rw [hx, hb x mem_cons_self] at hc
    cases hc
  | nil =>
    obtain ⟨x, ds, htrim⟩ := exists_cons_of_ne_nil (ne_nil_of_mem hmem)
    rw [htrim, nil_append] at hline
    obtain ⟨rfl, hcs⟩ := List.cons.inj hline
    exact ⟨ds, b', htrim, hcs, hb'⟩

theorem not_idle_cons {c : Char} (hc : Text.isBlank c = false) (hcomment : c ≠ '#') (cs : Line) :
    ¬Idle (c :: cs) := by
  obtain ⟨ds, b, hds, -⟩ := exists_trim_cons hc cs
  simp [Idle, hds, hcomment]

open Preamble

theorem docstringLength?_pos {line : Line} {rest : List Line} {n : Nat}
    (h : docstringLength? line rest = some n) : 0 < n := by
  simp only [docstringLength?, Option.bind_eq_bind, Option.bind_eq_some_iff] at h
  obtain ⟨delim, -, h⟩ := h
  split_ifs at h
  · cases h
    exact Nat.one_pos
  · obtain ⟨k, -, rfl⟩ := Option.map_eq_some_iff.1 h
    exact Nat.succ_pos _

theorem importLength_pos (line : Line) (rest : List Line) : 0 < importLength line rest := by
  rw [importLength]
  split_ifs
  · exact lt_min (Nat.succ_pos _) (Nat.succ_pos _)
  · exact Nat.one_pos

section Reading

variable {i a : Nat} {allowed : Bool} {line : Line} {rest : List Line}

theorem le_pythonHeader {skip : Nat} (h : a ≤ i + skip) :
    a ≤ pythonHeader i a allowed skip rest := by
  induction rest generalizing i a allowed skip with
  | nil => rw [pythonHeader]
  | cons line rest ih =>
    have hmove {a' skip' : Nat} {allowed' : Bool} (ha : a ≤ a') (h' : a' ≤ i + 1 + skip') :
        a ≤ pythonHeader (i + 1) a' allowed' skip' rest := ha.trans (ih h')
    cases skip with
    | succ skip => exact ih (by omega)
    | zero =>
      rw [pythonHeader]
      dsimp only
      split
      · exact hmove (by omega) (by omega)
      split
      · exact ih (by omega)
      split
      · rename_i n hn
        split_ifs at hn
        have hpos := docstringLength?_pos hn
        exact hmove (by omega) (by omega)
      split
      · have hpos := importLength_pos line rest
        exact hmove (by omega) (by omega)
      · exact le_refl a

theorem pythonHeader_skip {xs ys : List Line} {skip : Nat} (h : xs.length ≤ skip) :
    pythonHeader i a allowed skip (xs ++ ys) =
      pythonHeader (i + xs.length) a allowed (skip - xs.length) ys := by
  induction xs generalizing i skip with
  | nil => simp
  | cons x xs ih =>
    cases skip with
    | zero => simp at h
    | succ skip =>
      rw [cons_append, pythonHeader, ih (by simpa using h), length_cons,
        Nat.add_sub_add_right, Nat.add_assoc, Nat.add_comm 1]

/-- A blank line or comment is passed, and the header may end behind it. -/
theorem pythonHeader_idle (h : Idle line) (i a : Nat) (allowed : Bool) (rest : List Line) :
    ∃ a', (a' = a ∨ a' = i + 1) ∧
      pythonHeader i a allowed 0 (line :: rest) = pythonHeader (i + 1) a' allowed 0 rest := by
  have hidle : ((Text.trim line).isEmpty || (Text.trim line).head? = some '#') = true := by
    rcases h with h | h <;> simp [h]
  rw [pythonHeader]
  dsimp only
  split
  · exact ⟨i + 1, .inr rfl, rfl⟩
  · exact ⟨a, .inl rfl, rfl⟩

/-- Any other line is no shebang, coding cookie, comment or blank line. -/
theorem not_mark_of_not_idle (h : ¬Idle line) :
    ((i = 0 && isShebang (Text.trim line)) || (i < 2 && isCodingCookie (Text.trim line))) = false ∧
      ((Text.trim line).isEmpty || (Text.trim line).head? = some '#') = false := by
  rw [Idle, not_or] at h
  obtain ⟨hempty, hcomment⟩ := h
  have hshebang : isShebang (Text.trim line) = false := by
    refine eq_false_of_ne_true fun hprefix ↦ hcomment ?_
    obtain ⟨cs, hcs⟩ := isPrefixOf_iff_prefix.1 hprefix
    rw [← hcs]
    rfl
  simp [hempty, hcomment, hshebang, isCodingCookie]

theorem pythonHeader_docstring {n : Nat} (h : ¬Idle line) (hdoc : docstringLength? line rest = some n) :
    pythonHeader i a true 0 (line :: rest) = pythonHeader (i + 1) (i + n) false (n - 1) rest := by
  obtain ⟨hmark, hidle⟩ := not_mark_of_not_idle (i := i) h
  rw [pythonHeader]
  dsimp only
  rw [if_neg (by rw [hmark]; decide), if_neg (by rw [hidle]; decide), if_pos rfl, hdoc]

theorem pythonHeader_import (h : ¬Idle line) (hdoc : docstringLength? line rest = none)
    (hwords : opening <+: Text.trim line) :
    pythonHeader i a allowed 0 (line :: rest) =
      pythonHeader (i + 1) (i + importLength line rest) false (importLength line rest - 1) rest := by
  obtain ⟨hmark, hidle⟩ := not_mark_of_not_idle (i := i) h
  rw [pythonHeader]
  dsimp only
  rw [if_neg (by rw [hmark]; decide), if_neg (by rw [hidle]; decide), hdoc, ite_self]
  exact if_pos <| isPrefixOf_iff_prefix.2 hwords

theorem pythonHeader_stop (h : ¬Idle line) (hdoc : allowed → docstringLength? line rest = none)
    (hwords : ¬opening <+: Text.trim line) :
    pythonHeader i a allowed 0 (line :: rest) = a := by
  obtain ⟨hmark, hidle⟩ := not_mark_of_not_idle (i := i) h
  have hnone : (if allowed then docstringLength? line rest else none) = none := by
    split_ifs with hallowed
    · exact hdoc hallowed
    · rfl
  rw [pythonHeader]
  dsimp only
  rw [if_neg (by rw [hmark]; decide), if_neg (by rw [hidle]; decide), hnone]
  exact if_neg fun hprefix ↦ hwords <| isPrefixOf_iff_prefix.1 hprefix

theorem pythonHeader_idles {xs : List Line} (hxs : ∀ x ∈ xs, Idle x) (ha : a ≤ i) (allowed : Bool)
    (rest : List Line) :
    ∃ a', a ≤ a' ∧ a' ≤ i + xs.length ∧
      pythonHeader i a allowed 0 (xs ++ rest) = pythonHeader (i + xs.length) a' allowed 0 rest := by
  induction xs generalizing i a with
  | nil => exact ⟨a, le_refl a, ha, rfl⟩
  | cons x xs ih =>
    obtain ⟨a', ha', hx⟩ := pythonHeader_idle (hxs x mem_cons_self) i a allowed (xs ++ rest)
    obtain ⟨a'', hle, hle', hrest⟩ := ih (fun y hy ↦ hxs y (mem_cons_of_mem x hy))
      (i := i + 1) (a := a') (by omega)
    refine ⟨a'', by omega, ?_, ?_⟩
    · rw [length_cons]
      omega
    · rw [cons_append, hx, hrest, length_cons, Nat.add_assoc, Nat.add_comm 1]

/-- Some lines of a docstring or an import are taken at once. -/
theorem pythonHeader_taken {more before after : List Line} {x : Line}
    (h : line :: more = before ++ x :: after) :
    pythonHeader (i + 1) (i + (before.length + 1)) false (before.length + 1 - 1) (more ++ rest) =
      pythonHeader (i + (before.length + 1)) (i + (before.length + 1)) false 0 (after ++ rest) := by
  have hmore : ∃ xs, more = xs ++ after ∧ xs.length = before.length := by
    cases before with
    | nil => exact ⟨[], (List.cons.inj h).2, rfl⟩
    | cons y ys => exact ⟨ys ++ [x], by simp [(List.cons.inj h).2], by simp⟩
  obtain ⟨xs, rfl, hlength⟩ := hmore
  rw [append_assoc, pythonHeader_skip (by omega), hlength]
  congr 1 <;> omega

/-- Lines at which the reading of a header ends: the first that is not blank or a comment is not the
start of an import from `__future__`. -/
def Blocks (lines : List Line) : Prop :=
  ∃ before line after, lines = before ++ line :: after ∧ (∀ x ∈ before, Idle x) ∧ ¬Idle line ∧
    ¬opening <+: Text.trim line

theorem blocks_of_mem {lines : List Line} (hmem : ∃ line ∈ lines, ¬Idle line)
    (hwords : ∀ line ∈ lines, ¬opening <+: Text.trim line) : Blocks lines := by
  obtain ⟨before, line, after, rfl, hidle, hbefore⟩ := exists_first hmem
  refine ⟨before, line, after, rfl, fun x hx ↦ not_not.1 (hbefore x hx), hidle, ?_⟩
  exact hwords line (by simp)

theorem pythonHeader_blocks {lines : List Line} (h : Blocks lines) (ha : a ≤ i) (rest : List Line) :
    pythonHeader i a false 0 (lines ++ rest) < i + lines.length := by
  obtain ⟨before, line, after, rfl, hbefore, hidle, hwords⟩ := h
  rw [append_assoc, cons_append]
  obtain ⟨a', -, ha', hread⟩ := pythonHeader_idles hbefore ha false (line :: (after ++ rest))
  rw [hread, pythonHeader_stop hidle (by simp) hwords, length_append, length_cons]
  omega

end Reading

/-! ## Docstrings in a header -/

theorem infix_of_closed {delim line rest : Line} (h : ending delim line = .closed rest) :
    delim <:+: line := by
  fun_induction ending delim line with
  | case1 | case2 => cases h
  | case3 c cs ih => exact (ih h).trans ((suffix_cons _ _).trans (suffix_cons _ _)).isInfix
  | case4 c cs _ _ hprefix => exact List.IsPrefix.isInfix <| isPrefixOf_iff_prefix.1 hprefix
  | case5 c cs _ _ _ ih => exact (ih h).trans (suffix_cons c cs).isInfix

/-- A string that ends has its delimiter on the last line. -/
theorem exists_concat_of_isEnded {delim : Line} {lines : List Line} (h : isEnded delim lines) :
    ∃ before last, lines = before ++ [last] ∧ delim <:+: last := by
  fun_induction isEnded delim lines with
  | case1 => cases h
  | case2 line rest hrest => exact ⟨[], line, rfl, infix_of_closed hrest⟩
  | case3 => cases h
  | case4 => cases h
  | case5 line lines _ escaped _ ih =>
    obtain ⟨before, last, rfl, hlast⟩ := ih (Bool.and_eq_true_iff.1 h).2
    exact ⟨line :: before, last, rfl, hlast⟩

namespace Docstring

variable (d : Docstring)

/-- The docstring is read for what it is: it has three quotes, and they are not on a line before the
last, as they may be after a backslash. -/
def Plain : Prop := d.triple ∧ ∀ line ∈ (d.body :: d.more).dropLast, ¬d.delim <:+: line

/-- If the docstring is taken to end on a line before the last, then the reading ends in it as well. -/
def Ordinary : Prop :=
  ∀ before line after, d.triple → d.body :: d.more = before ++ line :: after → after ≠ [] →
    d.delim <:+: line → (∀ x ∈ before, ¬d.delim <:+: x) → Blocks after

/-- The letter before the quotes does not count. -/
theorem dropWhile_letter (cs : Line) :
    (Text.trimStart (d.letter ++ d.quote :: cs)).dropWhile
      (fun c => ['r', 'R', 'u', 'U'].contains c) = d.quote :: cs := by
  have hletter := d.letter_mem
  simp only [mem_cons, not_mem_nil, or_false] at hletter
  rcases d.quote_eq with hq | hq <;> rw [hq] <;>
    rcases hletter with h | h | h | h | h <;> rw [h] <;> rfl

theorem docstringLength?_triple (h : d.triple) (rest : List Line) :
    docstringLength? (d.letter ++ d.delim ++ d.body) rest =
      ((d.body :: rest).findIdx? (Text.contains d.delim)).map (· + 1) := by
  have hdelim : d.delim = [d.quote, d.quote, d.quote] := by
    rw [delim, h]
    rfl
  have hfind : ["\"\"\"".toList, "'''".toList].find?
      (·.isPrefixOf (d.quote :: d.quote :: d.quote :: d.body)) = some d.delim := by
    rw [hdelim]
    rcases d.quote_eq with hq | hq <;> rw [hq] <;> rfl
  have hline : d.letter ++ d.delim ++ d.body =
      d.letter ++ d.quote :: (d.quote :: d.quote :: d.body) := by
    rw [hdelim, append_assoc]
    rfl
  rw [hline, docstringLength?, dropWhile_letter, hfind, findIdx?_cons]
  simp only [Option.bind_eq_bind, Option.bind_some, drop_succ_cons, drop_zero]
  split_ifs
  · rfl
  · rw [Option.map_map]
    rfl

theorem docstringLength?_single (h : d.triple = false) (rest : List Line) :
    docstringLength? (d.letter ++ d.delim ++ d.body) rest = none := by
  have hfind : ["\"\"\"".toList, "'''".toList].find? (·.isPrefixOf (d.quote :: d.body)) = none := by
    have hbody := d.single h
    rcases d.quote_eq with hq | hq <;> rw [hq] at hbody ⊢ <;> rw [find?_eq_none] <;>
      simpa using hbody
  have hline : d.letter ++ d.delim ++ d.body = d.letter ++ d.quote :: d.body := by
    rw [delim, h, append_assoc]
    rfl
  rw [hline, docstringLength?, dropWhile_letter, hfind]
  rfl

/-- The first line of a docstring is nothing else. -/
theorem not_idle_first :
    ¬Idle (d.letter ++ d.delim ++ d.body) ∧ ¬opening <+: Text.trim (d.letter ++ d.delim ++ d.body) := by
  have hfirst : ∃ c cs, d.letter ++ d.delim ++ d.body = c :: cs ∧
      c ∈ ['r', 'R', 'u', 'U', '"', '\''] := by
    have hdelim : ∃ cs, d.delim = d.quote :: cs := by
      rw [delim]
      cases d.triple <;> exact ⟨_, rfl⟩
    obtain ⟨cs, hcs⟩ := hdelim
    have hletter := d.letter_mem
    simp only [mem_cons, not_mem_nil, or_false] at hletter
    rcases hletter with h | h | h | h | h <;> rw [h, hcs]
    · rcases d.quote_eq with hq | hq <;> exact ⟨_, _, rfl, by simp [hq]⟩
    all_goals exact ⟨_, _, rfl, by simp⟩
  obtain ⟨c, cs, hline, hc⟩ := hfirst
  have hplain : ∀ c ∈ ['r', 'R', 'u', 'U', '"', '\''], Text.isBlank c = false ∧ c ≠ '#' ∧ c ≠ 'f' := by
    simp [Text.isBlank]
  replace hplain := hplain c hc
  obtain ⟨ds, b, hds, -⟩ := exists_trim_cons hplain.1 cs
  rw [hline]
  refine ⟨not_idle_cons hplain.1 hplain.2.1 cs, fun hwords ↦ hplain.2.2 ?_⟩
  rw [hds] at hwords
  exact (cons_prefix_cons.1 hwords).1.symm

variable {d} {i a : Nat} {rest : List Line}

/-- As far as a line has the quotes, the docstring is read up to it. -/
theorem pythonHeader_lines (h : d.triple) {before after : List Line} {line : Line}
    (hlines : d.body :: d.more = before ++ line :: after) (hline : d.delim <:+: line)
    (hbefore : ∀ x ∈ before, ¬d.delim <:+: x) :
    pythonHeader i a true 0 (d.lines ++ rest) =
      pythonHeader (i + (before.length + 1)) (i + (before.length + 1)) false 0 (after ++ rest) := by
  have hfind : docstringLength? (d.letter ++ d.delim ++ d.body) (d.more ++ rest) =
      some (before.length + 1) := by
    rw [d.docstringLength?_triple h, ← cons_append, hlines, append_assoc, findIdx?_append,
      findIdx?_eq_none_iff.2 fun x hx ↦ eq_false_of_ne_true fun hcontains ↦
        hbefore x hx (Text.contains_iff.1 hcontains),
      cons_append, findIdx?_cons, Text.contains_iff.2 hline]
    simp
  rw [lines, cons_append, pythonHeader_docstring d.not_idle_first.1 hfind,
    pythonHeader_taken hlines]

theorem Plain.read (h : d.Plain) :
    pythonHeader i a true 0 (d.lines ++ rest) =
      pythonHeader (i + d.lines.length) (i + d.lines.length) false 0 rest := by
  obtain ⟨before, last, hlines, hlast⟩ := exists_concat_of_isEnded d.isEnded
  have hbefore := h.2
  rw [hlines, dropLast_concat] at hbefore
  have hlength : d.lines.length = before.length + 1 := by
    have hcount := congrArg List.length hlines
    simpa [lines] using hcount
  rw [pythonHeader_lines h.1 hlines hlast hbefore, hlength]
  rfl

theorem Ordinary.read_lt (h : d.Ordinary) (hplain : ¬d.Plain) (ha : a ≤ i) (rest : List Line) :
    pythonHeader i a true 0 (d.lines ++ rest) < i + d.lines.length := by
  cases htriple : d.triple with
  | false =>
    rw [lines, cons_append, pythonHeader_stop d.not_idle_first.1
      (fun _ ↦ d.docstringLength?_single htriple _) d.not_idle_first.2, length_cons]
    omega
  | true =>
    have hearly : ∃ x ∈ (d.body :: d.more).dropLast, d.delim <:+: x := by
      by_contra hnone
      push Not at hnone
      exact hplain ⟨htriple, hnone⟩
    obtain ⟨before, line, after, hlines, hafter, hline, hbefore⟩ := exists_first_of_dropLast hearly
    have hblocks := h _ _ _ htriple hlines hafter hline hbefore
    have hlength : d.lines.length = before.length + 1 + after.length := by
      have hcount := congrArg List.length hlines
      simp only [lines, length_cons, length_append] at hcount ⊢
      omega
    have hread := pythonHeader_blocks hblocks (le_refl (i + (before.length + 1))) rest
    rw [pythonHeader_lines htriple hlines hline hbefore]
    omega

end Docstring

/-! ## Imports in a header -/

namespace FutureImport

variable (f : FutureImport)

/-- The import is read for what it is: it is spelled as usual, if it has several lines the first opens
a parenthesis, and only the last may have a closing one. -/
structure Plain : Prop where
  words : opening <+: Text.trim f.first
  opens : f.more ≠ [] → '(' ∈ f.first
  closes : ∀ line ∈ f.statement.dropLast, ')' ∉ line

/-- On an import of one line a parenthesis is not opened by a comment alone, and the last of several
lines is not blank or a comment. -/
structure Ordinary : Prop where
  opens : f.more = [] → '(' ∈ f.first → '(' ∈ code f.first
  last : ∀ line ∈ f.more.getLast?, ¬Idle line

theorem first_eq : ∃ cs, f.first = 'f' :: cs := by
  obtain ⟨sep, sep', names, -, -, -, -, hfirst⟩ := f.words
  exact ⟨_, hfirst⟩

theorem not_idle_first : ¬Idle f.first := by
  obtain ⟨cs, hcs⟩ := f.first_eq
  rw [hcs]
  exact not_idle_cons (by decide) (by decide) cs

theorem docstringLength?_first (rest : List Line) : docstringLength? f.first rest = none := by
  obtain ⟨cs, hcs⟩ := f.first_eq
  rw [hcs]
  rfl

theorem mem_of_mem_code {line : Line} {c : Char} (h : c ∈ code line) : c ∈ line :=
  (takeWhile_sublist _).subset h

theorem le_depthAfter (depth : Nat) {line : Line} (h : ')' ∉ line) : depth ≤ depthAfter depth line := by
  have hcount : (Python.code line).count ')' = 0 := count_eq_zero.2 fun hc ↦ h (mem_of_mem_code hc)
  rw [depthAfter, hcount]
  omega

/-- What is open before the lines of a statement is closed on the last, if not on one before. -/
theorem exists_concat_of_isStatement {depth : Nat} {lines : List Line}
    (h : Python.isStatement depth lines) (hdepth : 0 < depth)
    (hclose : ∀ line ∈ lines.dropLast, ')' ∉ line) :
    ∃ before last, lines = before ++ [last] ∧ ')' ∈ last := by
  fun_induction Python.isStatement depth lines with
  | case1 => cases h
  | case2 depth line =>
    refine ⟨[], line, rfl, ?_⟩
    by_contra hnone
    have hle := le_depthAfter depth hnone
    have hzero : depthAfter depth line = 0 := by simpa using (Bool.and_eq_true_iff.1 h).1
    omega
  | case3 depth line lines hne ih =>
    rw [dropLast_cons_of_ne_nil hne, forall_mem_cons] at hclose
    have hle := le_depthAfter depth hclose.1
    obtain ⟨before, last, rfl, hlast⟩ := ih (Bool.and_eq_true_iff.1 h).2 (by omega) hclose.2
    exact ⟨line :: before, last, rfl, hlast⟩

/-- The import is taken to end on the first line with a closing parenthesis. -/
theorem importLength_eq {first line : Line} {rest before after : List Line} (hopen : '(' ∈ first)
    (hlines : first :: rest = before ++ line :: after) (hbefore : ∀ x ∈ before, ')' ∉ x)
    (hline : ')' ∈ line) : importLength first rest = before.length + 1 := by
  have hlength := congrArg List.length hlines
  have htake : ((first :: rest).takeWhile fun l => !l.contains ')') = before := by
    rw [hlines, takeWhile_append_of_pos fun x hx ↦ by simpa using hbefore x hx,
      takeWhile_cons_of_neg (by simpa using hline), append_nil]
  rw [importLength, if_pos (by simpa using hopen), htake]
  simp only [length_cons, length_append] at hlength
  omega

variable {f} {i a : Nat} {allowed : Bool} {rest : List Line}

theorem importLength_statement {before after : List Line} {line : Line} (hopen : '(' ∈ f.first)
    (hlines : f.statement = before ++ line :: after) (hbefore : ∀ x ∈ before, ')' ∉ x)
    (hline : ')' ∈ line) : importLength f.first (f.more ++ rest) = before.length + 1 := by
  have hall : f.first :: (f.more ++ rest) = before ++ line :: (after ++ rest) := by
    rw [← cons_append, ← statement, hlines, append_assoc]
    rfl
  exact importLength_eq hopen hall hbefore hline

theorem pythonHeader_statement (hwords : opening <+: Text.trim f.first) {before after : List Line}
    {line : Line} (hlines : f.statement = before ++ line :: after)
    (hlength : importLength f.first (f.more ++ rest) = before.length + 1) :
    pythonHeader i a allowed 0 (f.statement ++ rest) =
      pythonHeader (i + (before.length + 1)) (i + (before.length + 1)) false 0 (after ++ rest) := by
  rw [statement, cons_append, pythonHeader_import f.not_idle_first (f.docstringLength?_first _)
    hwords, hlength, pythonHeader_taken hlines]

namespace Plain

/-- An import on several lines has its closing parenthesis on the last. -/
theorem exists_concat (h : f.Plain) (hmore : f.more ≠ []) :
    ∃ before last, f.statement = before ++ [last] ∧ ')' ∈ last := by
  have hclose := h.closes
  rw [statement, dropLast_cons_of_ne_nil hmore, forall_mem_cons] at hclose
  have hstatement : (0 < depthAfter 0 f.first ∨ isJoined f.first) ∧
      Python.isStatement (depthAfter 0 f.first) f.more := by
    have hlines := f.isStatement
    obtain ⟨line, lines, hcons⟩ := exists_cons_of_ne_nil hmore
    rw [hcons] at hlines ⊢
    simpa [Python.isStatement] using hlines
  -- A line that is joined to the next has no comment, so that its parenthesis is open.
  have hdepth : 0 < depthAfter 0 f.first := by
    refine hstatement.1.elim id fun hjoined ↦ ?_
    have hcode : Python.code f.first = f.first := by
      refine takeWhile_eq_self_iff.2 fun c hc ↦ decide_eq_true ?_
      rintro rfl
      simp [isJoined, hc] at hjoined
    have hopen : 0 < f.first.count '(' := count_pos_iff.2 (h.opens hmore)
    rw [depthAfter, hcode, count_eq_zero.2 hclose.1]
    omega
  obtain ⟨before, last, hlines, hlast⟩ :=
    exists_concat_of_isStatement hstatement.2 hdepth hclose.2
  exact ⟨f.first :: before, last, by rw [statement, hlines]; rfl, hlast⟩

theorem read (h : f.Plain) (hopen : f.more = [] → '(' ∈ f.first → ')' ∈ f.first) :
    pythonHeader i a allowed 0 (f.statement ++ rest) =
      pythonHeader (i + f.statement.length) (i + f.statement.length) false 0 rest := by
  have hsplit : ∃ before last, f.statement = before ++ [last] ∧
      importLength f.first (f.more ++ rest) = before.length + 1 := by
    by_cases hmore : f.more = []
    · refine ⟨[], f.first, by rw [statement, hmore]; rfl, ?_⟩
      by_cases hfirst : '(' ∈ f.first
      · exact importLength_eq hfirst (nil_append _).symm (by simp) (hopen hmore hfirst)
      · rw [importLength, if_neg (by simpa using hfirst)]
        rfl
    · obtain ⟨before, last, hlines, hlast⟩ := h.exists_concat hmore
      have hbefore := h.closes
      rw [hlines, dropLast_concat] at hbefore
      exact ⟨before, last, hlines, importLength_statement (h.opens hmore) hlines hbefore hlast⟩
  obtain ⟨before, last, hlines, hlength⟩ := hsplit
  rw [pythonHeader_statement h.words hlines hlength, hlines, length_append]
  rfl

/-- An import on one line, with a parenthesis that is not closed on it, takes lines that follow: up to
one that closes it, or all. -/
theorem read_over (h : f.Plain) (hmore : f.more = []) (hopen : '(' ∈ f.first)
    (hclose : ')' ∉ f.first) (i a : Nat) (allowed : Bool) (rest : List Line) :
    ∃ skip, pythonHeader i a allowed 0 (f.statement ++ rest) =
        pythonHeader (i + f.statement.length) (i + f.statement.length + skip) false skip rest ∧
      (rest.length ≤ skip ∨ ∃ line, rest[skip - 1]? = some line ∧ ')' ∈ line) := by
  have hread : pythonHeader i a allowed 0 (f.statement ++ rest) = pythonHeader (i + 1)
      (i + importLength f.first rest) false (importLength f.first rest - 1) rest := by
    rw [statement, hmore, singleton_append, pythonHeader_import f.not_idle_first
      (f.docstringLength?_first _) h.words]
  have hpos := importLength_pos f.first rest
  have hlength : f.statement.length = 1 := by rw [statement, hmore]; rfl
  refine ⟨importLength f.first rest - 1, ?_, ?_⟩
  · rw [hread, hlength]
    congr 1
    omega
  · by_cases hclosed : ∃ line ∈ rest, ')' ∈ line
    · obtain ⟨before, line, after, rfl, hline, hbefore⟩ := exists_first hclosed
      have htaken : importLength f.first (before ++ line :: after) = before.length + 1 + 1 :=
        importLength_eq hopen cons_append.symm
          (forall_mem_cons.2 ⟨hclose, hbefore⟩) hline
      rw [htaken]
      exact .inr ⟨line, by simp, hline⟩
    · left
      have htake : ((f.first :: rest).takeWhile fun l => !l.contains ')') = f.first :: rest := by
        refine takeWhile_eq_self_iff.2 (forall_mem_cons.2 ⟨by simpa using hclose, ?_⟩)
        intro line hline
        simpa using fun hc ↦ hclosed ⟨line, hline, hc⟩
      rw [importLength, if_pos (by simpa using hopen), htake, length_cons]
      omega

end Plain

theorem Ordinary.closes (h : f.Ordinary) (hmore : f.more = []) (hopen : '(' ∈ f.first) :
    ')' ∈ f.first := by
  have hstatement := f.isStatement
  rw [hmore] at hstatement
  have hzero : depthAfter 0 f.first = 0 := by simpa using (Bool.and_eq_true_iff.1 hstatement).1
  have hcode : 0 < (Python.code f.first).count '(' :=
    count_pos_iff.2 (h.opens hmore hopen)
  refine mem_of_mem_code (count_pos_iff.1 ?_)
  rw [depthAfter] at hzero
  omega

/-- An import that is known by its words and still misread is taken to end before its last line. -/
theorem exists_importLength_of_not_plain (hplain : ¬f.Plain) (hwords : opening <+: Text.trim f.first)
    (rest : List Line) :
    ∃ before line after, f.statement = before ++ line :: after ∧ after ≠ [] ∧
      importLength f.first (f.more ++ rest) = before.length + 1 := by
  by_cases hopen : '(' ∈ f.first
  · have hearly : ∃ line ∈ f.statement.dropLast, ')' ∈ line := by
      by_contra hnone
      push Not at hnone
      exact hplain ⟨hwords, fun _ ↦ hopen, hnone⟩
    obtain ⟨before, line, after, hlines, hafter, hline, hbefore⟩ := exists_first_of_dropLast hearly
    exact ⟨before, line, after, hlines, hafter, importLength_statement hopen hlines hbefore hline⟩
  · refine ⟨[], f.first, f.more, rfl, fun hmore ↦ hplain ⟨hwords, absurd hmore, ?_⟩, ?_⟩
    · rw [statement, hmore]
      simp
    · rw [importLength, if_neg (by simpa using hopen)]
      rfl

/-- What is left of an import after some of its lines is no part of a header. -/
theorem Ordinary.blocks (h : f.Ordinary) {before after : List Line} {line : Line}
    (hlines : f.statement = before ++ line :: after) (hafter : after ≠ []) : Blocks after := by
  have hsuffix : after <:+ f.more := by
    cases before with
    | nil => exact (List.cons.inj hlines).2 ▸ suffix_refl _
    | cons x before =>
      exact (List.cons.inj hlines).2 ▸ (suffix_cons _ _).trans (suffix_append _ _)
  refine blocks_of_mem ⟨after.getLast hafter, getLast_mem hafter, h.last _ ?_⟩
    fun x hx ↦ f.names x (hsuffix.subset hx)
  obtain ⟨xs, hxs⟩ := hsuffix
  rw [← hxs, getLast?_append_of_ne_nil _ hafter]
  exact getLast?_eq_some_getLast hafter

theorem Ordinary.read_lt (h : f.Ordinary) (hplain : ¬f.Plain) (ha : a ≤ i) (allowed : Bool)
    (rest : List Line) :
    pythonHeader i a allowed 0 (f.statement ++ rest) < i + f.statement.length := by
  by_cases hwords : opening <+: Text.trim f.first
  · obtain ⟨before, line, after, hlines, hafter, hlength⟩ :=
      exists_importLength_of_not_plain hplain hwords rest
    have hread := pythonHeader_blocks (h.blocks hlines hafter)
      (le_refl (i + (before.length + 1))) rest
    rw [pythonHeader_statement hwords hlines hlength, hlines, length_append, length_cons]
    omega
  · rw [statement, cons_append, pythonHeader_stop f.not_idle_first
      (fun _ ↦ f.docstringLength?_first _) hwords, length_cons]
    omega

/-! ### One import after the other -/

/-- Imports are passed from any place that reading comes to when it goes on after one: at the start, or
behind a closing parenthesis, or behind them all. -/
def Reads (fs : List FutureImport) : Prop :=
  ∀ (i : Nat) (allowed : Bool) (skip : Nat) (rest : List Line),
    (skip = 0 ∨ (fs.flatMap lines).length ≤ skip ∨
      ∃ line, (fs.flatMap lines)[skip - 1]? = some line ∧ ')' ∈ line) →
    i + (fs.flatMap lines).length ≤
      pythonHeader i (i + skip) allowed skip (fs.flatMap lines ++ rest)

theorem Plain.le_read (h : f.Plain) {fs : List FutureImport} (hfs : Reads fs) {gap : List Line}
    (hgap : ∀ line ∈ gap, Idle line) (ha : a ≤ i) (allowed : Bool) (rest : List Line) :
    i + (gap.length + f.statement.length + (fs.flatMap lines).length) ≤
      pythonHeader i a allowed 0 (gap ++ (f.statement ++ (fs.flatMap lines ++ rest))) := by
  obtain ⟨a', -, -, hread⟩ := pythonHeader_idles hgap ha allowed
    (f.statement ++ (fs.flatMap lines ++ rest))
  rw [hread]
  by_cases hopen : f.more = [] → '(' ∈ f.first → ')' ∈ f.first
  · rw [h.read hopen]
    have hrest := hfs (i + gap.length + f.statement.length) false 0 rest (.inl rfl)
    rw [Nat.add_zero] at hrest
    omega
  · push Not at hopen
    obtain ⟨skip, hover, hskip⟩ := h.read_over hopen.1 hopen.2.1 hopen.2.2 (i + gap.length) a'
      allowed (fs.flatMap lines ++ rest)
    have hcut : skip = 0 ∨ (fs.flatMap lines).length ≤ skip ∨
        ∃ line, (fs.flatMap lines)[skip - 1]? = some line ∧ ')' ∈ line := by
      refine .inr (or_iff_not_imp_left.2 fun hshort ↦ ?_)
      rcases hskip with hskip | ⟨line, hline, hclose⟩
      · rw [length_append] at hskip
        omega
      · rw [getElem?_append_left (by omega)] at hline
        exact ⟨line, hline, hclose⟩
    have hrest := hfs (i + gap.length + f.statement.length) false skip rest hcut
    rw [hover]
    omega

theorem reads_nil : Reads [] := by
  intro i allowed skip rest _
  exact (Nat.le_add_right i skip).trans (le_pythonHeader (le_refl _))

theorem Plain.eq_length_of_closes (h : f.Plain) {k : Nat} {line : Line}
    (hline : f.statement[k]? = some line) (hclose : ')' ∈ line) : k + 1 = f.statement.length := by
  have hlt : k < f.statement.length := (List.getElem?_eq_some_iff.1 hline).1
  by_contra hne
  refine h.closes line ?_ hclose
  refine mem_of_getElem? (i := k) ?_
  rw [getElem?_dropLast, if_pos (by omega), hline]

/-- Reading goes on in the gap before the import. -/
theorem Plain.le_read_gap (h : f.Plain) {fs : List FutureImport} (hfs : Reads fs) {skip : Nat}
    (hskip : skip ≤ f.gap.length) (i : Nat) (allowed : Bool) (rest : List Line) :
    i + (f.gap.length + f.statement.length + (fs.flatMap lines).length) ≤
      pythonHeader i (i + skip) allowed skip
        (f.gap ++ (f.statement ++ (fs.flatMap lines ++ rest))) := by
  have hidle : ∀ line ∈ f.gap.drop skip, Idle line :=
    fun line hline ↦ f.idle line (mem_of_mem_drop hline)
  have hdrop := h.le_read hfs hidle (le_refl (i + skip)) allowed rest
  have hlength : (f.gap.take skip).length = skip := length_take_of_le hskip
  have hread : pythonHeader i (i + skip) allowed skip
      (f.gap ++ (f.statement ++ (fs.flatMap lines ++ rest))) = pythonHeader (i + skip) (i + skip)
        allowed 0 (f.gap.drop skip ++ (f.statement ++ (fs.flatMap lines ++ rest))) := by
    conv_lhs => rw [← take_append_drop skip f.gap]
    rw [append_assoc, pythonHeader_skip hlength.le, hlength, Nat.sub_self]
  rw [hread]
  rw [length_drop] at hdrop
  omega

/-- A closing parenthesis behind the gap is on the last line of the import, or behind it. -/
theorem Plain.closes_behind (h : f.Plain) {lines' : List Line} {k : Nat} {line : Line}
    (hgap : f.gap.length ≤ k) (hline : (f.lines ++ lines')[k]? = some line) (hclose : ')' ∈ line) :
    k + 1 = f.lines.length ∨ f.lines.length ≤ k ∧ lines'[k - f.lines.length]? = some line := by
  have hlength : f.lines.length = f.gap.length + f.statement.length := length_append
  by_cases hend : k < f.lines.length
  · left
    rw [getElem?_append_left hend, lines, getElem?_append_right hgap] at hline
    have hlast := h.eq_length_of_closes hline hclose
    omega
  · rw [getElem?_append_right (not_lt.1 hend)] at hline
    exact .inr ⟨not_lt.1 hend, hline⟩

theorem reads_cons (h : f.Plain) {fs : List FutureImport} (hfs : Reads fs) : Reads (f :: fs) := by
  intro i allowed skip rest hskip
  have hlength : f.lines.length = f.gap.length + f.statement.length := length_append
  rw [flatMap_cons] at hskip ⊢
  by_cases hall : (f.lines ++ fs.flatMap lines).length ≤ skip
  · exact (Nat.add_le_add_left hall i).trans (le_pythonHeader (le_refl _))
  rw [length_append, append_assoc]
  by_cases hgap : skip ≤ f.gap.length
  · have hread := h.le_read_gap hfs hgap i allowed rest
    rw [hlength, lines, append_assoc]
    exact hread
  · obtain ⟨line, hline, hclose⟩ := (hskip.resolve_left (by omega)).resolve_left hall
    have hcut : f.lines.length ≤ skip ∧ (skip - f.lines.length = 0 ∨
        ∃ line, (fs.flatMap lines)[skip - f.lines.length - 1]? = some line ∧ ')' ∈ line) := by
      rcases h.closes_behind (by omega) hline hclose with hlast | ⟨hle, hline⟩
      · omega
      · rw [Nat.sub_right_comm] at hline
        exact ⟨by omega, .inr ⟨line, hline, hclose⟩⟩
    have hrest := hfs (i + f.lines.length) allowed (skip - f.lines.length) rest
      (hcut.2.imp_right .inr)
    have hplace : i + f.lines.length + (skip - f.lines.length) = i + skip := by omega
    rw [hplace] at hrest
    rw [pythonHeader_skip hcut.1]
    omega

theorem reads_of_plain {fs : List FutureImport} (h : ∀ f ∈ fs, f.Plain) : Reads fs := by
  induction fs with
  | nil => exact reads_nil
  | cons f fs ih =>
    rw [forall_mem_cons] at h
    exact reads_cons h.1 (ih h.2)

theorem le_read_of_plain {fs : List FutureImport} (hne : fs ≠ []) (h : ∀ f ∈ fs, f.Plain)
    (ha : a ≤ i) (allowed : Bool) (rest : List Line) :
    i + (fs.flatMap lines).length ≤ pythonHeader i a allowed 0 (fs.flatMap lines ++ rest) := by
  obtain ⟨f, fs, rfl⟩ := exists_cons_of_ne_nil hne
  rw [forall_mem_cons] at h
  have hread := h.1.le_read (reads_of_plain h.2) f.idle ha allowed rest
  rw [flatMap_cons, append_assoc, length_append]
  simpa [lines] using hread

theorem read_lt_of_not_plain {fs : List FutureImport} (h : ∀ f ∈ fs, f.Ordinary)
    (hplain : ∃ f ∈ fs, ¬f.Plain) (ha : a ≤ i) (allowed : Bool) (rest : List Line) :
    pythonHeader i a allowed 0 (fs.flatMap lines ++ rest) < i + (fs.flatMap lines).length := by
  induction fs generalizing i a allowed with
  | nil => simp at hplain
  | cons f fs ih =>
    rw [forall_mem_cons] at h
    have hlines : (f :: fs).flatMap lines ++ rest =
        f.gap ++ (f.statement ++ (fs.flatMap lines ++ rest)) := by
      rw [flatMap_cons, lines, append_assoc, append_assoc]
    have hlength : ((f :: fs).flatMap lines).length =
        f.gap.length + f.statement.length + (fs.flatMap lines).length := by
      rw [flatMap_cons, lines, length_append, length_append]
    obtain ⟨a', -, ha', hread⟩ := pythonHeader_idles f.idle ha allowed
      (f.statement ++ (fs.flatMap lines ++ rest))
    rw [hlines, hread, hlength]
    by_cases hf : f.Plain
    · have hrest : ∃ g ∈ fs, ¬g.Plain := by
        obtain ⟨g, hg, hgplain⟩ := hplain
        rcases mem_cons.1 hg with rfl | hg
        · exact absurd hf hgplain
        · exact ⟨g, hg, hgplain⟩
      have hlt := ih h.2 hrest (le_refl (i + f.gap.length + f.statement.length)) false
      rw [hf.read h.1.closes]
      omega
    · have hlt := h.1.read_lt hf ha' allowed (fs.flatMap lines ++ rest)
      omega

end FutureImport

/-! ## Whole headers -/

namespace Header

variable (h : Header)

/-- Each part of the header is read for what it is. -/
def Plain : Prop := (∀ d ∈ h.docstring, d.Plain) ∧ ∀ f ∈ h.futures, f.Plain

/-- No part of the header that is misread is passed by chance. -/
def Ordinary : Prop := (∀ d ∈ h.docstring, d.Ordinary) ∧ ∀ f ∈ h.futures, f.Ordinary

variable {h} {rest : List Line}

theorem Plain.le_anchor (hplain : h.Plain) : h.lines.length ≤ anchor .python (h.lines ++ rest) := by
  obtain ⟨a, -, ha, hread⟩ := pythonHeader_idles h.idle (le_refl 0) true
    (h.docstring.elim [] Docstring.lines ++ h.futures.flatMap FutureImport.lines ++ rest)
  rw [Nat.zero_add] at ha hread
  rw [anchor, lines, append_assoc, hread, length_append, append_assoc]
  cases hd : h.docstring with
  | none => exact FutureImport.le_read_of_plain h.futures_ne_nil hplain.2 ha true rest
  | some d =>
    have hfutures := FutureImport.le_read_of_plain h.futures_ne_nil hplain.2
      (le_refl (h.prelude.length + d.lines.length)) false rest
    rw [Option.elim_some, (hplain.1 d hd).read, length_append]
    omega

theorem Ordinary.anchor_lt (hordinary : h.Ordinary) (hplain : ¬h.Plain) :
    anchor .python (h.lines ++ rest) < h.lines.length := by
  obtain ⟨a, -, ha, hread⟩ := pythonHeader_idles h.idle (le_refl 0) true
    (h.docstring.elim [] Docstring.lines ++ h.futures.flatMap FutureImport.lines ++ rest)
  rw [Nat.zero_add] at ha hread
  rw [anchor, lines, append_assoc, hread, length_append, append_assoc]
  have hbad (hdocstring : ∀ d ∈ h.docstring, d.Plain) : ∃ f ∈ h.futures, ¬f.Plain := by
    by_contra hnone
    push Not at hnone
    exact hplain ⟨hdocstring, hnone⟩
  cases hd : h.docstring with
  | none => exact FutureImport.read_lt_of_not_plain hordinary.2 (hbad (by simp [hd])) ha true rest
  | some d =>
    rw [Option.elim_some, length_append]
    by_cases hplain : d.Plain
    · have hfutures := FutureImport.read_lt_of_not_plain hordinary.2 (hbad (by simpa [hd] using hplain))
        (le_refl (h.prelude.length + d.lines.length)) false rest
      rw [hplain.read]
      omega
    · have hdocstring := (hordinary.1 d hd).read_lt hplain ha
        (h.futures.flatMap FutureImport.lines ++ rest)
      omega

theorem lt_anchor_of_cookie {i : Nat} {line : Line} (hi : i < 2) (hline : h.prelude[i]? = some line)
    (hcookie : isCodingCookie (Text.trim line)) : i < anchor .python (h.lines ++ rest) := by
  have hlt : i < h.prelude.length := (List.getElem?_eq_some_iff.1 hline).1
  have hsplit : ∃ after, h.lines ++ rest = h.prelude.take i ++ line :: after := by
    refine ⟨h.prelude.drop (i + 1) ++
      (h.docstring.elim [] Docstring.lines ++ h.futures.flatMap FutureImport.lines) ++ rest, ?_⟩
    have hprelude : h.prelude = h.prelude.take i ++ line :: h.prelude.drop (i + 1) := by
      rw [← (List.getElem?_eq_some_iff.1 hline).2, getElem_cons_drop, take_append_drop]
    rw [lines]
    conv_lhs => rw [hprelude]
    simp
  obtain ⟨after, hafter⟩ := hsplit
  obtain ⟨a, -, -, hread⟩ := pythonHeader_idles
    (fun x hx ↦ h.idle x (mem_of_mem_take hx)) (le_refl 0) true (line :: after)
  rw [Nat.zero_add, length_take_of_le hlt.le] at hread
  rw [anchor, hafter, hread, pythonHeader]
  dsimp only
  rw [if_pos (by simp [hi, hcookie])]
  exact le_pythonHeader (le_refl (i + 1))

end Header

theorem anchor_pos_of_shebang {line : Line} {lines : List Line} (h : isShebang line) :
    0 < anchor .python (line :: lines) := by
  have htrim : isShebang (Text.trim line) := by
    obtain ⟨cs, rfl⟩ := isPrefixOf_iff_prefix.1 h
    obtain ⟨ds, b, htrim, hcs, hb⟩ := exists_trim_cons (c := '#') (by decide) ('!' :: cs)
    cases ds with
    | nil =>
      have hblank := hb '!' (by rw [← nil_append b, ← hcs]; exact mem_cons_self)
      exact absurd hblank (by decide)
    | cons x ds =>
      obtain ⟨rfl, -⟩ := List.cons.inj hcs
      change isShebang (Text.trim ('#' :: '!' :: cs))
      rw [htrim]
      rfl
  rw [anchor, pythonHeader]
  dsimp only
  rw [if_pos (by simp [htrim])]
  exact le_pythonHeader (le_refl 1)

/-- **Where new imports go in a module.** They go in behind its header if that is plain. If any are
missing and no part of the header is passed by chance, they do so only then. In any case a shebang
stays the first line, and a coding cookie where it is among the first two. -/
theorem Header.insertAll_keeps_iff (h : Header) (rest : List Line) (ps : List Preamble) :
    (h.Plain → h.lines <+: insertAll .python ps (h.lines ++ rest)) ∧
    (h.Ordinary → (∀ q ∈ ps, Fix.Pass.Needed .python q) →
      (∃ q ∈ ps, q.presentIn (h.lines ++ rest) = false) →
      (h.lines <+: insertAll .python ps (h.lines ++ rest) ↔ h.Plain)) ∧
    (∀ line, (h.lines ++ rest).head? = some line → isShebang line →
      (insertAll .python ps (h.lines ++ rest)).head? = some line) ∧
    ∀ i < 2, ∀ line, h.prelude[i]? = some line → isCodingCookie (Text.trim line) →
      (insertAll .python ps (h.lines ++ rest))[i]? = some line := by
  refine ⟨fun hplain ↦ prefix_insertAll hplain.le_anchor, fun hordinary hps hmissing ↦ ?_, ?_, ?_⟩
  · rw [Fix.prefix_insertAll_iff hps hmissing]
    exact ⟨fun hle ↦ not_not.1 fun hplain ↦ (hordinary.anchor_lt hplain).not_ge hle,
      fun hplain ↦ hplain.le_anchor⟩
  · intro line hline hshebang
    obtain ⟨lines, hlines⟩ := List.head?_eq_some_iff.1 hline
    rw [List.head?_eq_getElem?] at hline ⊢
    rw [getElem?_insertAll (by rw [hlines]; exact anchor_pos_of_shebang hshebang), hline]
  · intro i hi line hline hcookie
    have hlt : i < h.prelude.length := (List.getElem?_eq_some_iff.1 hline).1
    rw [getElem?_insertAll (lt_anchor_of_cookie hi hline hcookie), Header.lines, List.append_assoc,
      List.getElem?_append_left hlt, hline]

/-- An import on one line. -/
def FutureImport.annotations : FutureImport where
  gap := []
  idle := by simp
  first := "from __future__ import annotations".toList
  more := []
  words := ⟨[' '], [' '], " annotations".toList, by simp [Blanks, Text.isBlank],
    by simp [Blanks, Text.isBlank], by simp, by simp, by decide⟩
  isStatement := by decide
  names := by simp

/-- An import that a backslash takes to a second line. -/
def FutureImport.joined : FutureImport where
  gap := []
  idle := by simp
  first := "from __future__ import annotations, \\".toList
  more := ["    division".toList]
  words := ⟨[' '], [' '], " annotations, \\".toList, by simp [Blanks, Text.isBlank],
    by simp [Blanks, Text.isBlank], by simp, by simp, by decide⟩
  isStatement := by decide
  names := by decide

/-- A docstring in single quotes. -/
def Docstring.quoted : Docstring where
  letter := []
  letter_mem := by simp
  quote := '"'
  quote_eq := .inl rfl
  triple := false
  body := "doc\"".toList
  more := []
  isEnded := by decide
  single _ := by decide

def Header.quoted : Header := ⟨[], by simp, some .quoted, [.annotations], by simp⟩

def Header.joined : Header := ⟨[], by simp, none, [.joined], by simp⟩

theorem Header.ordinary_quoted : Header.quoted.Ordinary := by
  refine ⟨fun d hd before line after htriple ↦ ?_, fun f hf ↦ ?_⟩
  · obtain rfl : Docstring.quoted = d := Option.some.inj hd
    cases htriple
  · rw [mem_singleton.1 hf]
    exact ⟨by decide, by decide⟩

theorem Header.ordinary_joined : Header.joined.Ordinary := by
  refine ⟨fun d hd ↦ (by cases hd), fun f hf ↦ ?_⟩
  rw [mem_singleton.1 hf]
  exact ⟨by decide, by decide⟩

/-- An import goes in before a docstring in single quotes, and between joined lines. -/
theorem Header.insertAll_keeps_iff_quoted :
    Header.quoted.Ordinary ∧ Header.joined.Ordinary ∧
      ¬Header.quoted.lines <+: insertAll .python [Fix.importAst]
        (Header.quoted.lines ++ ["x = ast.literal_eval(a)".toList]) ∧
      ¬Header.joined.lines <+: insertAll .python [Fix.importAst]
        (Header.joined.lines ++ ["x = ast.literal_eval(a)".toList]) := by
  have hneeded : ∀ q ∈ [Fix.importAst], Fix.Pass.Needed .python q := by
    simpa using ⟨.dangerousEval, rfl⟩
  refine ⟨ordinary_quoted, ordinary_joined, fun hprefix ↦ ?_, fun hprefix ↦ ?_⟩
  · have hplain := ((Header.quoted.insertAll_keeps_iff _ [Fix.importAst]).2.1 ordinary_quoted hneeded
      ⟨_, List.mem_cons_self, by decide⟩).1 hprefix
    cases (hplain.1 .quoted rfl).1
  · have hplain := ((Header.joined.insertAll_keeps_iff _ [Fix.importAst]).2.1 ordinary_joined hneeded
      ⟨_, List.mem_cons_self, by decide⟩).1 hprefix
    have hopen := (hplain.2 .joined (by simp [Header.joined])).opens (by decide)
    exact absurd hopen (by decide)

end Python

end Steward
