import Steward.Proofs.Comment.Grammar
import Steward.Proofs.Fix.Avoid

/-!
# The ranges that a fix replaces

An edit stands within its match, `Fix.edit?_within`, so the edits of a line are one behind the other.
Made from the end of the line, they give the same as if the line was put together from left to right,
`Fix.foldr_apply`. And they can be made on the bytes of the line, where a range must not cut a
character in two: each is still as good when its turn comes, `Fix.foldrM_replace?`.
-/

namespace Steward

open Text (Line byteOffset)
open List

namespace Utf8

/-- Whether the bytes before an index are characters as a whole. -/
def isBoundary (bytes : List UInt8) (i : Nat) : Bool :=
  i ≤ bytes.length && (decode (bytes.take i)).isSome

/-- Puts other bytes in the place of a range; none if it is not one of whole characters. -/
def replaceRange? (bytes : List UInt8) (range : Span) (new : List UInt8) : Option (List UInt8) :=
  if range.start ≤ range.stop ∧ isBoundary bytes range.start ∧ isBoundary bytes range.stop then
    some (bytes.take range.start ++ new ++ bytes.drop range.stop)
  else none

theorem isBoundary_encode (a b : List Char) : isBoundary (encode (a ++ b)) (encode a).length := by
  simp [isBoundary, encode_append, decode_encode]

theorem replaceRange?_encode (a b c new : List Char) :
    replaceRange? (encode (a ++ b ++ c)) ⟨(encode a).length, (encode (a ++ b)).length⟩ (encode new) =
      some (encode (a ++ new ++ c)) := by
  have hstart := isBoundary_encode a (b ++ c)
  rw [← append_assoc] at hstart
  rw [replaceRange?, if_pos ⟨by simp [encode_append], hstart, isBoundary_encode (a ++ b) c⟩]
  simp [encode_append]

end Utf8

namespace Fix

open Detector Pattern

variable {l : Language} {h : Hazard} {line : Line} {es : List Edit} {e : Edit}

/-! ## Spans of edits -/

/-- The text that an edit replaces is some of the text that the match takes. -/
theorem edit?_within {pre w post : List Char} {gs : Groups}
    (hw : Takes (ofHazard h).pattern pre w post [] gs)
    (he : edit? l h (pre ++ w ++ post) ⟨⟨pre.length, (pre ++ w).length⟩, gs⟩ = some e) :
    pre.length ≤ e.span.start ∧ e.span.start < e.span.stop ∧ e.span.stop ≤ (pre ++ w).length := by
  have hpos := length_pos_iff.2 (takes_ne_nil hw)
  cases h with
  | hardcodedPassword =>
    obtain ⟨sign, _, rfl, -, ⟨q, body, rfl, -⟩, -, rfl⟩ := takes_passwordPattern hw
    obtain ⟨code, -, ⟨⟩⟩ := Option.bind_eq_some_iff.1 he
    simp
  | hardcodedApiKey =>
    obtain ⟨name, -, sign, _, rfl, -, ⟨q, body, rfl, -⟩, -, rfl⟩ := takes_apiKeyPattern hw
    obtain ⟨code, -, ⟨⟩⟩ := Option.bind_eq_some_iff.1 he
    simp
  | awsAccessKey | consoleLog => cases he
  | dangerousEval =>
    obtain ⟨code, -, rfl⟩ := Option.map_eq_some_iff.1 he
    simpa using hpos
  | bareExcept | anyType =>
    cases he
    simpa using hpos
  | commandInjection =>
    obtain ⟨name, -, b, var, b', c, rfl, -, hvar, -, -, -, rfl⟩ := takes_commandPattern hw
    obtain ⟨code, -, ⟨⟩⟩ := Option.bind_eq_some_iff.1 he
    have hvar := length_pos_iff.2 hvar.1
    simp only [length_append, length_cons]
    omega
  | todoComment =>
    obtain ⟨marker, -, rfl, -, -, rfl⟩ := takes_todoPattern hw
    cases he
    simpa using hpos

/-- The edits are in the line, none of them empty, and each stands behind the one before. -/
structure Laid (line : Line) (es : List Edit) : Prop where
  within : ∀ e ∈ es, e.span.start < e.span.stop ∧ e.span.stop ≤ line.length
  ordered : es.Pairwise fun e e' ↦ e.span.stop ≤ e'.span.start

theorem Laid.tail (h : Laid line (e :: es)) :
    Laid line es ∧ ∀ e' ∈ es, e.span.stop ≤ e'.span.start :=
  ⟨⟨fun e' he' ↦ h.within e' (mem_cons_of_mem e he'), h.ordered.of_cons⟩,
    fun _ ↦ rel_of_pairwise_cons h.ordered⟩

/-- The edits of a line are one behind the other, as the matches are. -/
theorem laid_edits (l : Language) (h : Hazard) (line : Line) : Laid line (edits l h line) := by
  have hwithin {m : Match} (hm : m ∈ (ofHazard h).placed l line) {e : Edit}
      (he : edit? l h line m = some e) : m.whole.start ≤ e.span.start ∧
        e.span.start < e.span.stop ∧ e.span.stop ≤ m.whole.stop ∧ m.whole.stop ≤ line.length := by
    obtain ⟨pre, w, post, rfl, htakes, hwhole⟩ := found_of_mem_matches (mem_of_mem_filter hm)
    cases m
    cases hwhole
    obtain ⟨hstart, hlt, hstop⟩ := edit?_within htakes he
    exact ⟨hstart, hlt, hstop, by simp⟩
  constructor
  · intro e he
    obtain ⟨m, hm, he⟩ := mem_filterMap.1 he
    obtain ⟨-, hlt, hle, hline⟩ := hwithin hm he
    exact ⟨hlt, hle.trans hline⟩
  · have hpairs : ((ofHazard h).placed l line).Pairwise fun m m' ↦ m.whole.stop ≤ m'.whole.start :=
      (pairwise_matches _ line).filter _
    refine pairwise_filterMap.2 (hpairs.imp_of_mem fun hm hm' hle e he e' he' ↦ ?_)
    exact (hwithin hm he).2.2.1.trans (hle.trans (hwithin hm' he').1)

/-! ## From left to right -/

/-- The line from an index on with its edits, from left to right: what stands between their spans is
copied. -/
def spliceFrom (line : Line) (i : Nat) : List Edit → Line
  | [] => line.drop i
  | e :: es => (⟨i, e.span.start⟩ : Span).text line ++ e.text ++ spliceFrom line e.span.stop es

/-- The line with its edits, from left to right. -/
def splice (line : Line) (es : List Edit) : Line := spliceFrom line 0 es

theorem take_append_text {i j : Nat} (hij : i ≤ j) (line : Line) :
    line.take i ++ (⟨i, j⟩ : Span).text line = line.take j := by
  have hi : line.take i = (line.take j).take i := by rw [take_take, min_eq_left hij]
  rw [Span.text, hi, take_append_drop]

/-- An edit of a line that is still as it was up to the end of the edit's span. -/
theorem Edit.apply_take_append (hlt : e.span.start < e.span.stop) (hle : e.span.stop ≤ line.length)
    (rest : List Char) : e.apply (line.take e.span.stop ++ rest) =
      line.take e.span.start ++ e.text ++ rest := by
  have hstop : (line.take e.span.stop).length = e.span.stop := length_take_of_le hle
  rw [Edit.apply, take_append_of_le_length (by omega), take_take, min_eq_left hlt.le,
    drop_left' hstop]

/-- Edits made from the end of the line leave what is before them, and give the same as from left to
right. -/
theorem foldr_apply (hes : Laid line es) {i : Nat} (hi : ∀ e ∈ es, i ≤ e.span.start) :
    es.foldr Edit.apply line = line.take i ++ spliceFrom line i es := by
  induction es generalizing i with
  | nil => exact (take_append_drop i line).symm
  | cons e es ih =>
    obtain ⟨hlt, hle⟩ := hes.within e mem_cons_self
    rw [foldr_cons, ih hes.tail.1 hes.tail.2, e.apply_take_append hlt hle, spliceFrom,
      ← append_assoc, ← append_assoc, take_append_text (hi e mem_cons_self)]

/-! ## On bytes -/

/-- The bytes of the line that an edit replaces. -/
def Edit.range (line : Line) (e : Edit) : Span :=
  ⟨byteOffset line e.span.start, byteOffset line e.span.stop⟩

/-- Makes an edit of a line on bytes that may have been edited behind it; none if its range is not
one of whole characters there. -/
def Edit.replace? (line : Line) (e : Edit) (bytes : List UInt8) : Option (List UInt8) :=
  Utf8.replaceRange? bytes (e.range line) (Utf8.encode e.text)

/-- No edit cuts a character in two when its turn comes. -/
theorem foldrM_replace? (hes : Laid line es) : es.foldrM (Edit.replace? line) (Utf8.encode line) =
    some (Utf8.encode (es.foldr Edit.apply line)) := by
  induction es with
  | nil => rfl
  | cons e es ih =>
    obtain ⟨hlt, hle⟩ := hes.within e mem_cons_self
    rw [foldrM_cons, ih hes.tail.1, foldr_cons, foldr_apply hes.tail.1 hes.tail.2,
      e.apply_take_append hlt hle]
    change e.replace? line _ = _
    rw [Edit.replace?, Edit.range, Language.byteOffset_eq, Language.byteOffset_eq,
      ← take_append_text hlt.le]
    exact Utf8.replaceRange?_encode _ _ _ e.text

theorem isBoundary_byteOffset (line : Line) (i : Nat) :
    Utf8.isBoundary (Utf8.encode line) (byteOffset line i) := by
  have htake := Utf8.isBoundary_encode (line.take i) (line.drop i)
  rwa [take_append_drop, ← Language.byteOffset_eq] at htake

theorem encode_take_isPrefix {i j : Nat} (hij : i ≤ j) (line : Line) :
    Utf8.encode (line.take i) <+: Utf8.encode (line.take j) :=
  Utf8.encode_isPrefix_iff.2 (take_prefix_take_left hij)

theorem byteOffset_mono {i j : Nat} (hij : i ≤ j) (line : Line) :
    byteOffset line i ≤ byteOffset line j := by
  rw [Language.byteOffset_eq, Language.byteOffset_eq]
  exact (encode_take_isPrefix hij line).length_le

theorem byteOffset_lt {i j : Nat} (hij : i < j) (hj : j ≤ line.length) :
    byteOffset line i < byteOffset line j := by
  refine (byteOffset_mono hij.le line).lt_of_ne fun heq ↦ hij.ne ?_
  rw [Language.byteOffset_eq, Language.byteOffset_eq] at heq
  have htake := Utf8.encode_injective ((encode_take_isPrefix hij.le line).eq_of_length heq)
  rw [← length_take_of_le hj, ← length_take_of_le (hij.le.trans hj), htake]

/-! ## The fixed line -/

theorem line?_eq_foldr (hconsole : h ≠ .consoleLog) : line? l h line =
    if edits l h line = [] then none else some ((edits l h line).foldr Edit.apply line) := by
  split_ifs with hedits
  · cases h <;> first | contradiction | rfl | simp only [line?, hedits]
  · have haws : h ≠ .awsAccessKey := by
      rintro rfl
      exact hedits (filterMap_eq_nil_iff.2 fun _ _ ↦ rfl)
    exact line?_of_edits haws hconsole hedits

/-- **Edits from the end of a line are edits from left to right.** The ranges of bytes that a fix
replaces consist of whole characters, and each ends before the next one starts. Replaced from the
last to the first, each is still one of whole characters. The result is what stands between the
ranges in the old line, with the new texts in between. A line with `console.log` has no edits; it
becomes a comment. -/
theorem line?_eq_splice (l : Language) (h : Hazard) (line : Line) :
    let es := edits l h line
    (∀ e ∈ es, (e.range line).start < (e.range line).stop ∧
      Utf8.isBoundary (Utf8.encode line) (e.range line).start ∧
      Utf8.isBoundary (Utf8.encode line) (e.range line).stop) ∧
    es.Pairwise (fun e e' ↦ (e.range line).stop ≤ (e'.range line).start) ∧
    es.foldrM (Edit.replace? line) (Utf8.encode line) = some (Utf8.encode (splice line es)) ∧
    line? l h line = if h = .consoleLog then some (commentOut l line)
      else if es = [] then none else some (splice line es) := by
  intro es
  have hes : Laid line es := laid_edits l h line
  have hsplice : es.foldr Edit.apply line = splice line es := foldr_apply hes fun _ _ ↦ Nat.zero_le _
  refine ⟨fun e he ↦ ?_, hes.ordered.imp fun hle ↦ byteOffset_mono hle line, ?_, ?_⟩
  · obtain ⟨hlt, hle⟩ := hes.within e he
    exact ⟨byteOffset_lt hlt hle, isBoundary_byteOffset line _, isBoundary_byteOffset line _⟩
  · rw [foldrM_replace? hes, hsplice]
  · by_cases hconsole : h = .consoleLog
    · subst hconsole
      rfl
    · rw [if_neg hconsole, line?_eq_foldr hconsole, hsplice]

/-- A line with two calls, among characters of two and of three bytes. -/
def accentedLine : Line := "é = eval(ü) + eval('✓')".toList

/-- The edit of a call that starts at an index. -/
def callEdit (i : Nat) : Edit := ⟨⟨i, i + 5⟩, "ast.literal_eval(".toList⟩

theorem line?_eq_splice_accented :
    edits .python .dangerousEval accentedLine = [callEdit 4, callEdit 14] ∧
    (callEdit 14).range accentedLine = ⟨16, 21⟩ ∧ Utf8.isBoundary (Utf8.encode accentedLine) 16 ∧
    line? .python .dangerousEval accentedLine =
      some "é = ast.literal_eval(ü) + ast.literal_eval('✓')".toList := by
  have hedits : edits .python .dangerousEval accentedLine = [callEdit 4, callEdit 14] := by
    decide +kernel
  obtain ⟨hranges, -, -, hline⟩ := line?_eq_splice .python .dangerousEval accentedLine
  rw [hedits] at hranges hline
  exact ⟨hedits, by decide, (hranges (callEdit 14) (by simp)).2.1, hline.trans (by decide)⟩

end Fix

end Steward
