import Steward.Ledger.Log
import Steward.Proofs.Ledger.Codec

/-!
# The chain and its text

The check of a chain goes through a text line by line. What it finds depends on less: on the
readable records, `Ledger.records`, and on how many lines are torn. `Ledger.Chained` is what it
means for a list of records to be a chain, and `Ledger.check_valid_iff` that the check tests that.

The second part is about adding a record at the end of a text. If the text ends within a line, that
line is ended first. It then loses a `CR` that it may have ended with, which changes nothing for the
reader of records, so that the lines before read as they did: `Ledger.slots_append_lineFor`.
-/

namespace Steward

open List

/-! ## Lines -/

namespace Text

theorem linesFrom_eq_append (done : List Line) (current text : List Char) :
    linesFrom done current text = done.reverse ++ linesFrom [] current text := by
  induction text generalizing done current with
  | nil => cases current <;> simp [linesFrom]
  | cons c cs ih =>
    by_cases hc : c = '\n'
    · simp only [linesFrom, hc, if_true]
      rw [ih (endLine current :: done), ih [endLine current]]
      simp
    · simp only [linesFrom, hc, if_false]
      exact ih done (c :: current)

theorem linesFrom_append_newline (done : List Line) (current t s : List Char) :
    linesFrom done current (t ++ '\n' :: s) =
      linesFrom done current (t ++ ['\n']) ++ lines s := by
  induction t generalizing done current with
  | nil =>
    simp only [nil_append, linesFrom, if_true, isEmpty_nil, lines]
    exact linesFrom_eq_append _ _ _
  | cons c cs ih =>
    by_cases hc : c = '\n'
    · simpa only [cons_append, linesFrom, hc, if_true] using ih _ _
    · simpa only [cons_append, linesFrom, hc, if_false] using ih _ _

/-- The lines after the end of a line are lines of their own. -/
theorem lines_append_newline (t s : List Char) :
    lines (t ++ '\n' :: s) = lines (t ++ ['\n']) ++ lines s := linesFrom_append_newline _ _ t s

/-- A text that ends within a line has that line as its last, and ending the line changes no other
one. -/
theorem linesFrom_end (done : List Line) (current : List Char) {text : List Char}
    (hcurrent : text = [] → current ≠ []) (htext : text.getLast? ≠ some '\n') :
    ∃ before last, linesFrom done current text = before ++ [last.reverse] ∧
      linesFrom done current (text ++ ['\n']) = before ++ [endLine last] := by
  induction text generalizing done current with
  | nil => exact ⟨done.reverse, current, by simp [linesFrom, hcurrent rfl], by simp [linesFrom]⟩
  | cons c cs ih =>
    by_cases hc : c = '\n'
    · have hcs : cs ≠ [] := by
        rintro rfl
        simp [hc] at htext
      have hlast : cs.getLast? ≠ some '\n' := by
        rwa [getLast?_cons_of_ne_nil hcs] at htext
      simpa only [cons_append, linesFrom, hc, if_true] using
        ih (endLine current :: done) [] (fun h ↦ absurd h hcs) hlast
    · have hlast : cs.getLast? ≠ some '\n' := by
        intro h
        refine htext ?_
        rwa [getLast?_cons_of_ne_nil (by rintro rfl; simp at h)]
      simpa only [cons_append, linesFrom, hc, if_false] using
        ih done (c :: current) (fun _ ↦ cons_ne_nil c current) hlast

/-- A line under way ends without the return before its break. -/
theorem endLine_cases (current : List Char) : endLine current = current.reverse ∨
    current.reverse = endLine current ++ ['\r'] := by
  unfold endLine
  split
  · right
    rw [reverse_cons]
  · exact .inl rfl

theorem linesFrom_of_newline_notMem {line : Line} (h : '\n' ∉ line) (current rest : List Char) :
    linesFrom [] current (line ++ rest) = linesFrom [] (line.reverse ++ current) rest := by
  induction line generalizing current with
  | nil => rfl
  | cons c cs ih =>
    rw [mem_cons, not_or] at h
    rw [cons_append, linesFrom, if_neg (Ne.symm h.1), ih h.2]
    simp

theorem linesFrom_newline (current rest : List Char) :
    linesFrom [] current ('\n' :: rest) = endLine current :: lines rest := by
  rw [linesFrom, if_pos rfl, linesFrom_eq_append]
  rfl

/-- A line that does not end in a return is read back. -/
theorem lines_append_newline_cons {x : Line} (hnewline : '\n' ∉ x) (hlast : x.getLast? ≠ some '\r')
    (rest : List Char) : lines (x ++ '\n' :: rest) = x :: lines rest := by
  have hend : endLine x.reverse = x := by
    obtain h | h := endLine_cases x.reverse
    · rw [h, reverse_reverse]
    · rw [reverse_reverse] at h
      exact absurd (by rw [h, getLast?_concat]) hlast
  rw [lines, linesFrom_of_newline_notMem hnewline, append_nil, linesFrom_newline, hend]

theorem lines_of_no_newline {l : List Char} (h : '\n' ∉ l) (hcr : '\r' ∉ l) :
    lines (l ++ ['\n']) = [l] :=
  lines_append_newline_cons h (fun hlast ↦ hcr (mem_of_getLast? hlast)) []

theorem isAllBlank_append (l m : List Char) :
    isAllBlank (l ++ m) = (isAllBlank l && isAllBlank m) := all_append

end Text

namespace Ledger

variable {digest : Digest} {text : List Char} {r : Record}

/-! ## What a check depends on -/

/-- Each line that is not blank, as the record that it holds or as torn. -/
def slots (text : List Char) : List (Option Record) :=
  ((Text.lines text).filter fun l ↦ !Text.isAllBlank l).map Record.parse?

/-- The number of torn lines. -/
def torn (text : List Char) : Nat := (slots text).count none

/-- Records of which each carries the hash of the one before it, the first `prev`, and the hash that
its own content gives. -/
def Chained (digest : Digest) : String → List Record → Prop
  | _, [] => True
  | prev, r :: rs => r.prevHash = prev ∧ r.computeHash digest = r.hash ∧ Chained digest r.hash rs

theorem numbered_map (text : List Char) :
    (numbered text).map (fun l ↦ Record.parse? l.2) = slots text := by
  have hfrom (ls : List Text.Line) (n : Nat) :
      ((ls.zipIdx n).filterMap fun p ↦
        if Text.isAllBlank p.1 then none else some (p.2, p.1)).map (fun l ↦ Record.parse? l.2) =
      (ls.filter fun l ↦ !Text.isAllBlank l).map Record.parse? := by
    induction ls generalizing n with
    | nil => rfl
    | cons l ls ih =>
      by_cases hl : Text.isAllBlank l = true
      · simp [hl, ih]
      · simp [hl, ih]
  exact hfrom _ 1

theorem records_eq_slots (text : List Char) : records text = (slots text).reduceOption := by
  rw [records, ← numbered_map, List.reduceOption, filterMap_map]
  rfl

section Check

variable {digest : Digest} {prev : String}

theorem checkFrom_of_chained {ls : List (Nat × Text.Line)}
    (h : Chained digest prev (ls.map fun l ↦ Record.parse? l.2).reduceOption) (count torn : Nat) :
    checkFrom digest prev count torn ls =
      ⟨count + (ls.map fun l ↦ Record.parse? l.2).reduceOption.length, none,
        torn + (ls.map fun l ↦ Record.parse? l.2).count none⟩ := by
  induction ls generalizing prev count torn with
  | nil => rfl
  | cons l ls ih =>
    obtain ⟨n, l⟩ := l
    cases hl : Record.parse? l with
    | none =>
      simp only [map_cons, hl, reduceOption_cons_of_none] at h
      simp only [checkFrom, hl, ih h, map_cons, reduceOption_cons_of_none,
        count_cons_self]
      congr 1
      omega
    | some r =>
      simp only [map_cons, hl, reduceOption_cons_of_some] at h
      obtain ⟨hprev, hhash, hrest⟩ := h
      simp only [checkFrom, hl, hprev, hhash, ne_eq, not_true_eq_false, if_false, ih hrest,
        map_cons, reduceOption_cons_of_some, length_cons]
      congr 1
      omega

theorem chained_of_checkFrom {ls : List (Nat × Text.Line)} {count torn : Nat}
    (h : (checkFrom digest prev count torn ls).valid) :
    Chained digest prev (ls.map fun l ↦ Record.parse? l.2).reduceOption := by
  induction ls generalizing prev count torn with
  | nil => trivial
  | cons l ls ih =>
    obtain ⟨n, l⟩ := l
    cases hl : Record.parse? l with
    | none =>
      simp only [checkFrom, hl] at h
      simpa only [map_cons, hl, reduceOption_cons_of_none] using ih h
    | some r =>
      simp only [checkFrom, hl] at h
      split_ifs at h with hprev hhash
      · cases h
      · cases h
      · simp only [map_cons, hl, reduceOption_cons_of_some]
        exact ⟨not_not.1 hprev, not_not.1 hhash, ih h⟩

end Check

/-- What the check of a chain finds. -/
theorem check_of_chained (h : Chained digest genesisHash (records text)) :
    check digest text = ⟨(records text).length, none, torn text⟩ := by
  rw [records_eq_slots, ← numbered_map] at h
  rw [check, checkFrom_of_chained h, records_eq_slots, torn, ← numbered_map, Nat.zero_add,
    Nat.zero_add]

theorem check_valid_iff :
    (check digest text).valid ↔ Chained digest genesisHash (records text) := by
  refine ⟨fun h ↦ ?_, fun h ↦ by rw [check_of_chained h]; rfl⟩
  rw [records_eq_slots, ← numbered_map]
  exact chained_of_checkFrom h

/-- The hash that the next record carries. -/
def lastHash (prev : String) (rs : List Record) : String := (rs.getLast?.map (·.hash)).getD prev

theorem lastHash_cons (prev : String) (r : Record) (rs : List Record) :
    lastHash prev (r :: rs) = lastHash r.hash rs := by
  rw [lastHash, lastHash, getLast?_cons]
  cases rs.getLast? <;> rfl

theorem chained_concat {prev : String} {rs : List Record} :
    Chained digest prev (rs ++ [r]) ↔
      Chained digest prev rs ∧ r.prevHash = lastHash prev rs ∧ r.computeHash digest = r.hash := by
  induction rs generalizing prev with
  | nil => simp [Chained, lastHash]
  | cons s rs ih => simp only [cons_append, Chained, ih, lastHash_cons, and_assoc]

/-! ## A record at the end -/

namespace Record

theorem newline_not_mem_line (r : Record) : '\n' ∉ r.line :=
  fun hm ↦ absurd (r.printable_line _ hm) (by decide)

theorem cr_not_mem_line (r : Record) : '\r' ∉ r.line :=
  fun hm ↦ absurd (r.printable_line _ hm) (by decide)

theorem isAllBlank_line (r : Record) : Text.isAllBlank r.line = false := by
  obtain ⟨cs, hcs⟩ := r.line_eq_cons
  rw [hcs]
  rfl

end Record

@[simp]
theorem slots_nil : slots [] = [] := rfl

theorem slots_append_newline (t s : List Char) :
    slots (t ++ '\n' :: s) = slots (t ++ ['\n']) ++ slots s := by
  rw [slots, Text.lines_append_newline, filter_append, map_append]
  rfl

/-- Ending the last line changes nothing. -/
theorem slots_end (hne : text ≠ []) (hlast : text.getLast? ≠ some '\n') :
    slots (text ++ ['\n']) = slots text := by
  obtain ⟨before, last, htext, hended⟩ :=
    Text.linesFrom_end [] [] (fun h ↦ absurd h hne) hlast
  rw [slots, slots, Text.lines, Text.lines, htext, hended]
  simp only [filter_append, map_append, append_cancel_left_eq]
  -- The line may lose a `CR`, which is blank and which the reader does not need.
  unfold Text.endLine
  split
  · rename_i cs
    have hblank : Text.isAllBlank (cs.reverse ++ ['\r']) = Text.isAllBlank cs.reverse := by
      rw [Text.isAllBlank_append]
      simp [Text.isAllBlank, Text.isBlank]
    simp only [reverse_cons, filter_singleton, hblank]
    cases Text.isAllBlank cs.reverse <;> simp [Record.parse?_append_cr]
  · rfl

/-- What follows is read on its own, once the last line is ended. -/
theorem slots_append_sealed {tail : Tail}
    (htail : tail.needsNewline = text.getLast?.any (· != '\n')) (more : List Char) :
    slots (text ++ ((if tail.needsNewline then ['\n'] else []) ++ more)) =
      slots text ++ slots more := by
  rcases eq_nil_or_concat text with rfl | ⟨t, c, rfl⟩
  · simp [htail]
  · by_cases hc : c = '\n'
    · subst hc
      simpa [htail] using slots_append_newline t more
    · have hended : slots (t ++ [c] ++ ['\n']) = slots (t ++ [c]) :=
        slots_end (by simp) (by simpa using hc)
      simpa [htail, hc, ← hended] using slots_append_newline (t ++ [c]) more

/-- A line that is not blank. -/
theorem slots_of_no_newline {l : List Char} (hnewline : '\n' ∉ l) (hcr : '\r' ∉ l)
    (hblank : Text.isAllBlank l = false) : slots (l ++ ['\n']) = [Record.parse? l] := by
  simp [slots, Text.lines_of_no_newline hnewline hcr, hblank]

theorem slots_line (h : r.entry.Fits) : slots (r.line ++ ['\n']) = [some r] := by
  rw [slots_of_no_newline r.newline_not_mem_line r.cr_not_mem_line r.isAllBlank_line,
    Record.parse?_line h]

/-- The lines that were there read as they did, and the record that was added is read back. -/
theorem slots_append_lineFor {tail : Tail} (h : r.entry.Fits)
    (htail : tail.needsNewline = text.getLast?.any (· != '\n')) :
    slots (text ++ tail.lineFor r) = slots text ++ [some r] := by
  rw [Tail.lineFor, append_assoc, slots_append_sealed htail, slots_line h]

/-- The tail of a ledger that ends in a text. Its time does not matter for the chain. -/
structure Tail.Follows (tail : Tail) (text : List Char) : Prop where
  lastHash : tail.lastHash = Ledger.lastHash genesisHash (records text)
  needsNewline : tail.needsNewline = text.getLast?.any (· != '\n')

theorem Tail.follows_ofText (text : List Char) : (Tail.ofText text).Follows text := ⟨rfl, rfl⟩

section Next

variable {digest : Digest} {text : List Char} {tail : Tail} {e : Entry}

theorem records_append_next (h : tail.Follows text) (he : e.Fits) (now : Instant) :
    records (text ++ tail.lineFor (tail.next digest now e)) =
      records text ++ [tail.next digest now e] := by
  have hslots := slots_append_lineFor (r := tail.next digest now e) he h.needsNewline
  rw [records_eq_slots, hslots, reduceOption_append, ← records_eq_slots,
    reduceOption_singleton]
  rfl

theorem torn_append_next (h : tail.Follows text) (he : e.Fits) (now : Instant) :
    torn (text ++ tail.lineFor (tail.next digest now e)) = torn text := by
  have hslots := slots_append_lineFor (r := tail.next digest now e) he h.needsNewline
  rw [torn, hslots, count_append, torn]
  simp

/-- The next record goes on with the chain. -/
theorem chained_append_next (h : tail.Follows text) (he : e.Fits) (now : Instant)
    (hchain : Chained digest genesisHash (records text)) :
    Chained digest genesisHash (records (text ++ tail.lineFor (tail.next digest now e))) := by
  rw [records_append_next h he]
  exact chained_concat.2 ⟨hchain, h.lastHash, rfl⟩

theorem Tail.Follows.after (h : tail.Follows text) (he : e.Fits) (now : Instant) :
    (tail.after now (tail.next digest now e)).Follows
      (text ++ tail.lineFor (tail.next digest now e)) where
  lastHash := by simp [records_append_next h he, Ledger.lastHash, Tail.after]
  needsNewline := by simp [Tail.lineFor, Tail.after]

end Next

end Ledger

end Steward
