import Steward.Proofs.Fix.Convergence

/-!
# Where preambles go

The end of a file's header is a place among its lines, so that the preambles that are missing go in
there together and in order, `Preamble.insertAll_eq`. Which ones are missing does not depend on the
fixes: a line that does what a preamble is for has nothing on it to fix, and no fix makes such a
line, `Fix.metBy_of_mends`.
-/

namespace Steward

open Text (Line Blanks tokens)
open List

namespace Text

/-- Trimming takes space away at both ends. -/
theorem exists_trim (line : Line) : ∃ b b', line = b ++ trim line ++ b' ∧ Blanks b ∧ Blanks b' := by
  refine ⟨line.takeWhile isBlank, ((trimStart line).reverse.takeWhile isBlank).reverse, ?_,
    fun c hc ↦ mem_takeWhile_imp hc,
    fun c hc ↦ mem_takeWhile_imp (mem_reverse.1 hc)⟩
  have hend : trim line ++ ((trimStart line).reverse.takeWhile isBlank).reverse = trimStart line := by
    rw [trim, trimEnd, ← reverse_append, takeWhile_append_dropWhile, reverse_reverse]
  rw [append_assoc, hend, trimStart, takeWhile_append_dropWhile]

theorem mem_trim_of_mem {line : Line} {c : Char} (hc : c ∈ line) (hblank : isBlank c = false) :
    c ∈ trim line := by
  obtain ⟨b, b', hline, hb, hb'⟩ := exists_trim line
  rw [hline, mem_append, mem_append] at hc
  obtain (hc | hc) | hc := hc
  · simp [hb c hc] at hblank
  · exact hc
  · simp [hb' c hc] at hblank

end Text

/-! ## The end of the header -/

namespace Preamble

variable {l : Language} {lines : List Line}
variable {ps : List Preamble}

theorem docstringLength?_le {line : Line} {rest : List Line} {n : Nat}
    (h : docstringLength? line rest = some n) : n ≤ rest.length + 1 := by
  simp only [docstringLength?, Option.bind_eq_bind, Option.bind_eq_some_iff] at h
  obtain ⟨delim, -, h⟩ := h
  split_ifs at h
  · cases h
    exact Nat.le_add_left 1 _
  · obtain ⟨i, hi, rfl⟩ := Option.map_eq_some_iff.1 h
    obtain ⟨hlt, -⟩ := findIdx?_eq_some_iff_findIdx_eq.1 hi
    omega

theorem importLength_le (line : Line) (rest : List Line) :
    importLength line rest ≤ rest.length + 1 := by
  rw [importLength]
  split_ifs
  · exact min_le_right _ _
  · exact Nat.le_add_left 1 _

theorem pythonHeader_le {i anchor : Nat} {docstringAllowed : Bool} {skip : Nat}
    (h : anchor ≤ i + lines.length) :
    pythonHeader i anchor docstringAllowed skip lines ≤ i + lines.length := by
  induction lines generalizing i anchor docstringAllowed skip with
  | nil => rwa [pythonHeader]
  | cons line rest ih =>
    have hlength : i + (line :: rest).length = i + 1 + rest.length := by
      rw [length_cons]
      omega
    rw [hlength] at h ⊢
    cases skip with
    | succ skip => exact ih h
    | zero =>
      have himport := importLength_le line rest
      rw [pythonHeader]
      dsimp only
      split
      · exact ih (Nat.le_add_right _ _)
      split
      · exact ih h
      split
      · rename_i n hn
        split_ifs at hn
        have hdocstring := docstringLength?_le hn
        exact ih (by omega)
      split
      · exact ih (by omega)
      · exact h

/-- The header ends in the file. -/
theorem anchor_le (l : Language) (lines : List Line) : anchor l lines ≤ lines.length := by
  have hshebang : (if lines.head?.any isShebang then 1 else 0) ≤ lines.length := by
    cases lines with
    | nil => exact le_refl 0
    | cons line rest => split_ifs <;> simp
  have hpast (s : Nat) (hs : s ≤ lines.length) (p : Line → Bool) :
      s + ((lines.drop s).takeWhile p).length ≤ lines.length := by
    have hle := (takeWhile_sublist p (l := lines.drop s)).length_le
    rw [length_drop] at hle
    omega
  cases l with
  | python =>
    have hle : pythonHeader 0 0 true 0 lines ≤ 0 + lines.length := pythonHeader_le (Nat.zero_le _)
    rwa [Nat.zero_add] at hle
  | script => exact hpast _ hshebang _
  | ruby => exact hpast _ hshebang _
  | go =>
    rw [anchor]
    split
    · rename_i i hi
      obtain ⟨hlt, -⟩ := findIdx?_eq_some_iff_findIdx_eq.1 hi
      exact hlt
    · exact Nat.zero_le _
  | _ => exact hshebang

/-! ## Inserting -/

/-- The lines that do what the preamble is for. -/
def texts (q : Preamble) : List String := q.line :: q.satisfiedBy

/-- Whether a line does what the preamble is for. -/
def metBy (q : Preamble) (line : Line) : Bool := q.texts.contains (String.ofList (Text.trim line))

theorem presentIn_eq (q : Preamble) (lines : List Line) : q.presentIn lines = lines.any q.metBy := by
  refine congrArg lines.any (funext fun line ↦ ?_)
  rw [metBy, texts, contains_cons]
  rfl

/-- Lines that are put in at one place leave what is there, and may add to it. -/
theorem presentIn_around (q : Preamble) (a : Nat) (lines added : List Line) :
    q.presentIn (lines.take a ++ added ++ lines.drop a) =
      (q.presentIn lines || added.any q.metBy) := by
  have hlines : q.presentIn lines = ((lines.take a).any q.metBy || (lines.drop a).any q.metBy) := by
    rw [presentIn_eq, ← any_append, take_append_drop]
  rw [hlines, presentIn_eq, any_append, any_append, Bool.or_right_comm]

theorem insertIdx_around {a : Nat} (ha : a ≤ lines.length) (added : List Line) (x : Line) :
    (lines.take a ++ added ++ lines.drop a).insertIdx a x =
      lines.take a ++ x :: added ++ lines.drop a := by
  have hinsert (xs ys : List Line) : (xs ++ ys).insertIdx xs.length x = xs ++ x :: ys := by
    induction xs with
    | nil => rfl
    | cons y xs ih => simp [insertIdx_succ_cons, ih]
  have htake := hinsert (lines.take a) (added ++ lines.drop a)
  rw [length_take_of_le ha] at htake
  rw [append_assoc, htake, append_assoc, cons_append]

/-- The preambles of a list are put in one by one, the last one first. -/
def putAt (a : Nat) (ps : List Preamble) (lines : List Line) : List Line :=
  ps.foldr (fun p ls => if p.presentIn ls then ls else ls.insertIdx a p.line.toList) lines

theorem insertAll_eq_putAt : insertAll l ps lines = putAt (anchor l lines) ps lines := rfl

/-- Preambles that are missing go in at one place, and some do if there are any. -/
theorem exists_putAt {a : Nat} (ha : a ≤ lines.length) (ps : List Preamble) :
    ∃ added, putAt a ps lines = lines.take a ++ added ++ lines.drop a ∧
      (∀ line ∈ added, ∃ q ∈ ps, q.presentIn lines = false ∧ line = q.line.toList) ∧
      ((∃ q ∈ ps, q.presentIn lines = false) → added ≠ []) := by
  induction ps with
  | nil => exact ⟨[], by simp [putAt], by simp, by simp⟩
  | cons q ps ih =>
    obtain ⟨added, hadded, hlines, hsome⟩ := ih
    rw [putAt] at hadded
    rw [putAt, foldr_cons, hadded, presentIn_around]
    cases hq : q.presentIn lines || added.any q.metBy with
    | true =>
      refine ⟨added, rfl, fun line hline ↦ ?_, ?_⟩
      · obtain ⟨q', hq', hmissing⟩ := hlines line hline
        exact ⟨q', mem_cons_of_mem q hq', hmissing⟩
      · rintro ⟨q', hq', hmissing⟩ rfl
        rcases mem_cons.1 hq' with rfl | hq'
        · simp [hmissing] at hq
        · exact hsome ⟨q', hq', hmissing⟩ rfl
    | false =>
      refine ⟨q.line.toList :: added, ?_, ?_, fun _ ↦ cons_ne_nil _ _⟩
      · rw [if_neg (by simp), insertIdx_around ha]
      · rw [forall_mem_cons]
        refine ⟨⟨q, mem_cons_self, (Bool.or_eq_false_iff.1 hq).1, rfl⟩, fun line hline ↦ ?_⟩
        obtain ⟨q', hq', hmissing⟩ := hlines line hline
        exact ⟨q', mem_cons_of_mem q hq', hmissing⟩

theorem exists_insertAll (l : Language) (ps : List Preamble) (lines : List Line) :
    ∃ added, insertAll l ps lines = lines.take (anchor l lines) ++ added ++ lines.drop (anchor l lines) ∧
      (∀ line ∈ added, ∃ q ∈ ps, q.presentIn lines = false ∧ line = q.line.toList) ∧
      ((∃ q ∈ ps, q.presentIn lines = false) → added ≠ []) :=
  exists_putAt (anchor_le l lines) ps

/-- The preambles that are missing go in at the end of the header, in order, if none of them does what
another one is for. -/
theorem insertAll_eq (hps : ps.Pairwise fun q q' ↦ q.metBy q'.line.toList = false) :
    insertAll l ps lines = lines.take (anchor l lines) ++
      (ps.filter (!·.presentIn lines)).map (·.line.toList) ++ lines.drop (anchor l lines) := by
  have hanchor := anchor_le l lines
  rw [insertAll]
  generalize anchor l lines = a at hanchor ⊢
  induction ps with
  | nil => simp
  | cons q ps ih =>
    obtain ⟨hq, hps⟩ := pairwise_cons.1 hps
    rw [foldr_cons, ih hps]
    -- The lines put in so far do not do for `q`.
    have hadded : ((ps.filter (!·.presentIn lines)).map (·.line.toList)).any q.metBy = false := by
      refine any_eq_false.2 fun line hline ↦ ?_
      obtain ⟨q', hq', rfl⟩ := mem_map.1 hline
      simp [hq q' (mem_of_mem_filter hq')]
    rw [presentIn_around, hadded, Bool.or_false]
    cases hmissing : q.presentIn lines with
    | true => rw [if_pos rfl, filter_cons_of_neg (by simp [hmissing])]
    | false =>
      rw [if_neg (by simp), filter_cons_of_pos (by simp [hmissing]), insertIdx_around hanchor,
        map_cons]

/-- Preambles that are there are not put in. -/
theorem insertAll_of_presentIn (h : ∀ q ∈ ps, q.presentIn lines) : insertAll l ps lines = lines := by
  rw [insertAll_eq_putAt]
  induction ps with
  | nil => rfl
  | cons q ps ih =>
    rw [forall_mem_cons] at h
    have hrest := ih h.2
    rw [putAt] at hrest ⊢
    rw [foldr_cons, hrest, if_pos h.1]

/-- What comes before the end of the header stays where it is. -/
theorem getElem?_insertAll {i : Nat} (hi : i < anchor l lines) :
    (insertAll l ps lines)[i]? = lines[i]? := by
  have hanchor := anchor_le l lines
  obtain ⟨added, hinsert, -⟩ := exists_insertAll l ps lines
  rw [hinsert, append_assoc, getElem?_append_left (by rw [length_take]; omega),
    getElem?_take_of_lt hi]

theorem prefix_insertAll {start rest : List Line} (h : start.length ≤ anchor l (start ++ rest)) :
    start <+: insertAll l ps (start ++ rest) := by
  refine prefix_iff_getElem?.2 fun i hi ↦ ?_
  rw [getElem?_insertAll (hi.trans_le h), getElem?_append_left hi, getElem?_eq_getElem hi]

end Preamble

/-! ## What a fix has to do with preambles -/

namespace Fix

open Preamble (texts metBy)

variable {l : Language} {q q' : Preamble}
variable {line line' : Line}

/-- The preambles of all languages. -/
def preambles : List Preamble :=
  [importOs, importAst, importShlex, requireShellQuote, requireJson, requireShellwords, importGoOs,
    includeStdlib, importFoundation]

theorem mem_preambles (hq : Pass.Needed l q) : q ∈ preambles := by
  obtain ⟨h, hq⟩ := hq
  cases l <;> cases h <;> cases hq <;> decide

/-- No preamble does what another one is for. -/
theorem metBy_of_ne (hq : q ∈ preambles) (hq' : q' ∈ preambles) (hne : q ≠ q') :
    q.metBy q'.line.toList = false := by
  have hapart : ∀ q ∈ preambles, ∀ q' ∈ preambles, q ≠ q' → q.metBy q'.line.toList = false := by
    decide
  exact hapart q hq q' hq' hne

theorem metBy_self (hq : q ∈ preambles) : q.metBy q.line.toList := by
  have hself : ∀ q ∈ preambles, q.metBy q.line.toList := by decide
  exact hself q hq

/-- **Inserting is in range, complete, and done once.** The header ends in the file, and the preambles
are put in there one by one, always in range: those that were missing, each once and in order, and
nothing else. Then all of them are there, so that nothing is put in again. -/
theorem insertAll_complete (l : Language) (lines : List Line) {ps : List Preamble}
    (hps : ∀ q ∈ ps, q ∈ preambles) (hnodup : ps.Nodup) :
    let a := Preamble.anchor l lines
    let missing := ps.filter (!·.presentIn lines)
    let after := Preamble.insertAll l ps lines
    a ≤ lines.length ∧
    (∀ qs, qs <:+ ps → a ≤ (Preamble.putAt a qs lines).length) ∧
    after = Preamble.putAt a ps lines ∧
    after = lines.take a ++ missing.map (·.line.toList) ++ lines.drop a ∧
    (missing.map (·.line)).Nodup ∧ lines.Sublist after ∧
    (∀ q ∈ ps, q.presentIn after) ∧
    Preamble.insertAll l ps after = after := by
  intro a missing after
  have ha : a ≤ lines.length := Preamble.anchor_le l lines
  have hafter : after = lines.take a ++ missing.map (·.line.toList) ++ lines.drop a :=
    Preamble.insertAll_eq (hnodup.imp_of_mem fun hq hq' hne ↦ metBy_of_ne (hps _ hq) (hps _ hq') hne)
  have hpresent : ∀ q ∈ ps, q.presentIn after := by
    intro q hq
    rw [hafter, Preamble.presentIn_around, Bool.or_eq_true, or_iff_not_imp_left]
    intro hmissing
    refine List.any_eq_true.2 ⟨q.line.toList, List.mem_map_of_mem ?_, metBy_self (hps q hq)⟩
    exact List.mem_filter.2 ⟨hq, by simpa using hmissing⟩
  refine ⟨ha, fun qs _ ↦ ?_, rfl, hafter, ?_, ?_, hpresent,
    Preamble.insertAll_of_presentIn hpresent⟩
  · obtain ⟨added, hadded, -⟩ := Preamble.exists_putAt ha qs
    rw [hadded, List.length_append, List.length_append, List.length_take_of_le ha]
    omega
  · refine (hnodup.filter _).map_on fun q hq q' hq' hline ↦ ?_
    by_contra hne
    have hmem := hps q (List.mem_of_mem_filter hq)
    have hapart := metBy_of_ne hmem (hps q' (List.mem_of_mem_filter hq')) hne
    rw [← hline, metBy_self hmem] at hapart
    cases hapart
  · rw [hafter]
    conv_lhs => rw [← List.take_append_drop a lines]
    exact (List.sublist_append_left _ _).append (List.Sublist.refl _)

/-- A script with a docstring over two lines that has one of the imports, and not in the header. -/
def headedScript : List Line :=
  ["#!/usr/bin/env python".toList, "\"\"\"A script".toList, "\"\"\"".toList, "  import ast ".toList]

theorem insertAll_complete_headed :
    (∀ q ∈ [importShlex, importAst, importGoOs], q ∈ preambles) ∧
    [importShlex, importAst, importGoOs].Nodup ∧
    let after := Preamble.insertAll .python [importShlex, importAst, importGoOs] headedScript
    after = headedScript.take 3 ++ ["import shlex".toList, "import \"os\"".toList] ++
      headedScript.drop 3 ∧
    Preamble.insertAll .python [importShlex, importAst, importGoOs] after = after := by
  have hps : ∀ q ∈ [importShlex, importAst, importGoOs], q ∈ preambles := by decide
  have hnodup : [importShlex, importAst, importGoOs].Nodup := by decide
  obtain ⟨-, -, -, hafter, -, -, -, hagain⟩ :=
    insertAll_complete .python headedScript hps hnodup
  exact ⟨hps, hnodup, hafter.trans (by decide), hagain⟩

/-- A preamble that goes in does not look like a line that is there. -/
theorem prefix_insertAll_iff {ps : List Preamble} {start rest : List Line}
    (hps : ∀ q ∈ ps, Pass.Needed l q)
    (hmissing : ∃ q ∈ ps, q.presentIn (start ++ rest) = false) :
    start <+: Preamble.insertAll l ps (start ++ rest) ↔
      start.length ≤ Preamble.anchor l (start ++ rest) := by
  refine ⟨fun hprefix ↦ ?_, Preamble.prefix_insertAll⟩
  by_contra hshort
  have hanchor := Preamble.anchor_le l (start ++ rest)
  obtain ⟨added, hinsert, hadded, hsome⟩ := Preamble.exists_insertAll l ps (start ++ rest)
  obtain ⟨line, more, rfl⟩ := exists_cons_of_ne_nil (hsome hmissing)
  obtain ⟨q, hq, habsent, rfl⟩ := hadded line mem_cons_self
  have hline : start[Preamble.anchor l (start ++ rest)]? = some q.line.toList := by
    have hlt : Preamble.anchor l (start ++ rest) < start.length := not_le.1 hshort
    rw [getElem?_eq_getElem hlt, ← prefix_iff_getElem?.1 hprefix _ hlt, hinsert,
      append_assoc, getElem?_append_right (by simp), length_take_of_le hanchor,
      Nat.sub_self]
    rfl
  have hmet : (start ++ rest).any q.metBy :=
    any_eq_true.2 ⟨_, mem_append_left rest (mem_of_getElem? hline),
      metBy_self (mem_preambles (hps q hq))⟩
  rw [← Preamble.presentIn_eq, habsent] at hmet
  cases hmet

/-- The fix of one hazard takes a line to another. -/
def Mends (l : Language) (line line' : Line) : Prop := ∃ h, onLine l h line = (.fixed, line')

theorem tokens_trim (line : Line) : tokens (Text.trim line) = tokens line := by
  obtain ⟨b, b', hline, hb, hb'⟩ := Text.exists_trim line
  conv_rhs => rw [hline, tokens_append_blanks hb', tokens_blanks_append hb]

/-- A line that does what a preamble is for has nothing on it to fix. -/
theorem Mends.metBy_left (hq : Pass.Needed l q) (h : Mends l line line') :
    q.metBy line = false := by
  obtain ⟨hazard, hfix⟩ := h
  refine eq_false_of_ne_true fun hmet ↦ ?_
  have htexts : ∀ t ∈ q.texts, alarms true (tokens t.toList) = 0 := by
    obtain ⟨h, hq⟩ := hq
    cases l <;> cases h <;> cases hq <;> decide
  have hquiet := htexts _ (contains_iff_mem.1 hmet)
  rw [String.toList_ofList, tokens_trim] at hquiet
  have hle : burden l line ≤ alarms true (tokens line) := by
    rw [burden]
    cases isRemark l line
    · exact le_refl _
    · exact alarms_le_debug _
  have hlt := burden_lt_of_fixed hfix
  omega

/-- Characters that no preamble of the language has, and one of which is in everything that a fix
puts in. -/
def foreign (l : Language) : List Char :=
  (if l = .script then ['?', '.', '['] else ['(']) ++ [':', '✓'] ++ l.lineComment.toList

theorem foreign_notMem (hq : Pass.Needed l q) {t : String} (ht : t ∈ q.texts) {c : Char}
    (hc : c ∈ foreign l) : c ∉ t.toList ∧ Text.isBlank c = false := by
  obtain ⟨h, hq⟩ := hq
  cases l <;> cases h <;> cases hq <;> fin_cases ht <;> fin_cases hc <;>
    exact ⟨by decide, by decide⟩

theorem Change.any_foreign {w w' : List Char} (hw : Change l w w') : w'.any (foreign l).contains := by
  cases hw with
  | secret _ _ _ hcode =>
    obtain ⟨around, haround, hcode⟩ := envLookup?_cases hcode
    have hforeign : around.1.toList.any (foreign l).contains ∨
        around.2.toList.any (foreign l).contains := by
      cases l <;> cases haround <;> decide
    rw [hcode]
    simp only [any_append, Bool.or_eq_true]
    tauto
  | call hcode => cases l <;> cases hcode <;> decide
  | clause => cases l <;> decide
  | command _ _ _ _ _ hcode =>
    obtain ⟨around, haround, hcode⟩ := shellQuote?_cases hcode
    have hforeign : around.1.toList.any (foreign l).contains := by
      cases l <;> cases haround <;> decide
    rw [hcode]
    simp only [any_append, Bool.or_eq_true]
    tauto
  | typing => cases l <;> decide
  | marker hmarker => fin_cases hmarker <;> cases l <;> decide

theorem Mends.exists_foreign (h : Mends l line line') : ∃ c ∈ line', c ∈ foreign l := by
  obtain ⟨hazard, hfix⟩ := h
  obtain ⟨-, rfl⟩ | hsteps := fixed_cases hfix
  · have hmark : ∃ c cs, l.lineComment.toList = c :: cs := by
      cases l <;> exact ⟨_, _, rfl⟩
    obtain ⟨c, cs, hc⟩ := hmark
    exact ⟨c, by simp [commentOut, hc], by simp [foreign, hc]⟩
  · obtain ⟨_, -, pre, w, w', post, -, rfl, -, -, hw⟩ := Relation.TransGen.tail'_iff.1 hsteps
    obtain ⟨c, hc, hforeign⟩ := any_eq_true.1 hw.any_foreign
    exact ⟨c, by simp [hc], contains_iff_mem.1 hforeign⟩

/-- No fix makes a line that does what a preamble is for. -/
theorem Mends.metBy_right (hq : Pass.Needed l q) (h : Mends l line line') :
    q.metBy line' = false := by
  obtain ⟨c, hc, hforeign⟩ := h.exists_foreign
  refine eq_false_of_ne_true fun hmet ↦ ?_
  obtain ⟨hnot, hblank⟩ := foreign_notMem hq (contains_iff_mem.1 hmet) hforeign
  rw [String.toList_ofList] at hnot
  exact hnot (Text.mem_trim_of_mem hc hblank)

/-- Fixes do not change whether a line does what a preamble is for. -/
theorem metBy_of_mends (hq : Pass.Needed l q) (h : Relation.ReflTransGen (Mends l) line line') :
    q.metBy line' = q.metBy line := by
  obtain rfl | ⟨_, hfirst, -⟩ := h.cases_head
  · rfl
  · obtain rfl | ⟨_, -, hlast⟩ := h.cases_tail
    · rfl
    · rw [hfirst.metBy_left hq, hlast.metBy_right hq]

end Fix

end Steward
