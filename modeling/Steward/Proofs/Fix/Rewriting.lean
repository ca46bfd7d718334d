import Steward.Proofs.Breaks
import Steward.Proofs.Encoding
import Steward.Proofs.Fix.Failure
import Steward.Proofs.Fix.Insertion

/-!
# What a fix writes

A pass over a text's violations changes the lines that it reports as fixed, and collects the
preambles that these need, each once: `Fix.Tracks` is kept by every step. With the preambles put in
the text is the old one but for what is reported, `Fix.file_rewrites_reported`. It is written with one
line break throughout, `Fix.file_keeps_line_breaks`.
-/

namespace Steward

open Text (Line)
open List

namespace Fix

variable {l : Language}

/-! ## A pass -/

namespace Pass

theorem mem_preambles_step {p : Pass} {v : Violation} {q : Preamble} :
    q ∈ (p.step l v).preambles ↔ q ∈ p.preambles ∨
      (onLines l v.hazard v.line p.lines).1.isFixed ∧ preamble? v.hazard l = some q := by
  simp only [step]
  cases (onLines l v.hazard v.line p.lines).1.isFixed with
  | false => simp
  | true =>
    cases preamble? v.hazard l with
    | none => simp
    | some q' =>
      simp only [if_true, Option.some_inj, true_and]
      split_ifs with hmem
      · rw [contains_iff_mem] at hmem
        exact ⟨.inl, fun h ↦ h.elim id fun h ↦ h ▸ hmem⟩
      · rw [mem_append, mem_singleton, eq_comm]

theorem nodup_preambles_step {p : Pass} (v : Violation) (h : p.preambles.Nodup) :
    (p.step l v).preambles.Nodup := by
  simp only [step]
  split
  · split_ifs with hmem
    · exact h
    · rw [contains_iff_mem] at hmem
      rw [← concat_eq_append]
      exact h.concat hmem
  · exact h

end Pass

/-- How far a pass over the lines `old` has come: what it changed is a fix of its line, and reported,
and it collected the preambles that the reported fixes need. -/
structure Tracks (l : Language) (old : List Line) (p : Pass) : Prop where
  length : p.lines.length = old.length
  mends : ∀ (i : Nat) x y, old[i]? = some x → p.lines[i]? = some y →
    Relation.ReflTransGen (Mends l) x y
  kept : ∀ i : Nat, (∀ f ∈ p.fixes, f.line = i + 1 → f.outcome.isFixed = false) →
    p.lines[i]? = old[i]?
  needed : ∀ q, q ∈ p.preambles ↔ ∃ f ∈ p.fixes, f.outcome.isFixed ∧ preamble? f.hazard l = some q
  nodup : p.preambles.Nodup

namespace Tracks

variable {old : List Line} {p : Pass}

theorem start (l : Language) (old : List Line) : Tracks l old { lines := old } where
  length := rfl
  mends i x y hx hy := by
    cases hx.symm.trans hy
    exact .refl
  kept _ _ := rfl
  needed := by simp
  nodup := .nil

theorem step (h : Tracks l old p) (v : Violation) : Tracks l old (p.step l v) := by
  have hfixes : (p.step l v).fixes =
      p.fixes ++ [⟨v.hazard, v.line, (onLines l v.hazard v.line p.lines).1⟩] := rfl
  have hneeded (q : Preamble) : q ∈ (p.step l v).preambles ↔
      ∃ f ∈ (p.step l v).fixes, f.outcome.isFixed ∧ preamble? f.hazard l = some q := by
    rw [Pass.mem_preambles_step, h.needed, hfixes]
    simp [or_and_right, exists_or]
  have hnodup := Pass.nodup_preambles_step (l := l) v h.nodup
  obtain ⟨-, hlines⟩ | ⟨hfix, i, line, line', hi, hline, hfixed, hlines⟩ := Pass.step_cases l p v
  · refine ⟨hlines ▸ h.length, hlines ▸ h.mends, fun j hj ↦ ?_, hneeded, hnodup⟩
    rw [hlines]
    exact h.kept j fun f hf ↦ hj f (hfixes ▸ mem_append_left _ hf)
  · refine ⟨?_, fun j x y hx hy ↦ ?_, fun j hj ↦ ?_, hneeded, hnodup⟩
    · rw [hlines, length_set, h.length]
    · rw [hlines] at hy
      by_cases hij : i = j
      · subst hij
        rw [getElem?_set_self (List.getElem?_eq_some_iff.1 hline).1] at hy
        cases hy
        exact (h.mends i x line hx hline).tail ⟨v.hazard, hfixed⟩
      · rw [getElem?_set_ne hij] at hy
        exact h.mends j x y hx hy
    · have hij : i ≠ j := by
        rintro rfl
        have hnot := hj ⟨v.hazard, v.line, (onLines l v.hazard v.line p.lines).1⟩
          (hfixes ▸ mem_append_right _ (by simp)) hi
        exact absurd (hfix.symm.trans hnot) (by decide)
      rw [hlines, getElem?_set_ne hij]
      exact h.kept j fun f hf ↦ hj f (hfixes ▸ mem_append_left _ hf)

theorem foldl_step (h : Tracks l old p) (vs : List Violation) :
    Tracks l old (vs.foldl (Pass.step l) p) := by
  induction vs generalizing p with
  | nil => exact h
  | cons v vs ih => exact ih (h.step v)

/-- The line of the old text that a line comes from. -/
theorem exists_mends (h : Tracks l old p) {y : Line} (hy : y ∈ p.lines) :
    ∃ x ∈ old, Relation.ReflTransGen (Mends l) x y := by
  obtain ⟨i, hi⟩ := mem_iff_getElem?.1 hy
  obtain ⟨hlt, -⟩ := List.getElem?_eq_some_iff.1 hi
  rw [h.length] at hlt
  exact ⟨old[i], getElem_mem hlt, h.mends i _ y (getElem?_eq_getElem hlt) hi⟩

theorem control_notMem (h : Tracks l old p) {c : Char} (hc : c ∈ controls)
    (hold : ∀ x ∈ old, c ∉ x) : ∀ y ∈ p.lines, c ∉ y := by
  intro y hy
  obtain ⟨x, hx, hmends⟩ := h.exists_mends hy
  clear hy
  induction hmends with
  | refl => exact hold x hx
  | tail _ hlast ih => exact control_notMem_of_fixed hc hlast.choose_spec ih

/-- A preamble is missing before the pass just if it is missing after it. -/
theorem presentIn_eq (h : Tracks l old p) {q : Preamble} (hq : Pass.Needed l q) :
    q.presentIn p.lines = q.presentIn old := by
  have hmap : p.lines.map q.metBy = old.map q.metBy := by
    refine ext_getElem? fun i ↦ ?_
    rw [getElem?_map, getElem?_map]
    cases hx : old[i]? with
    | none =>
      have hlength := h.length
      rw [List.getElem?_eq_none_iff] at hx
      rw [getElem?_eq_none (by omega)]
    | some x =>
      obtain ⟨hlt, -⟩ := List.getElem?_eq_some_iff.1 hx
      rw [← h.length] at hlt
      have hy : p.lines[i]? = some p.lines[i] := getElem?_eq_getElem hlt
      rw [hy, Option.map_some, Option.map_some, metBy_of_mends hq (h.mends i x _ hx hy)]
  rw [Preamble.presentIn_eq, Preamble.presentIn_eq]
  simpa [any_map] using congrArg (List.any · id) hmap

theorem needed_of_mem (h : Tracks l old p) {q : Preamble} (hq : q ∈ p.preambles) :
    Pass.Needed l q := by
  obtain ⟨f, -, -, hq⟩ := (h.needed q).1 hq
  exact ⟨f.hazard, hq⟩

end Tracks

/-! ## The lines that are written -/

namespace Pass

/-- The lines of the preambles that are missing. -/
def added (p : Pass) : List Line := (p.preambles.filter (!·.presentIn p.lines)).map (·.line.toList)

/-- The lines with the missing preambles put in at the end of the header. -/
def written (l : Language) (p : Pass) : List Line :=
  p.lines.take (Preamble.anchor l p.lines) ++ p.added ++ p.lines.drop (Preamble.anchor l p.lines)

/-- The text of these lines, with the line break of the source. -/
def composed (l : Language) (source : List Char) (p : Pass) : List Char :=
  Text.compose (Text.terminate (Text.breakOf source) (Text.lastEnding (Text.breakOf source) source)
    (p.written l))

end Pass

/-- The lines `old` became `lines`, with `added` put in before the line `a`, and the fixes say so:
a line is the same unless it was fixed, and what is put in, each once, are the preambles that fixed
lines need and that were not there. -/
structure Rewritten (l : Language) (fixes : List LineFix) (old lines : List Line) (a : Nat)
    (added : List Line) : Prop where
  length : lines.length = old.length
  kept : ∀ i : Nat, (∀ f ∈ fixes, f.line = i + 1 → f.outcome.isFixed = false) → lines[i]? = old[i]?
  le : a ≤ old.length
  nodup : added.Nodup
  mem_added : ∀ line, line ∈ added ↔ ∃ f ∈ fixes, f.outcome.isFixed ∧
    ∃ q, preamble? f.hazard l = some q ∧ q.line.toList = line ∧ q.presentIn old = false

theorem eq_of_line_eq {q q' : Preamble} (hq : Pass.Needed l q) (hq' : Pass.Needed l q')
    (hline : q.line = q'.line) : q = q' := by
  obtain ⟨h, hq⟩ := hq
  obtain ⟨h', hq'⟩ := hq'
  cases l <;> cases h <;> cases hq <;> cases h' <;> cases hq' <;>
    first | rfl | exact absurd hline (by decide)

theorem ne_nil_of_needed {q : Preamble} (hq : Pass.Needed l q) : q.line.toList ≠ [] := by
  obtain ⟨h, hq⟩ := hq
  cases l <;> cases h <;> cases hq <;> decide

namespace Tracks

variable {old : List Line} {p : Pass}

theorem insertAll_eq (h : Tracks l old p) :
    Preamble.insertAll l p.preambles p.lines = p.written l :=
  Preamble.insertAll_eq (h.nodup.imp_of_mem fun hq hq' hne ↦
    metBy_of_ne (mem_preambles (h.needed_of_mem hq)) (mem_preambles (h.needed_of_mem hq')) hne)

theorem exists_of_mem_added (h : Tracks l old p) {line : Line} (hline : line ∈ p.added) :
    ∃ q, Pass.Needed l q ∧ q.line.toList = line := by
  obtain ⟨q, hq, rfl⟩ := mem_map.1 hline
  exact ⟨q, h.needed_of_mem (mem_of_mem_filter hq), rfl⟩

theorem rewritten (h : Tracks l old p) :
    Rewritten l p.fixes old p.lines (Preamble.anchor l p.lines) p.added where
  length := h.length
  kept := h.kept
  le := h.length ▸ Preamble.anchor_le l p.lines
  nodup := by
    refine (h.nodup.filter _).map_on fun q hq q' hq' hline ↦ ?_
    exact eq_of_line_eq (h.needed_of_mem (mem_of_mem_filter hq))
      (h.needed_of_mem (mem_of_mem_filter hq')) (String.toList_inj.1 hline)
  mem_added line := by
    rw [Pass.added, mem_map]
    constructor
    · rintro ⟨q, hq, rfl⟩
      obtain ⟨hmem, hmissing⟩ := mem_filter.1 hq
      rw [h.presentIn_eq (h.needed_of_mem hmem)] at hmissing
      obtain ⟨f, hf, hfixed, hneeds⟩ := (h.needed q).1 hmem
      exact ⟨f, hf, hfixed, q, hneeds, rfl, by simpa using hmissing⟩
    · rintro ⟨f, hf, hfixed, q, hneeds, rfl, hmissing⟩
      have hmem := (h.needed q).2 ⟨f, hf, hfixed, hneeds⟩
      refine ⟨q, mem_filter.2 ⟨hmem, ?_⟩, rfl⟩
      rw [h.presentIn_eq (h.needed_of_mem hmem), hmissing]
      rfl

theorem control_notMem_written (h : Tracks l old p) {c : Char} (hc : c ∈ controls)
    (hold : ∀ x ∈ old, c ∉ x) : ∀ y ∈ p.written l, c ∉ y := by
  have hlines := h.control_notMem hc hold
  refine forall_mem_append.2 ⟨forall_mem_append.2 ⟨?_, fun y hy ↦ ?_⟩, ?_⟩
  · exact fun y hy ↦ hlines y (mem_of_mem_take hy)
  · obtain ⟨q, hq, rfl⟩ := h.exists_of_mem_added hy
    exact control_notMem_of_needed hc hq
  · exact fun y hy ↦ hlines y (mem_of_mem_drop hy)

/-- The last line that is written is not empty, unless the last line was. -/
theorem ne_nil_of_getLast?_written (h : Tracks l old p) (hold : ∀ x ∈ old.getLast?, x ≠ []) :
    ∀ y ∈ (p.written l).getLast?, y ≠ [] := by
  have hlines : ∀ y ∈ p.lines.getLast?, y ≠ [] := by
    intro y hy
    rw [Option.mem_def, getLast?_eq_getElem?, h.length] at hy
    cases hx : old[old.length - 1]? with
    | none =>
      have hlength := h.length
      rw [List.getElem?_eq_none_iff] at hx
      rw [getElem?_eq_none (by omega)] at hy
      cases hy
    | some x =>
      obtain rfl | ⟨_, -, hlast⟩ := (h.mends _ x y hx hy).cases_tail
      · exact hold _ (getLast?_eq_getElem?.trans hx)
      · obtain ⟨c, hc, -⟩ := hlast.exists_foreign
        exact ne_nil_of_mem hc
  intro y hy
  rw [Option.mem_def, Pass.written, getLast?_append, getLast?_append] at hy
  obtain hy | ⟨hdrop, hy⟩ := Option.or_eq_some_iff.1 hy
  · rw [getLast?_drop] at hy
    split_ifs at hy
    exact hlines y hy
  obtain hy | ⟨-, hy⟩ := Option.or_eq_some_iff.1 hy
  · obtain ⟨q, hq, rfl⟩ := h.exists_of_mem_added (mem_of_getLast? hy)
    exact ne_nil_of_needed hq
  · rw [getLast?_eq_none_iff, drop_eq_nil_iff] at hdrop
    rw [take_of_length_le hdrop] at hy
    exact hlines y hy

end Tracks

/-- A text that is fixed is what a pass over it comes to. -/
theorem exists_tracks_of_text {vs : List Violation} {source new : List Char}
    (hnew : (text l vs source).2 = some new) :
    ∃ p, Tracks l (Text.lines source) p ∧ (text l vs source).1 = p.fixes ∧ p.written l ≠ [] ∧
      new = p.composed l source := by
  have htracks : Tracks l (Text.lines source) (passOver l vs source) :=
    (Tracks.start l (Text.lines source)).foldl_step (ordered vs)
  -- There is a line, for an empty text weighs nothing.
  have hwritten : (passOver l vs source).written l ≠ [] := by
    intro hnil
    obtain ⟨hnil, hdrop⟩ := append_eq_nil_iff.1 hnil
    obtain ⟨htake, -⟩ := append_eq_nil_iff.1 hnil
    have hlines : (passOver l vs source).lines = [] := by
      rw [← take_append_drop (Preamble.anchor l _) (passOver l vs source).lines, htake, hdrop]
      rfl
    have hold : Text.lines source = [] := by
      rw [← length_eq_zero_iff, ← htracks.length, hlines]
      rfl
    have hlt := totalBurden_text_lt hnew
    rw [hold] at hlt
    exact Nat.not_lt_zero _ hlt
  refine ⟨_, htracks, ?_, hwritten, ?_⟩
  · rw [text]
    split_ifs <;> rfl
  · rw [text] at hnew
    split_ifs at hnew
    have htext : textAfter l (passOver l vs source) source = new := Option.some.inj hnew
    rw [← htext, textAfter, htracks.insertAll_eq, Text.newlineOf_eq,
      Text.joinLines_eq_compose _ hwritten]
    simp only [decide_eq_true_eq, Pass.composed, Text.lastEnding]

namespace Tracks

variable {source : List Char} {p : Pass}

theorem newline_notMem_written (h : Tracks l (Text.lines source) p) :
    ∀ x ∈ p.written l, '\n' ∉ x :=
  h.control_notMem_written (by decide) fun _ ↦ newline_notMem_of_mem_lines

theorem last_written (h : Tracks l (Text.lines source) p) :
    Text.lastEnding (Text.breakOf source) source ≠ .missing ∨
      ∀ x ∈ (p.written l).getLast?, x ≠ [] := by
  rw [Text.lastEnding_ne_missing_iff (Text.breakOf_ne_missing source), or_iff_not_imp_left]
  exact fun hsource ↦ h.ne_nil_of_getLast?_written (Text.ne_nil_of_getLast?_lines hsource)

/-- The lines are read back as they were written, if the old text had no `CR` in its lines. -/
theorem lines_composed (h : Tracks l (Text.lines source) p) (hreturns : Text.returnsPaired source) :
    Text.lines (p.composed l source) = p.written l :=
  Text.lines_compose_terminate (Text.breakOf_ne_missing source) h.newline_notMem_written
    (h.control_notMem_written (by decide) fun _ ↦ Text.return_notMem_of_mem_lines hreturns)
    h.last_written

theorem getLast?_composed (h : Tracks l (Text.lines source) p) (hne : p.written l ≠ []) :
    (p.composed l source).getLast? = some '\n' ↔ source.getLast? = some '\n' := by
  rw [Pass.composed, Text.getLast?_compose_terminate hne h.newline_notMem_written h.last_written,
    Text.lastEnding_ne_missing_iff (Text.breakOf_ne_missing source)]

theorem zero_notMem_composed (h : Tracks l (Text.lines source) p) (hsource : '\x00' ∉ source) :
    '\x00' ∉ p.composed l source := by
  have hlines := h.control_notMem_written (c := '\x00') (by decide)
    fun x hx hzero ↦ hsource (Text.mem_of_mem_lines hx hzero)
  intro hzero
  obtain ⟨x, hx, hzero⟩ := Text.mem_compose.1 hzero
  obtain hzero | hzero := hzero
  · refine hlines x.1 ?_ hzero
    rw [← Text.terminate_fst _ _ (p.written l)]
    exact mem_map_of_mem hx
  · cases hend : x.2 <;> simp [hend, Text.Ending.text] at hzero

end Tracks

/-! ## The file that is written -/

section File

variable {cfg : Config.Fixer} {now : Instant} {p : Path} {name : String} {vs : List Violation}
  {b : Bench} {bytes : List UInt8} {source : List Char} {encoding : Encoding}

/-- The bytes were put in place of the file. They are what is read there then, if neither the file nor
any of the names beside it was a link. -/
structure Delivered (cfg : Config.Fixer) (now : Instant) (p : Path) (bytes : List UInt8)
    (b b' : Bench) : Prop where
  write : ∃ b₁ : Bench, b₁.write cfg now p bytes = (.ok (), b')
  read : b.tree.Rooted → Bare b.tree p → b.tree.NamesNoLink p → b'.tree.read p = .ok bytes

theorem replace_of_written {old : List UInt8} {new : List Char} {report : FileReport}
    (hreport : report.written = false) (h : (replace cfg now p old new report b).1.written) :
    (replace cfg now p old new report b).1.fixes = report.fixes ∧
      ∃ b₁ : Bench, b₁.write cfg now p (Utf8.encode new) =
        (.ok (), (replace cfg now p old new report b).2) := by
  rw [replace] at h ⊢
  rcases hmade : b.ensureBackup now p old with ⟨_ | made, b₁⟩
  · simp [hmade, written_withFailure, hreport] at h
  rw [hmade] at h
  dsimp only at h ⊢
  rcases hwrite : b₁.write cfg now p (Utf8.encode new) with ⟨_ | ⟨⟨⟩⟩, b₂⟩
  · simp [hwrite, written_withFailure, hreport] at h
  · exact ⟨rfl, b₁, hwrite⟩

/-- A file that is written gets the text that comes of its own. -/
theorem delivered_text_of_written (hread : b.tree.read p = .ok bytes)
    (hsource : Encoding.detect bytes = some (source, encoding))
    (hwritten : (file cfg now p name vs b).1.written) :
    ∃ new, (text (Language.ofPath p) vs source).2 = some new ∧
      (file cfg now p name vs b).1.fixes = (text (Language.ofPath p) vs source).1 ∧
      Delivered cfg now p (Utf8.encode new) b (file cfg now p name vs b).2 := by
  obtain ⟨-, -, hnot, -⟩ | ⟨old, source', encoding', new, hread', hsource', hnew, hfile⟩ :=
    file_cases_of_text cfg now p name vs b
  · exact absurd (hwritten.symm.trans hnot) (by decide)
  cases hread.symm.trans hread'
  cases hsource.symm.trans hsource'
  rw [hfile] at hwritten ⊢
  obtain ⟨hfixes, hwrite⟩ := replace_of_written rfl hwritten
  refine ⟨new, hnew, hfixes, hwrite, fun ht hbare hp ↦ ?_⟩
  obtain ⟨k, n, hsite, -⟩ := exists_sited ht hbare hread
  have hswap := replace_swapped hsite cfg now bytes new
    { file := name, fixes := (text (Language.ofPath p) vs source).1, encoding := some encoding } rfl
  rw [hwritten] at hswap
  exact hswap.read hsite hp

/-- A file that is written gets the text that its fixes lead to. -/
theorem delivered_of_written (hread : b.tree.read p = .ok bytes)
    (hsource : Encoding.detect bytes = some (source, encoding))
    (hwritten : (file cfg now p name vs b).1.written) :
    ∃ pass, Tracks (Language.ofPath p) (Text.lines source) pass ∧
      (file cfg now p name vs b).1.fixes = pass.fixes ∧ pass.written (Language.ofPath p) ≠ [] ∧
      Delivered cfg now p (Utf8.encode (pass.composed (Language.ofPath p) source)) b
        (file cfg now p name vs b).2 := by
  obtain ⟨new, hnew, hfixes, hdelivered⟩ := delivered_text_of_written hread hsource hwritten
  obtain ⟨pass, htracks, hpass, hne, hcomposed⟩ := exists_tracks_of_text hnew
  refine ⟨pass, htracks, hfixes.trans hpass, hne, ?_⟩
  rw [← hcomposed]
  exact hdelivered

/-- A file that is not written is as it was, if neither it nor any of the names beside it is a link. -/
theorem read_of_unwritten (ht : b.tree.Rooted) (hbare : Bare b.tree p) (hp : b.tree.NamesNoLink p)
    (hread : b.tree.read p = .ok bytes) (hwritten : (file cfg now p name vs b).1.written = false) :
    (file cfg now p name vs b).2.tree.read p = .ok bytes := by
  obtain ⟨-, -, -, -, hsame⟩ | ⟨old, source, encoding, new, hread', -, -, hfile⟩ :=
    file_cases_of_text cfg now p name vs b
  · rw [hsame, hread]
  rw [hfile] at hwritten ⊢
  obtain ⟨k, n, hsite, hslash⟩ := exists_sited ht hbare hread
  have hswap := replace_swapped hsite cfg now old new
    { file := name, fixes := (text (Language.ofPath p) vs source).1, encoding := some encoding } rfl
  rw [hwritten] at hswap
  exact hswap.read_of_unwritten hsite (fun l hl ↦ hsite.not_scratch hslash hp hl) hread

/-- A fix rewrites what it reports and nothing else. What is written reads as the old lines, each one
as it was unless it is reported as fixed, with the missing preambles of the fixed ones put in at one
place; it is UTF-8, and its last line ends as the last one did. A file that is not written keeps its
bytes. -/
theorem file_rewrites_reported (hread : b.tree.read p = .ok bytes)
    (hsource : Encoding.detect bytes = some (source, encoding))
    (hreturns : Text.returnsPaired source) (cfg : Config.Fixer) (now : Instant) (name : String)
    (vs : List Violation) :
    let r := file cfg now p name vs b
    (r.1.written → ∃ new lines a added,
      Delivered cfg now p (Utf8.encode new) b r.2 ∧
      Text.lines new = lines.take a ++ added ++ lines.drop a ∧
      Rewritten (Language.ofPath p) r.1.fixes (Text.lines source) lines a added ∧
      (new.getLast? = some '\n' ↔ source.getLast? = some '\n') ∧
      Encoding.detect (Utf8.encode new) = some (new, .utf8)) ∧
    (r.1.written = false → b.tree.Rooted → Bare b.tree p → b.tree.NamesNoLink p →
      r.2.tree.read p = .ok bytes) := by
  intro r
  refine ⟨fun hwritten ↦ ?_, fun hwritten ht hbare hp ↦ read_of_unwritten ht hbare hp hread hwritten⟩
  obtain ⟨pass, htracks, hfixes, hne, hdelivered⟩ := delivered_of_written hread hsource hwritten
  refine ⟨pass.composed _ source, pass.lines, Preamble.anchor _ pass.lines, pass.added, hdelivered,
    htracks.lines_composed hreturns, ?_, htracks.getLast?_composed hne,
    Encoding.detect_encode (htracks.zero_notMem_composed (Encoding.zero_notMem_of_detect hsource))⟩
  rw [hfixes]
  exact htracks.rewritten

/-- A file with breaks of two characters that has one of the two imports it is going to need. -/
def osText : List Char := "x = eval(a)\r\nimport os\r\npassword = 'x'\r\n".toList

/-- A file with some text, and nothing beside it. -/
def aloneBench (source : List Char) : Bench where
  tree := { entries := [(["a.py"], .file (Utf8.encode source) ⟨0, 0⟩)] }

/-- The violation on the line `password = 'x'`. -/
def passwordFound : Violation where
  hazard := .hardcodedPassword
  file := "a.py"
  line := 3
  severity := .critical
  text := "password = 'x'"
  fixable := true

theorem ordered_found : ordered [evalFound, passwordFound] = [passwordFound, evalFound] :=
  ordered_eq_reverse (by simp [evalFound, passwordFound])

theorem osText_read :
    (aloneBench osText).tree.read ⟨"a.py"⟩ = .ok (Utf8.encode osText) := by decide +kernel

theorem osText_detect : Encoding.detect (Utf8.encode osText) = some (osText, .utf8) := by
  decide +kernel

theorem osText_written :
    (file {} ⟨1, 0⟩ ⟨"a.py"⟩ "a.py" [evalFound, passwordFound] (aloneBench osText)).1.written := by
  simp only [file, text, ordered_found]
  decide +kernel

theorem file_rewrites_reported_os :
    let r := file {} ⟨1, 0⟩ ⟨"a.py"⟩ "a.py" [evalFound, passwordFound] (aloneBench osText)
    Text.returnsPaired osText ∧ r.1.written ∧ ∃ new lines a added,
      r.2.tree.read ⟨"a.py"⟩ = .ok (Utf8.encode new) ∧
      Text.lines new = lines.take a ++ added ++ lines.drop a ∧
      Rewritten (Language.ofPath ⟨"a.py"⟩) r.1.fixes (Text.lines osText) lines a added ∧
      (new.getLast? = some '\n' ↔ osText.getLast? = some '\n') ∧
      Encoding.detect (Utf8.encode new) = some (new, .utf8) := by
  have hreturns : Text.returnsPaired osText := by decide +kernel
  have hrooted : (aloneBench osText).tree.Rooted :=
    FileTree.rooted_of_entries (by decide +kernel) (by decide +kernel)
  have hlink (q : Path) : (aloneBench osText).tree.NamesNoLink q :=
    Disk.namesNoLink_of_linkless (by decide +kernel) q
  obtain ⟨new, lines, a, added, hdelivered, hnew⟩ :=
    (file_rewrites_reported osText_read osText_detect hreturns {} ⟨1, 0⟩ "a.py"
      [evalFound, passwordFound]).1 osText_written
  exact ⟨hreturns, osText_written, new, lines, a, added,
    hdelivered.read hrooted ⟨hlink _, hlink _, hlink _⟩ (hlink _), hnew⟩

/-- How bytes are read. With a zero among them they are no text; else they are the text whose UTF-8 they
are, or if there is none, one character for each byte. A text that was read is read again from its
own UTF-8, and so is what a fix makes of it: a file that was written is read as the text that was
written. -/
theorem detect_reads_back (bytes : List UInt8) :
    (Encoding.detect bytes = none ↔ 0 ∈ bytes) ∧
    (∀ source encoding, Encoding.detect bytes = some (source, encoding) ↔ 0 ∉ bytes ∧
      (encoding = .utf8 ∧ bytes = Utf8.encode source ∨
        encoding = .latin1 ∧ (∀ cs, bytes ≠ Utf8.encode cs) ∧
          source.map Char.toNat = bytes.map UInt8.toNat)) ∧
    (∀ source encoding, Encoding.detect bytes = some (source, encoding) →
      Encoding.detect (Utf8.encode source) = some (source, .utf8)) ∧
    ∀ cfg now p name vs b, b.tree.read p = .ok bytes → (file cfg now p name vs b).1.written →
      ∃ new, Delivered cfg now p (Utf8.encode new) b (file cfg now p name vs b).2 ∧
        Encoding.detect (Utf8.encode new) = some (new, .utf8) := by
  refine ⟨Encoding.detect_eq_none_iff, fun source encoding ↦ Encoding.detect_eq_some_iff,
    fun source encoding h ↦ Encoding.detect_encode (Encoding.zero_notMem_of_detect h), ?_⟩
  intro cfg now p name vs b hread hwritten
  obtain ⟨-, -, hnot, -⟩ | ⟨old, source, encoding, -, hread', hsource, -⟩ :=
    file_cases_of_text cfg now p name vs b
  · exact absurd (hwritten.symm.trans hnot) (by decide)
  cases hread.symm.trans hread'
  obtain ⟨pass, htracks, -, -, hdelivered⟩ := delivered_of_written hread hsource hwritten
  exact ⟨_, hdelivered, Encoding.detect_encode
    (htracks.zero_notMem_composed (Encoding.zero_notMem_of_detect hsource))⟩

/-- A file in an encoding of one byte for each character, with a letter beyond ASCII. -/
def legacyBytes : List UInt8 := Utf8.encode "x = eval(a)  # ".toList ++ [0xE9, 0x0A]

/-- The letter is kept, and takes two bytes from then on. -/
theorem detect_reads_back_legacy :
    let b : Bench := { tree := { entries := [(["a.py"], .file legacyBytes ⟨0, 0⟩)] } }
    let r := file {} ⟨1, 0⟩ ⟨"a.py"⟩ "a.py" [evalFound] b
    (∃ source, Encoding.detect legacyBytes = some (source, .latin1)) ∧ r.1.written ∧
      ∃ new, r.2.tree.read ⟨"a.py"⟩ = .ok (Utf8.encode new) ∧
        Encoding.detect (Utf8.encode new) = some (new, .utf8) := by
  intro b r
  have hread : b.tree.read ⟨"a.py"⟩ = .ok legacyBytes := by decide +kernel
  have hwritten : r.1.written := by decide +kernel
  have hrooted : b.tree.Rooted := FileTree.rooted_of_entries (by decide +kernel) (by decide +kernel)
  have hlink (q : Path) : b.tree.NamesNoLink q := Disk.namesNoLink_of_linkless (by decide +kernel) q
  obtain ⟨-, hdetect, -, hfile⟩ := detect_reads_back legacyBytes
  obtain ⟨new, hdelivered, hnew⟩ := hfile {} ⟨1, 0⟩ ⟨"a.py"⟩ "a.py" [evalFound] b hread hwritten
  refine ⟨⟨Encoding.latin1Chars legacyBytes, ?_⟩, hwritten, new,
    hdelivered.read hrooted ⟨hlink _, hlink _, hlink _⟩ (hlink _), hnew⟩
  decide +kernel

/-- A file with a link to it under the name that it is written under first. -/
def loopedBench : Bench where
  tree := { entries := [evalEntry, (["a.py.tmp"], .link "a.py")] }

-- The link is what gets the file's name in the end, so that the file counts as written and is gone.
example :
    let r := file {} ⟨1, 0⟩ ⟨"a.py"⟩ "a.py" [evalFound] loopedBench
    r.1.written ∧ (r.2.tree.read ⟨"a.py"⟩).toOption = none := by
  decide +kernel

/-- A fix writes a file with one line break throughout. Every line, old or put in, ends with the break
of the file; only the last one has none, if the last one had none. So if the breaks of the file are
alike, and nothing is put in behind a last line that has none, every old line keeps its end. -/
theorem file_keeps_line_breaks (hread : b.tree.read p = .ok bytes)
    (hsource : Encoding.detect bytes = some (source, encoding)) (cfg : Config.Fixer) (now : Instant)
    (name : String) (vs : List Violation) (hwritten : (file cfg now p name vs b).1.written) :
    let r := file cfg now p name vs b
    let br := Text.breakOf source
    let ends := Text.endings source
    ∃ new lines a added,
      Delivered cfg now p (Utf8.encode new) b r.2 ∧
      Rewritten (Language.ofPath p) r.1.fixes (Text.lines source) lines a added ∧
      new = Text.compose (Text.terminate br (Text.lastEnding br source)
        (lines.take a ++ added ++ lines.drop a)) ∧
      (Text.Alike source → (added = [] ∨ a < lines.length ∨ source.getLast? = some '\n') →
        new = Text.compose
          ((lines.zip ends).take a ++ added.map (·, br) ++ (lines.zip ends).drop a)) ∧
      Text.compose ((Text.lines source).zip ends) = source := by
  intro r br ends
  obtain ⟨pass, htracks, hfixes, -, hdelivered⟩ := delivered_of_written hread hsource hwritten
  refine ⟨pass.composed _ source, pass.lines, Preamble.anchor _ pass.lines, pass.added, hdelivered,
    ?_, rfl, fun halike hplace ↦ ?_, ?_⟩
  · rw [hfixes]
    exact htracks.rewritten
  · have hends : pass.lines.zip ends = Text.terminate br (Text.lastEnding br source) pass.lines := by
      rw [show ends = (Text.pieces source).map Prod.snd from rfl, Text.pieces_eq_terminate halike]
      exact Text.zip_terminate_snd _ _ htracks.length
    rw [hends, Pass.composed, Pass.written, Text.terminate_insert]
    exact hplace.imp_right (Or.imp_right fun hlast ↦ if_pos hlast)
  · rw [Text.lines_zip_endings, Text.compose_pieces]

theorem file_keeps_line_breaks_os :
    let r := file {} ⟨1, 0⟩ ⟨"a.py"⟩ "a.py" [evalFound, passwordFound] (aloneBench osText)
    let ends := Text.endings osText
    r.1.written ∧ Text.Alike osText ∧ ∃ new lines a added,
      Delivered {} ⟨1, 0⟩ ⟨"a.py"⟩ (Utf8.encode new) (aloneBench osText) r.2 ∧
      Rewritten (Language.ofPath ⟨"a.py"⟩) r.1.fixes (Text.lines osText) lines a added ∧
      new = Text.compose
        ((lines.zip ends).take a ++ added.map (·, .crlf) ++ (lines.zip ends).drop a) ∧
      Text.compose ((Text.lines osText).zip ends) = osText := by
  have halike : Text.Alike osText := by decide +kernel
  have hbreak : Text.breakOf osText = .crlf := by decide +kernel
  obtain ⟨new, lines, a, added, hdelivered, hrewritten, -, hkept, hsame⟩ :=
    file_keeps_line_breaks osText_read osText_detect {} ⟨1, 0⟩ "a.py" [evalFound, passwordFound]
      osText_written
  rw [hbreak] at hkept
  exact ⟨osText_written, halike, new, lines, a, added, hdelivered, hrewritten,
    hkept halike (.inr (.inr (by decide +kernel))), hsame⟩

/-- Two ways in which an old line gets another end: among breaks of both kinds a short
one becomes a long one, and a last line without one gets one when an import is put in behind it. -/
theorem file_changes_line_breaks :
    (let r := file {} ⟨1, 0⟩ ⟨"a.py"⟩ "a.py" [evalFound]
      (aloneBench "x = eval(a)\r\ny = 1\n".toList)
     r.1.written ∧ r.1.fixes = [⟨.dangerousEval, 1, .fixed⟩] ∧ r.2.tree.read ⟨"a.py"⟩ =
      .ok (Utf8.encode "import ast\r\nx = ast.literal_eval(a)\r\ny = 1\r\n".toList)) ∧
    let r := file {} ⟨1, 0⟩ ⟨"a.py"⟩ "a.py" [evalFound]
      (aloneBench "\"\"\"d\"\"\"; eval(a)".toList)
    r.1.written ∧ r.1.fixes = [⟨.dangerousEval, 1, .fixed⟩] ∧ r.2.tree.read ⟨"a.py"⟩ =
      .ok (Utf8.encode "\"\"\"d\"\"\"; ast.literal_eval(a)\nimport ast".toList) := by
  decide +kernel

end File

end Fix

end Steward
