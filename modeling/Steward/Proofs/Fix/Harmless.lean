import Steward.Proofs.Fix.Rewriting

/-!
# Healing does no harm

A line is judged on its own, so the violations of a text are as many as the lines that have one. A
pass rewrites only such lines, and no preamble has a hazard in any language: what was clean stays and
stays clean, and there are no more violations than before.
-/

namespace Steward

open Text (Line)
open List

namespace Violation

variable {file : String} {limit : Nat} {source : List Char} {i : Nat}

/-- Whether there is a hazard on a line. -/
def hazardous (l : Language) (line : Line) : Bool := (Detector.first? l line).isSome

/-- Whether a text has a violation on the line with an index. -/
def Flagged (file : String) (limit : Nat) (source : List Char) (i : Nat) : Prop :=
  ∃ v ∈ ofText file limit source, v.line = i + 1

theorem flagged_iff : Flagged file limit source i ↔
    ∃ line, (Text.lines source)[i]? = some line ∧ hazardous (Language.ofPath ⟨file⟩) line := by
  constructor
  · rintro ⟨v, hv, hi⟩
    obtain ⟨j, line, hline, hof⟩ := mem_ofText_iff.1 hv
    obtain ⟨d, hd, rfl⟩ := Option.map_eq_some_iff.1 hof
    cases hi
    exact ⟨line, hline, Option.isSome_iff_exists.2 ⟨d, hd⟩⟩
  · rintro ⟨line, hline, hhazard⟩
    obtain ⟨d, hd⟩ := Option.isSome_iff_exists.1 hhazard
    exact ⟨_, mem_ofText_iff.2 ⟨i, line, hline, Option.map_eq_some_iff.2 ⟨d, hd, rfl⟩⟩, rfl⟩

/-- There are as many violations as lines with a hazard. -/
theorem length_ofText (file : String) (limit : Nat) (source : List Char) :
    (ofText file limit source).length =
      (Text.lines source).countP (hazardous (Language.ofPath ⟨file⟩)) := by
  rw [ofText, length_filterMap_eq_countP]
  conv_rhs => rw [← zipIdx_map_fst 0 (Text.lines source), countP_map]
  refine countP_congr fun p _ ↦ ?_
  simp [ofLine?, hazardous]

end Violation

/-! ## Lines put in at a place -/

section Insertion

variable {xs added : List Line} {a : Nat}

/-- Where a line is after some were put in. -/
def shifted (a n i : Nat) : Nat := if i < a then i else i + n

theorem getElem?_shifted (ha : a ≤ xs.length) (i : Nat) :
    (xs.take a ++ added ++ xs.drop a)[shifted a added.length i]? = xs[i]? := by
  rw [shifted]
  split_ifs with hi
  · rw [append_assoc, getElem?_append_left (by rw [length_take]; omega),
      getElem?_take_of_lt hi]
  · have hlength : (xs.take a ++ added).length = a + added.length := by
      rw [length_append, length_take, Nat.min_eq_left ha]
    rw [getElem?_append_right (by omega), hlength, getElem?_drop]
    congr 1
    omega

theorem getElem?_added (ha : a ≤ xs.length) {j : Nat} {line : Line} (hj : added[j]? = some line) :
    (xs.take a ++ added ++ xs.drop a)[a + j]? = some line := by
  have hlt := (List.getElem?_eq_some_iff.1 hj).1
  have htake : (xs.take a).length = a := by rw [length_take, Nat.min_eq_left ha]
  rw [append_assoc, getElem?_append_right (by omega), htake, Nat.add_sub_cancel_left,
    getElem?_append_left hlt, hj]

theorem countP_le_of_getElem? {ys : List Line} {p : Line → Bool} (hlength : ys.length = xs.length)
    (h : ∀ (i : Nat) y, ys[i]? = some y → p y → ∃ x, xs[i]? = some x ∧ p x) :
    ys.countP p ≤ xs.countP p := by
  induction ys generalizing xs with
  | nil => exact Nat.zero_le _
  | cons y ys ih =>
    cases xs with
    | nil => cases hlength
    | cons x xs =>
      have hrest := ih (Nat.succ.inj hlength) fun i z hz hp ↦ h (i + 1) z hz hp
      have hfirst : p y → p x := fun hy ↦ by
        obtain ⟨x', hx', hp⟩ := h 0 y rfl hy
        cases hx'
        exact hp
      rw [countP_cons, countP_cons]
      split_ifs with hy hx
      · exact Nat.add_le_add_right hrest 1
      · exact absurd (hfirst hy) hx
      · omega
      · exact hrest

end Insertion

namespace Fix

open Violation (hazardous Flagged)

variable {l : Language}

/-- No preamble has a hazard. -/
theorem not_hazardous_of_needed {q : Preamble} (hq : Pass.Needed l q) :
    hazardous l q.line.toList = false := by
  obtain ⟨h, hq⟩ := hq
  cases h <;> cases l <;> cases hq <;> decide +kernel

/-- A text became another with some preambles put in at a place: there are no more violations, the
lines without one are still there and have none, and neither have the preambles. -/
structure Harmless (file : String) (limit : Nat) (source new : List Char) (a : Nat)
    (added : List Line) : Prop where
  violations : (Violation.ofText file limit new).length ≤ (Violation.ofText file limit source).length
  place : a ≤ (Text.lines source).length
  length : (Text.lines new).length = (Text.lines source).length + added.length
  kept : ∀ i line, (Text.lines source)[i]? = some line → ¬Flagged file limit source i →
    (Text.lines new)[shifted a added.length i]? = some line ∧
      ¬Flagged file limit new (shifted a added.length i)
  inserted : ∀ j line, added[j]? = some line →
    (Text.lines new)[a + j]? = some line ∧ ¬Flagged file limit new (a + j)
  preambles : ∀ line ∈ added, ∃ q, Pass.Needed (Language.ofPath ⟨file⟩) q ∧ q.line.toList = line

variable {file : String} {limit : Nat} {source : List Char}

theorem Harmless.refl (file : String) (limit : Nat) (source : List Char) :
    Harmless file limit source source 0 [] := by
  refine ⟨le_refl _, Nat.zero_le _, rfl, fun i line hline hclean ↦ ⟨hline, hclean⟩, ?_, ?_⟩
  · simp
  · simp

/-- A line that keeps its text keeps its judgement. -/
theorem not_flagged_of_getElem? {new : List Char} {i : Nat} {line : Line}
    (hline : (Text.lines new)[i]? = some line)
    (hclean : hazardous (Language.ofPath ⟨file⟩) line = false) : ¬Flagged file limit new i := by
  rw [Violation.flagged_iff]
  rintro ⟨line', hline', hhazard⟩
  cases hline.symm.trans hline'
  exact absurd (hclean.symm.trans hhazard) (by decide)

/-- A pass that only rewrites lines with violations does no harm. -/
theorem Tracks.harmless {p : Pass} (h : Tracks (Language.ofPath ⟨file⟩) (Text.lines source) p)
    (hfixes : ∀ f ∈ p.fixes, ∃ v ∈ Violation.ofText file limit source, v.line = f.line)
    (hreturns : Text.returnsPaired source) :
    Harmless file limit source (p.composed (Language.ofPath ⟨file⟩) source)
      (Preamble.anchor (Language.ofPath ⟨file⟩) p.lines) p.added := by
  have hlines := h.lines_composed hreturns
  have hanchor := Preamble.anchor_le (Language.ofPath ⟨file⟩) p.lines
  have hkept (i : Nat) (hclean : ¬Flagged file limit source i) :
      p.lines[i]? = (Text.lines source)[i]? := by
    refine h.kept i fun f hf hi ↦ ?_
    obtain ⟨v, hv, hline⟩ := hfixes f hf
    exact absurd ⟨v, hv, hline.trans hi⟩ hclean
  have hpreamble : ∀ line ∈ p.added, hazardous (Language.ofPath ⟨file⟩) line = false := by
    intro line hline
    obtain ⟨q, hq, rfl⟩ := h.exists_of_mem_added hline
    exact not_hazardous_of_needed hq
  refine ⟨?_, h.length ▸ hanchor, ?_, fun i line hline hclean ↦ ?_, fun j line hline ↦ ?_,
    fun line hline ↦ h.exists_of_mem_added hline⟩
  · have hnone : p.added.countP (hazardous (Language.ofPath ⟨file⟩)) = 0 :=
      countP_eq_zero.2 fun line hline ↦ by simp [hpreamble line hline]
    rw [Violation.length_ofText, Violation.length_ofText, hlines, Pass.written, countP_append,
      countP_append, hnone, Nat.add_zero, ← countP_append, take_append_drop]
    refine countP_le_of_getElem? h.length fun i y hy hhazard ↦ ?_
    by_contra hnone
    have hclean : ¬Flagged file limit source i := by rwa [Violation.flagged_iff]
    exact hnone ⟨y, (hkept i hclean).symm.trans hy, hhazard⟩
  · rw [hlines, Pass.written, length_append, length_append, length_take,
      length_drop, ← h.length]
    omega
  · have hnew : (p.written (Language.ofPath ⟨file⟩))[shifted
        (Preamble.anchor (Language.ofPath ⟨file⟩) p.lines) p.added.length i]? = some line := by
      rw [Pass.written, getElem?_shifted hanchor, hkept i hclean, hline]
    rw [← hlines] at hnew
    refine ⟨hnew, not_flagged_of_getElem? hnew (eq_false_of_ne_true fun hhazard ↦ ?_)⟩
    exact hclean (Violation.flagged_iff.2 ⟨line, hline, hhazard⟩)
  · have hnew := getElem?_added hanchor hline
    rw [← Pass.written, ← hlines] at hnew
    exact ⟨hnew, not_flagged_of_getElem? hnew (hpreamble line (mem_of_getElem? hline))⟩

theorem exists_harmless_healPass (file : String) (limit : Nat)
    (hreturns : Text.returnsPaired source) :
    ∃ a added, Harmless file limit source (healPass file limit source) a added := by
  obtain ⟨-, hsame⟩ | ⟨-, hpass⟩ := healPass_cases file limit source
  · rw [hsame]
    exact ⟨0, [], .refl file limit source⟩
  · have hhealed : Healed (Language.ofPath ⟨file⟩)
        ((Violation.ofText file limit source).filter (·.fixable)) source :=
      healed_of_sublist filter_sublist
    obtain ⟨p, htracks, hfixes, -, hcomposed⟩ := exists_tracks_of_text hpass
    rw [hhealed.text_eq] at hfixes
    rw [hcomposed]
    refine ⟨_, _, htracks.harmless (fun f hf ↦ ?_) hreturns⟩
    rw [← hfixes] at hf
    obtain ⟨v, hv, rfl⟩ := mem_map.1 hf
    exact ⟨v, mem_of_mem_filter (mem_reverse.1 hv), rfl⟩

/-- Healing never adds violations. The text after all fixable violations of a text were fixed has no
more of them, keeps the lines without one as they are, and has none on a line that was put in; it is
what a file with the text holds after they were fixed there, if the file was written. -/
theorem healing_adds_no_violation (file : String) (limit : Nat)
    (hreturns : Text.returnsPaired source) :
    (∃ a added, Harmless file limit source (healPass file limit source) a added) ∧
    ∀ (cfg : Config.Fixer) (now : Instant) (p : Path) (b : Bench) (bytes : List UInt8)
      (encoding : Encoding), Language.ofPath p = Language.ofPath ⟨file⟩ →
      b.tree.read p = .ok bytes → Encoding.detect bytes = some (source, encoding) →
      let r := Fix.file cfg now p file ((Violation.ofText file limit source).filter (·.fixable)) b
      (r.1.written → Delivered cfg now p (Utf8.encode (healPass file limit source)) b r.2 ∧
        Encoding.detect (Utf8.encode (healPass file limit source)) =
          some (healPass file limit source, .utf8)) ∧
      (r.1.written = false → b.tree.Rooted → Bare b.tree p → b.tree.NamesNoLink p →
        r.2.tree.read p = .ok bytes) := by
  refine ⟨exists_harmless_healPass file limit hreturns, ?_⟩
  intro cfg now p b bytes encoding hlanguage hread hsource r
  refine ⟨fun hwritten ↦ ?_, fun hwritten ht hbare hp ↦ read_of_unwritten ht hbare hp hread hwritten⟩
  obtain ⟨new, hnew, -, hdelivered⟩ := delivered_text_of_written hread hsource hwritten
  have hpass : healPass file limit source = new := by
    rw [healPass, ← hlanguage, hnew, Option.getD_some]
  obtain ⟨pass, htracks, -, -, hcomposed⟩ := exists_tracks_of_text hnew
  rw [hpass]
  refine ⟨hdelivered, Encoding.detect_encode ?_⟩
  rw [hcomposed]
  exact htracks.zero_notMem_composed (Encoding.zero_notMem_of_detect hsource)

theorem healing_adds_no_violation_os :
    Text.returnsPaired osText ∧ (∃ v ∈ Violation.ofText "a.py" 80 osText, v.fixable) ∧
      (Fix.file {} ⟨1, 0⟩ ⟨"a.py"⟩ "a.py"
        ((Violation.ofText "a.py" 80 osText).filter (·.fixable)) (aloneBench osText)).1.written ∧
      ∃ a added, Harmless "a.py" 80 osText (healPass "a.py" 80 osText) a added := by
  have hreturns : Text.returnsPaired osText := by decide +kernel
  refine ⟨hreturns, by decide +kernel, ?_, (healing_adds_no_violation "a.py" 80 hreturns).1⟩
  have hordered :=
    ordered_eq_reverse ((Violation.pairwise_ofText "a.py" 80 osText).filter (·.fixable))
  simp only [Fix.file, text, hordered]
  decide +kernel

end Fix

end Steward
