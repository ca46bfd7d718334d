import Steward.Fix.File
import Steward.Proofs.Fix.Change
import Steward.Proofs.Location

/-!
# A survey's promises

Survey and fix read a line on their own, yet agree on it: what is reported as fixable is fixed, and
nothing else is. A text has at most one violation a line, so the fix of one does not get in the way
of another's.
-/

namespace Steward

open Text (Line)
open List

namespace Detector

variable {l : Language} {line : Line} {d : Detector}

@[simp]
theorem hazard_ofHazard (h : Hazard) : (ofHazard h).hazard = h := by
  cases h <;> rfl

theorem eq_ofHazard_of_mem_table (h : d ∈ table) : d = ofHazard d.hazard := by
  fin_cases h <;> rfl

theorem eq_ofHazard_of_first? (h : first? l line = some d) : d = ofHazard d.hazard :=
  eq_ofHazard_of_mem_table (mem_of_find?_eq_some h)

theorem find?_of_first? (h : first? l line = some d) : (d.find? l line).isSome := by
  have hfind := find?_some h
  exact hfind

/-- A row says that a hazard cannot be fixed only where that is so in every language. -/
theorem fixable_and_canFix (h : Hazard) (l : Language) :
    ((ofHazard h).fixable && Fix.canFix h l) = Fix.canFix h l := by
  cases h <;> rfl

end Detector

namespace Violation

variable {file : String} {limit : Nat} {source : List Char}
variable {v : Violation}

/-- The violation is what is found on its line. -/
def On (l : Language) (lines : List Line) (v : Violation) : Prop :=
  ∃ i line, v.line = i + 1 ∧ lines[i]? = some line ∧
    Detector.first? l line = some (Detector.ofHazard v.hazard) ∧ v.fixable = Fix.canFix v.hazard l

theorem mem_ofText_iff :
    v ∈ ofText file limit source ↔ ∃ i line, (Text.lines source)[i]? = some line ∧
      ofLine? (Language.ofPath ⟨file⟩) file limit line (i + 1) = some v := by
  simp only [ofText, mem_filterMap, Prod.exists, mk_mem_zipIdx_iff_getElem?]
  rw [exists_comm]

theorem on_of_ofLine? {l : Language} {lines : List Line} {line : Line} {i : Nat}
    (hline : lines[i]? = some line) (h : ofLine? l file limit line (i + 1) = some v) :
    v.On l lines := by
  obtain ⟨d, hd, rfl⟩ := Option.map_eq_some_iff.1 h
  have hrow := Detector.eq_ofHazard_of_first? hd
  have hfix := Detector.fixable_and_canFix d.hazard l
  rw [← hrow] at hfix
  exact ⟨i, line, rfl, hline, hd.trans (congrArg some hrow), hfix⟩

theorem on_of_mem_ofText (h : v ∈ ofText file limit source) :
    v.On (Language.ofPath ⟨file⟩) (Text.lines source) := by
  obtain ⟨i, line, hline, hv⟩ := mem_ofText_iff.1 h
  exact on_of_ofLine? hline hv

/-- Violations stand on different lines, in order. -/
theorem pairwise_ofText (file : String) (limit : Nat) (source : List Char) :
    (ofText file limit source).Pairwise fun v v' ↦ v.line < v'.line := by
  rw [ofText, pairwise_filterMap]
  have hzip : (Text.lines source).zipIdx.Pairwise fun a b ↦ a.2 < b.2 := by
    rw [← pairwise_map, zipIdx_map_snd]
    exact pairwise_lt_range'
  refine hzip.imp fun {a b} hab v hv v' hv' ↦ ?_
  obtain ⟨-, -, rfl⟩ := Option.map_eq_some_iff.1 hv
  obtain ⟨-, -, rfl⟩ := Option.map_eq_some_iff.1 hv'
  exact Nat.succ_lt_succ hab

end Violation

namespace Fix

open Violation (On)

variable {l : Language}
variable {v : Violation} {vs : List Violation} {source : List Char}

/-- What is to become of a violation. -/
def promised (v : Violation) : Outcome :=
  if v.fixable then .fixed
  else .notApplicable (if v.hazard = .awsAccessKey then .needsRotation else .noTransform)

/-- What a violation is reported as, once it is seen to. -/
def settled (v : Violation) : LineFix := ⟨v.hazard, v.line, promised v⟩

/-- The line after the fix of the hazard on it. -/
def healed (l : Language) (line : Line) : Line :=
  (Detector.first? l line).elim line fun d ↦ (onLine l d.hazard line).2

theorem onLine_of_first? {line : Line}
    (hfirst : Detector.first? l line = some (Detector.ofHazard v.hazard))
    (hfix : v.fixable = canFix v.hazard l) :
    onLine l v.hazard line = (promised v, healed l line) := by
  have hfind := Detector.find?_of_first? hfirst
  refine Prod.ext ?_ ?_
  · rw [onLine, if_neg (by simpa [← Option.isSome_iff_ne_none] using hfind), promised, hfix]
    cases hcan : canFix v.hazard l with
    | false => rfl
    | true =>
      obtain ⟨line', hline', -⟩ := line?_of_find? hcan hfind
      rw [hline']
      rfl
  · rw [healed, hfirst, Option.elim_some, Detector.hazard_ofHazard]

/-! ## One pass over a text -/

theorem onLines_of_on {lines : List Line} (h : v.On l lines) :
    ∃ i line, v.line = i + 1 ∧ lines[i]? = some line ∧
      onLines l v.hazard v.line lines = (promised v, lines.set i (healed l line)) := by
  obtain ⟨i, line, hi, hline, hfirst, hfix⟩ := h
  refine ⟨i, line, hi, hline, ?_⟩
  rw [hi, onLines, hline]
  dsimp only
  rw [onLine_of_first? hfirst hfix]

/-- A violation on another line stays what it is. -/
theorem on_set {lines : List Line} {i : Nat} (new : Line) (h : v.On l lines) (hi : v.line ≠ i + 1) :
    v.On l (lines.set i new) := by
  obtain ⟨j, line, hj, hline, hv⟩ := h
  refine ⟨j, line, hj, ?_, hv⟩
  rw [getElem?_set_ne (by omega), hline]

namespace Pass

variable {p : Pass}

/-- A preamble that some replacement in the language needs. -/
def Needed (l : Language) (q : Preamble) : Prop := ∃ h, preamble? h l = some q

theorem needed_step {v : Violation} (hp : ∀ q ∈ p.preambles, Needed l q) :
    ∀ q ∈ (p.step l v).preambles, Needed l q := by
  intro q hq
  simp only [step] at hq
  split at hq
  · rename_i q' hq'
    have hneeded : Needed l q' := by
      split_ifs at hq'
      exact ⟨_, hq'⟩
    split_ifs at hq
    · exact hp q hq
    · rcases mem_append.1 hq with hq | hq
      · exact hp q hq
      · rw [mem_singleton.1 hq]
        exact hneeded
  · exact hp q hq

theorem needed_foldl_step (vs : List Violation) (hp : ∀ q ∈ p.preambles, Needed l q) :
    ∀ q ∈ (vs.foldl (step l) p).preambles, Needed l q := by
  induction vs generalizing p with
  | nil => exact hp
  | cons v vs ih => exact ih (needed_step hp)

/-- The pass over violations that stand on different lines: each is seen to as promised, and its line
is healed. -/
theorem foldl_step {vs : List Violation} (hvs : ∀ v ∈ vs, v.On l p.lines)
    (hne : vs.Pairwise fun v v' ↦ v.line ≠ v'.line) :
    (vs.foldl (step l) p).fixes = p.fixes ++ vs.map settled ∧
      ∀ j : Nat, (vs.foldl (step l) p).lines[j]? =
        p.lines[j]?.map fun line ↦ if ∃ v ∈ vs, v.line = j + 1 then healed l line else line := by
  induction vs generalizing p with
  | nil => simp
  | cons v vs ih =>
    obtain ⟨hv, hne⟩ := pairwise_cons.1 hne
    obtain ⟨i, line, hi, hline, hon⟩ := onLines_of_on (hvs v (by simp))
    have hfixes : (p.step l v).fixes = p.fixes ++ [settled v] := by
      simp only [step, hon, settled]
    have hlines : (p.step l v).lines = p.lines.set i (healed l line) := by simp only [step, hon]
    obtain ⟨ihfixes, ihlines⟩ := ih (p := p.step l v) (fun v' hv' ↦ by
      rw [hlines]
      exact on_set _ (hvs v' (by simp [hv'])) (hi ▸ (hv v' hv').symm)) hne
    refine ⟨?_, fun j ↦ ?_⟩
    · rw [foldl_cons, ihfixes, hfixes, map_cons, append_assoc, singleton_append]
    · rw [foldl_cons, ihlines, hlines]
      by_cases hij : i = j
      · subst hij
        have hrest : ¬∃ v' ∈ vs, v'.line = i + 1 := by
          rintro ⟨v', hv', hi'⟩
          exact hv v' hv' (hi.trans hi'.symm)
        rw [getElem?_set_self (List.getElem?_eq_some_iff.1 hline).1, hline]
        simp [hrest, hi]
      · rw [getElem?_set_ne hij]
        simp [hi, hij]

end Pass

theorem ordered_eq_reverse (h : vs.Pairwise fun v v' ↦ v.line < v'.line) :
    ordered vs = vs.reverse := by
  have hperm : (ordered vs).Perm vs.reverse := (mergeSort_perm vs _).trans vs.reverse_perm.symm
  have hordered : (ordered vs).Pairwise fun v v' ↦ v'.line ≤ v.line := by
    have hsort : (ordered vs).Pairwise fun v v' ↦ decide (v'.line ≤ v.line) = true :=
      pairwise_mergeSort (fun a b c hab hbc ↦ by simp_all; omega)
        (fun a b ↦ by simp; omega) vs
    exact hsort.imp of_decide_eq_true
  have hreverse : vs.reverse.Pairwise fun v v' ↦ v'.line ≤ v.line :=
    pairwise_reverse.2 (h.imp Nat.le_of_lt)
  refine hperm.eq_of_pairwise ?_ hordered hreverse
  intro v v' hv hv' hle hle'
  have hnodup : (vs.map (·.line)).Nodup := pairwise_map.2 (h.imp Nat.ne_of_lt)
  exact inj_on_of_nodup_map hnodup ((mergeSort_perm vs _).mem_iff.1 hv)
    (mem_reverse.1 hv') (Nat.le_antisymm hle' hle)

/-! ## The report -/

/-- The pass over violations of a text. -/
def passOver (l : Language) (vs : List Violation) (source : List Char) : Pass :=
  (ordered vs).foldl (Pass.step l) { lines := Text.lines source }

/-- What the pass over some of a text's violations comes to. -/
structure Healed (l : Language) (vs : List Violation) (source : List Char) : Prop where
  fixes : (passOver l vs source).fixes = vs.reverse.map settled
  lines : ∀ j : Nat, (passOver l vs source).lines[j]? = (Text.lines source)[j]?.map fun line ↦
    if ∃ v ∈ vs, v.line = j + 1 then healed l line else line
  preambles : ∀ q ∈ (passOver l vs source).preambles, Pass.Needed l q

theorem healed_of_sublist {file : String} {limit : Nat}
    (hvs : vs.Sublist (Violation.ofText file limit source)) :
    Healed (Language.ofPath ⟨file⟩) vs source := by
  have hsorted := (Violation.pairwise_ofText file limit source).sublist hvs
  have hon : ∀ v ∈ vs.reverse, v.On (Language.ofPath ⟨file⟩) (Text.lines source) :=
    fun v hv ↦ Violation.on_of_mem_ofText (hvs.subset (mem_reverse.1 hv))
  have hne : vs.reverse.Pairwise fun v v' ↦ v.line ≠ v'.line :=
    pairwise_reverse.2 (hsorted.imp fun h ↦ (Nat.ne_of_lt h).symm)
  obtain ⟨hfixes, hlines⟩ := Pass.foldl_step (p := { lines := Text.lines source }) hon hne
  refine ⟨?_, ?_, ?_⟩
  · rw [passOver, ordered_eq_reverse hsorted, hfixes, nil_append]
  · simpa only [passOver, ordered_eq_reverse hsorted, mem_reverse] using hlines
  · exact Pass.needed_foldl_step _ (by simp)

theorem isFixed_settled (v : Violation) : (settled v).outcome.isFixed = v.fixable := by
  rw [settled, promised]
  cases v.fixable <;> rfl

theorem Healed.any_isFixed (h : Healed l vs source) :
    (passOver l vs source).fixes.any (·.outcome.isFixed) = vs.any (·.fixable) := by
  rw [h.fixes, any_map, any_reverse]
  exact congrArg vs.any (funext isFixed_settled)

/-- The text that a pass leads to. -/
def textAfter (l : Language) (p : Pass) (source : List Char) : List Char :=
  joinLines (newlineOf source) (source.getLast? = some '\n') (Preamble.insertAll l p.preambles p.lines)

theorem Healed.text_eq (h : Healed l vs source) :
    text l vs source = (vs.reverse.map settled,
      if vs.any (·.fixable) then some (textAfter l (passOver l vs source) source) else none) := by
  rw [← h.any_isFixed, ← h.fixes, text, passOver]
  dsimp only
  split_ifs <;> rfl

/-- Whether the copy of a file's old bytes is there or can be made, and the new ones be written then. -/
def Bench.accepts (b : Bench) (cfg : Config.Fixer) (now : Instant) (p : Path)
    (old new : List UInt8) : Bool :=
  (b.ensureBackup now p old).1.isOk && ((b.ensureBackup now p old).2.write cfg now p new).1.isOk

/-- The fix is what became of the violation, as its report foretold. -/
structure Reports (f : LineFix) (v : Violation) : Prop where
  hazard : f.hazard = v.hazard
  line : f.line = v.line
  fixed_iff : f.outcome = .fixed ↔ v.fixable
  not_applicable : v.fixable = false → ∃ why, f.outcome = .notApplicable why

end Fix

end Steward
