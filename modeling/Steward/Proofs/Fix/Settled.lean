import Steward.Proofs.Fix.Avoid
import Steward.Proofs.Fix.Convergence

/-!
# Fixes of code remove what they fix

A fix that rewrites code replaces all that its detector finds on the line, and what it writes is not
found again: `Fix.swap_of_change` says so of one replacement. So nothing is left to find,
`Fix.find?_of_line?`, and the same fix does not apply to the line again, `Fix.onLines_of_fixed`.
-/

namespace Steward

open Text (Line Blanks)
open List

namespace Detector

open Pattern Text

variable {l : Language} {gs gs' : Groups}

/-! ## All that is found is replaced -/

/-- The hazards whose fix rewrites code. -/
def rewritten : List Hazard := [.dangerousEval, .bareExcept, .commandInjection, .anyType, .todoComment]

theorem any_le_iff {comment : Option Nat} {a : Nat} :
    comment.any (· ≤ a) ↔ ∃ i, comment = some i ∧ i ≤ a := by
  cases comment <;> simp

/-- A character of the line that is in a part of it. -/
theorem mem_of_length {x y pre w post : List Char} {d : Char} (h : x ++ d :: y = pre ++ w ++ post)
    (hle : pre.length ≤ x.length) (hlt : x.length < (pre ++ w).length) :
    ∃ u u', w = u ++ d :: u' ∧ x = pre ++ u ∧ y = u' ++ post := by
  rcases stands h with ⟨r, rfl, -⟩ | ⟨u, u', hw, hx, hy⟩ | ⟨r, rfl, -⟩
  · simp at hle
  · exact ⟨u, u', hw, hx, hy⟩
  · simp at hlt

/-- No comment starts inside of a marker. -/
theorem comment_of_takes_todo {x v y : List Char} (h : Takes todoPattern x v y gs gs') {i : Nat}
    (hi : l.commentStart (x ++ v ++ y) = some i) (hle : x.length ≤ i) : (x ++ v).length ≤ i := by
  obtain ⟨marker, hmarker, rfl, -⟩ := takes_todoPattern h
  obtain ⟨u, c, t, hcut, rfl, hopens⟩ := Language.opensComment_of_commentStart hi
  refine Nat.le_of_not_lt fun hlt ↦ ?_
  obtain ⟨s, s', hmem, -⟩ := mem_of_length hcut.symm hle hlt
  have hplain : '#' ∉ marker.toList ∧ '/' ∉ marker.toList := by fin_cases hmarker <;> decide
  rcases Fix.mark_of_opensComment hopens with rfl | ⟨rfl, -⟩
  · exact hplain.1 (by simp [hmem])
  · exact hplain.2 (by simp [hmem])

theorem covered_placed {h : Hazard} (hh : h ∈ rewritten) (l : Language) (line : Line) :
    (ofHazard h).Covered l ((ofHazard h).placed l line) line := by
  rintro _ ⟨x, v, y, gs, rfl, rfl, htakes, hadmits⟩
  obtain ⟨⟨_, groups⟩, hm, hle, hlt⟩ := exists_match_of_takes htakes (takes_ne_nil htakes)
  obtain ⟨x', v', y', hline, htakes', hwhole⟩ := found_of_mem_matches hm
  cases hwhole
  have hstop : x.length < (x' ++ v').length := by
    rcases hlt with hlt | hlt
    · have hpos := length_pos_iff.2 (takes_ne_nil htakes')
      simp at hlt ⊢
      omega
    · exact hlt
  refine ⟨_, mem_filter.2 ⟨hm, ?_⟩, hle, hstop⟩
  rw [hline, Placement.allows_eq_admits]
  rw [hline] at hadmits
  dsimp only at hle
  have houtside (hnot : !((l.commentStart (x' ++ v' ++ y')).any (· ≤ x.length))) :
      !((l.commentStart (x' ++ v' ++ y')).any (· ≤ x'.length)) := by
    rw [Bool.not_eq_true', ← Bool.not_eq_true] at hnot ⊢
    intro h
    obtain ⟨i, hi, hix⟩ := any_le_iff.1 h
    exact hnot (any_le_iff.2 ⟨i, hi, hix.trans hle⟩)
  simp only [rewritten, mem_cons, not_mem_nil, or_false] at hh
  rcases hh with rfl | rfl | rfl | rfl | rfl
  · exact houtside hadmits
  · exact houtside hadmits
  · exact houtside hadmits
  · -- both start with the same colon, so they are the same
    obtain ⟨b, rfl, hb, -⟩ := takes_anyPattern htakes
    obtain ⟨b', rfl, hb', -⟩ := takes_anyPattern htakes'
    have hcolon : ':' ∉ b' ++ "any".toList :=
      not_mem_append (notMem_of_blanks hb' rfl) (by decide)
    have hcut : x ++ ':' :: (b ++ "any".toList ++ y) =
        x' ++ (":".toList ++ b' ++ "any".toList) ++ y' := by simpa using hline
    obtain ⟨u, u', hw, rfl, hy⟩ := mem_of_length hcut hle hstop
    have hsplit : [] ++ ':' :: (b' ++ "any".toList) = u ++ ':' :: u' := hw
    obtain ⟨rfl, -, rfl⟩ := (append_cons_inj_of_notMem (by simp) hcolon).1 hsplit
    have hrest : b ++ 'a' :: ('n' :: 'y' :: y) = b' ++ 'a' :: ('n' :: 'y' :: y') := by simpa using hy
    obtain rfl : y = y' := by simpa using (eq_of_blanks hb hb' rfl rfl hrest).2
    simpa using hadmits
  · obtain ⟨i, hi, hix⟩ := any_le_iff.1 hadmits
    refine any_le_iff.2 ⟨i, hi, Nat.le_of_not_lt fun hlt ↦ ?_⟩
    exact absurd (comment_of_takes_todo htakes' hi hlt.le) (Nat.not_le.2 (hix.trans_lt hstop))

end Detector

/-! ## One replacement -/

theorem Language.neutral_of_isVariable {c : Char} (hc : Detector.isVariable c) :
    Language.Neutral c := by
  intro hmem
  fin_cases hmem <;> exact absurd hc (by decide)

namespace Fix

open Detector Pattern
open Steward.Language (Part Ascii neutral_of_isVariable neutral_of_isBlank Shifted)

variable {l : Language} {h : Hazard} {pre w w' post post' : List Char} {gs : Groups}

/-- What becomes of a text outside of comments, with words at the same ends. -/
structure Recast (w w' : List Char) : Prop where
  part : Part w
  part' : Part w'
  ascii : Ascii w
  ascii' : Ascii w'
  head : w.head?.any Text.isWord = w'.head?.any Text.isWord
  last : w.getLast?.any Text.isWord = w'.getLast?.any Text.isWord

theorem Recast.swap (hw : Recast w w') (havoids : Avoids (ofHazard h).pattern pre w' post)
    (hcall : (ofHazard h).placement = .outsideCommentNotCall →
      ∃ c u u', Text.isBlank c = false ∧ w = c :: u ∧ w' = c :: u') :
    Swap (ofHazard h) l pre w w' post where
  avoids := havoids
  comment := Language.shifted_commentStart hw.part hw.part' hw.ascii hw.ascii' l pre post
  last := by
    have hends {v : List Char} (hv : v ≠ []) :
        (pre ++ v).getLast?.any Text.isWord = v.getLast?.any Text.isWord := by
      rw [getLast?_append, getLast?_eq_some_getLast hv]
      rfl
    rw [hends hw.part.ne_nil, hends hw.part'.ne_nil, hw.last]
  head {x v r gs} _ _ := by
    have hstart {v : List Char} (hv : v ≠ []) : (v ++ post).head?.any Text.isWord =
        v.head?.any Text.isWord := by rw [head?_append_of_ne_nil _ hv]
    refine isWord_head_append ?_ r
    rw [hstart hw.part.ne_nil, hstart hw.part'.ne_nil, hw.head]
  call := hcall
  takes_ne_nil htakes := takes_ne_nil htakes

theorem recast_eval {code : Snippet} (hcode : literalParser? l = some code) :
    Recast "eval(".toList code.1.toList := by
  cases l <;> cases hcode <;>
    exact ⟨by decide, by decide, by decide, by decide, rfl, rfl⟩

/-- A text with space in its middle. -/
theorem part_of_blanks {b u v : List Char} (hb : Blanks b) (hu : Part (u ++ v)) (hne : u ≠ []) :
    Part (u ++ b ++ v) where
  neutral := by
    obtain ⟨hu, hv⟩ := forall_mem_append.1 hu.neutral
    exact forall_mem_append.2 ⟨forall_mem_append.2
      ⟨hu, fun c hc ↦ neutral_of_isBlank (hb c hc)⟩, hv⟩
  long := by
    have hlong := hu.long
    simp only [length_append] at hlong ⊢
    omega
  head := by
    have hhead := hu.head
    rwa [append_assoc, head?_append_of_ne_nil _ hne,
      ← head?_append_of_ne_nil _ hne]

theorem recast_except {b : List Char} (hb : Blanks b) :
    Recast ("except".toList ++ b ++ ":".toList) "except Exception as e:".toList where
  part := part_of_blanks hb (by decide) (by decide)
  part' := by decide
  ascii := by simp [Ascii]
  ascii' := by decide
  head := rfl
  last := by
    rw [getLast?_append]
    rfl

theorem recast_any {b : List Char} (hb : Blanks b) :
    Recast (":".toList ++ b ++ "any".toList) ": unknown".toList where
  part := part_of_blanks hb (by decide) (by decide)
  part' := by decide
  ascii := by simp [Ascii]
  ascii' := by decide
  head := rfl
  last := by
    rw [getLast?_append]
    rfl

/-- A command's call holds only neutral characters, with the argument or with it quoted. -/
theorem part_of_command {name : String} {b arg b' : List Char} {c : Char}
    (hname : name ∈ ["execSync", "exec", "spawn"]) (hb : Blanks b) (hb' : Blanks b')
    (hc : c = ',' ∨ c = ')') (harg : ∀ x ∈ arg, Language.Neutral x) :
    Part (name.toList ++ '(' :: b ++ arg ++ (b' ++ [c])) := by
  have hblanks {b : List Char} (hb : Blanks b) : ∀ x ∈ b, Language.Neutral x :=
    fun x hx ↦ neutral_of_isBlank (hb x hx)
  have hopen : Part (name.toList ++ ['(']) := by fin_cases hname <;> decide
  have hend : Language.Neutral c := by rcases hc with rfl | rfl <;> decide
  have hall : name.toList ++ '(' :: b ++ arg ++ (b' ++ [c]) =
      (name.toList ++ ['(']) ++ (b ++ (arg ++ (b' ++ [c]))) := by simp
  rw [hall]
  refine ⟨?_, ?_, ?_⟩
  · simp only [forall_mem_append, forall_mem_singleton]
    exact ⟨forall_mem_append.1 hopen.neutral |>.imp id (by simp), hblanks hb, harg, hblanks hb', hend⟩
  · have hlong := hopen.long
    rw [length_append]
    omega
  · rw [head?_append_of_ne_nil _ hopen.ne_nil]
    exact hopen.head

theorem recast_command {name : String} {b var b' : List Char} {c : Char} {code : Snippet}
    (hname : name ∈ ["execSync", "exec", "spawn"]) (hb : Blanks b) (hvar : Variable var)
    (hb' : Blanks b') (hc : c = ',' ∨ c = ')')
    (hcode : shellQuote? l (String.ofList var) = some code) :
    Recast (name.toList ++ '(' :: b ++ var ++ (b' ++ [c]))
      (name.toList ++ '(' :: b ++ code.1.toList ++ (b' ++ [c])) := by
  obtain ⟨q, hq, hquoted⟩ := shellQuote?_cases hcode
  have hneutral : ∀ x ∈ var, Language.Neutral x := fun x hx ↦ neutral_of_isVariable (hvar.2 x hx)
  have haround : (q.1.toList ++ q.2.toList).all (decide <| Language.Neutral ·) := by
    cases l <;> cases hq <;> decide
  rw [all_append, Bool.and_eq_true] at haround
  have hcall : ∀ x ∈ code.1.toList, Language.Neutral x := by
    rw [hquoted]
    exact forall_mem_append.2 ⟨forall_mem_append.2
      ⟨by simpa using haround.1, hneutral⟩, by simpa using haround.2⟩
  have hascii (arg : List Char) : Ascii (name.toList ++ '(' :: b ++ arg ++ (b' ++ [c])) := by
    fin_cases hname <;> simp [Ascii]
  refine ⟨part_of_command hname hb hb' hc hneutral, part_of_command hname hb hb' hc hcall,
    hascii _, hascii _, ?_, ?_⟩
  · fin_cases hname <;> rfl
  · rw [← append_assoc, getLast?_concat, ← append_assoc, getLast?_concat]

/-- A closed marker is found by nothing, and the comment that it stands in starts where it did. -/
theorem swap_todo {marker : String} (hmarker : marker ∈ ["TODO", "FIXME", "XXX"])
    (hpre : pre.getLast?.any Text.isWord = false) {i : Nat}
    (hcomment : l.commentStart (pre ++ marker.toList ++ post) = some i) (hi : i < pre.length) :
    Swap (ofHazard .todoComment) l pre marker.toList (closedMarker marker).toList post where
  avoids := avoids_todo hmarker pre post
  comment := by
    have hpart : Part marker.toList ∧ Part (closedMarker marker).toList ∧ Ascii marker.toList := by
      fin_cases hmarker <;> decide
    rw [hcomment, Language.commentStart_of_before hpart.1 hpart.2.1 hpart.2.2 hcomment hi]
    exact .before hi
  last := by fin_cases hmarker <;> simp [getLast?_append] <;> rfl
  head {x v r gs} hcut htakes := by
    obtain ⟨found, hfound, rfl, -⟩ := takes_todoPattern htakes
    cases r with
    | cons c r => rfl
    | nil =>
      -- a word would reach up to the marker
      rw [hcut, append_nil, getLast?_append] at hpre
      fin_cases hfound <;> cases hpre
  call hplace := by cases hplace
  takes_ne_nil htakes := takes_ne_nil htakes

/-- **A replacement is not found again.** -/
theorem swap_of_change (hh : h ∈ rewritten) (htakes : Takes (ofHazard h).pattern pre w post [] gs)
    (hchange : Change l w w')
    (hcomment : h = .todoComment → ∃ i < pre.length, l.commentStart (pre ++ w ++ post') = some i) :
    Swap (ofHazard h) l pre w w' post' := by
  have hopens := opens_of_takes htakes
  cases hchange with
  | @secret name _ _ _ hname _ _ _ =>
    exfalso
    have hsecret : ∃ h ∉ rewritten, name ∈ openings h := by
      fin_cases hname
      · exact ⟨.hardcodedPassword, by decide, by decide⟩
      all_goals exact ⟨.hardcodedApiKey, by decide, by decide⟩
    obtain ⟨h', hh', hname⟩ := hsecret
    exact hh' (eq_of_opens hopens ⟨name, hname, by simp⟩ ▸ hh)
  | call hcode =>
    obtain rfl : h = .dangerousEval := eq_of_opens hopens ⟨"eval(", by decide, prefix_rfl⟩
    exact (recast_eval hcode).swap (avoids_eval hcode pre post') (fun hplace ↦ by cases hplace)
  | clause hb =>
    obtain rfl : h = .bareExcept := eq_of_opens hopens ⟨"except", by decide, by simp⟩
    exact (recast_except hb).swap (avoids_except pre post') (fun hplace ↦ by cases hplace)
  | command hname hb hvar hb' hc hcode =>
    obtain rfl : h = .commandInjection :=
      eq_of_opens hopens (by simpa using opens_command hname _)
    exact (recast_command hname hb hvar hb' hc hcode).swap
      (avoids_command hname hb hvar hb' hc hcode pre post') (fun hplace ↦ by cases hplace)
  | typing hb =>
    obtain rfl : h = .anyType := eq_of_opens hopens ⟨":", by decide, by simp⟩
    exact (recast_any hb).swap (avoids_any pre post') fun _ ↦ ⟨':', _, _, rfl, rfl, rfl⟩
  | @marker marker hmarker =>
    obtain rfl : h = .todoComment := eq_of_opens hopens ⟨marker, hmarker, prefix_rfl⟩
    obtain ⟨_, _, -, hpre, -⟩ := takes_todoPattern htakes
    obtain ⟨i, hi, hcomment⟩ := hcomment rfl
    exact swap_todo hmarker hpre hcomment hi

/-! ## The whole line -/

/-- What is left to do on a line: all that is found starts in one of the matches, and for markers
the comment is still in front of them. -/
structure Pending (h : Hazard) (l : Language) (ms all : List Match) (line : Line) : Prop where
  covered : (ofHazard h).Covered l ms line
  comment (htodo : h = .todoComment) {m : Match} (hm : m ∈ all) :
    ∃ i < m.whole.start, l.commentStart line = some i

theorem pending_placed (hh : h ∈ rewritten) (l : Language) (line : Line) :
    Pending h l ((ofHazard h).placed l line) ((ofHazard h).placed l line) line where
  covered := covered_placed hh l line
  comment := by
    rintro rfl m hm
    obtain ⟨hm, hallows⟩ := mem_filter.1 hm
    obtain ⟨i, hi, hle⟩ := any_le_iff.1 hallows
    refine ⟨i, lt_of_le_of_ne hle ?_, hi⟩
    rintro rfl
    obtain ⟨x, v, y, rfl, htakes, hwhole⟩ := found_of_mem_matches hm
    rw [hwhole] at hi
    have hpos := length_pos_iff.2 (takes_ne_nil (h := .todoComment) htakes)
    have hbehind : (x ++ v).length ≤ x.length := comment_of_takes_todo htakes hi le_rfl
    rw [length_append] at hbehind
    omega

theorem Pending.of_change {ms all : List Match} {m : Match}
    (hpending : Pending h l (ms ++ [m]) all (pre ++ w ++ post')) (hh : h ∈ rewritten)
    (hms : ∀ m' ∈ ms, m'.whole.stop ≤ m.whole.start) (hm : m ∈ all)
    (hwhole : m.whole = ⟨pre.length, (pre ++ w).length⟩)
    (htakes : Takes (ofHazard h).pattern pre w post [] gs) (hchange : Change l w w') :
    Pending h l ms all (pre ++ w' ++ post') := by
  have hfront (htodo : h = .todoComment) :
      ∃ i < pre.length, l.commentStart (pre ++ w ++ post') = some i := by
    simpa [hwhole] using hpending.comment htodo hm
  have hswap := swap_of_change hh htakes hchange hfront
  refine ⟨hpending.covered.of_swap hms hwhole hswap, fun htodo m' hm' ↦ ?_⟩
  obtain ⟨i, hi, hcomment⟩ := hfront htodo
  obtain ⟨i', hi', hcomment'⟩ := hpending.comment htodo hm'
  obtain rfl : i = i' := Option.some.inj (hcomment.symm.trans hcomment')
  have hshifted := hswap.comment
  rw [hcomment] at hshifted
  exact ⟨i, hi', hshifted.eq_of_before hi⟩

/-- **Nothing is left to find.** -/
theorem find?_of_line? (hh : h ∈ rewritten) (hcan : canFix h l) {line line' : Line}
    (hline : line? l h line = some line') : (ofHazard h).find? l line' = none := by
  have hconsole : h ≠ .consoleLog := by
    rintro rfl
    exact absurd hh (by decide)
  have hpending := line?_induction (P := (Pending h l · ((ofHazard h).placed l line))) hline hcan
    hconsole (pending_placed hh l line) fun hms hbefore _ hwhole htakes hchange hpending ↦
      hpending.of_change hh hbefore (hms.subset (by simp)) hwhole htakes hchange
  exact find?_of_covered hpending.covered

/-- The hazards whose fix rewrites code or takes it out. -/
def codeHazards : List Hazard :=
  [.dangerousEval, .bareExcept, .commandInjection, .consoleLog, .anyType, .todoComment]

theorem find?_of_onLine (hh : h ∈ codeHazards) {line line' : Line}
    (hfix : onLine l h line = (.fixed, line')) : (ofHazard h).find? l line' = none := by
  obtain ⟨hfind, hcan, hline⟩ := onLine_eq_fixed_iff.1 hfix
  by_cases hconsole : h = .consoleLog
  · subst hconsole
    cases hline
    by_contra hfound
    have hcode := isRemark_of_console (Option.isSome_iff_ne_none.2 hfound)
    rw [isRemark_commentOut] at hcode
    cases hcode
  · have hrewritten : h ∈ rewritten := by
      simp only [codeHazards, rewritten, mem_cons, not_mem_nil, or_false] at hh ⊢
      tauto
    exact find?_of_line? hrewritten hcan hline

/-- **A fix of code removes what it fixes.** On the new line its detector finds nothing, so the same
fix does not apply again and leaves the line as it is. -/
theorem onLines_of_fixed (hh : h ∈ codeHazards) {n : Nat} {lines lines' : List Line}
    (hfix : onLines l h n lines = (.fixed, lines')) :
    (∃ line', lines'[n - 1]? = some line' ∧ (ofHazard h).find? l line' = none) ∧
      onLines l h n lines' = (.notApplicable .patternGone, lines') := by
  obtain ⟨i, line, line', rfl, hline, hfixed, rfl⟩ := onLines_eq_fixed_iff.1 hfix
  have hfind := find?_of_onLine hh hfixed
  have hnew : (lines.set i line')[i]? = some line' := by
    rw [List.getElem?_set_self (List.getElem?_eq_some_iff.1 hline).1]
  exact ⟨⟨line', hnew, hfind⟩, onLines_of_find?_eq_none hnew hfind⟩

/-- Two markers in the comment behind a character literal that is a quote. -/
theorem onLines_of_fixed_markers :
    onLines .rust .todoComment 1 ["let q = '\"'; // TODO then FIXME".toList] =
        (.fixed, ["let q = '\"'; // ✓ DONE then ✓ FIXED".toList]) ∧
      onLines .rust .todoComment 1 ["let q = '\"'; // ✓ DONE then ✓ FIXED".toList] =
        (.notApplicable .patternGone, ["let q = '\"'; // ✓ DONE then ✓ FIXED".toList]) := by
  have hfix : onLines .rust .todoComment 1 ["let q = '\"'; // TODO then FIXME".toList] =
      (.fixed, ["let q = '\"'; // ✓ DONE then ✓ FIXED".toList]) := by decide +kernel
  exact ⟨hfix, (onLines_of_fixed (by decide) hfix).2⟩

end Fix

end Steward
