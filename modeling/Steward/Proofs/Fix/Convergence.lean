import Steward.Proofs.Fix.Burden
import Steward.Proofs.Fix.Report
import Steward.Proofs.Ledger.Chain

/-!
# Healing comes to an end

A line's burden is the number of its alarms, where the word of debug output counts unless the line is
a comment as a whole. Every fix makes the burden of its line smaller: a replacement takes an alarm
away, and commenting a line out silences its debug output. The lines that are put in have no burden,
and writing lines out and reading them again changes nothing but a carriage return at their end. So
the burden of a text goes down with each pass that fixes something.
-/

namespace Steward

open Text (Line Apart Blanks Token tokens tokens_append)
open List

namespace Fix

open Detector

variable {l : Language} {line line' : Line} {b rest newline : List Char} {c x : Char} {h : Hazard}
  {lines : List Line}

/-! ## Replacements -/

/-- The characters that end a line, and the one that no text has. -/
def controls : List Char := ['\n', '\r', '\x00']

namespace Change

variable {w w' : List Char}

/-- Where no word ended before the replacement, none ends after it. -/
theorem isWord_getLast (hw : Change l w w') (hw' : w'.getLast?.any Text.isWord) :
    w.getLast?.any Text.isWord := by
  cases hw with
  | secret hname hsign hliteral hcode =>
    obtain ⟨q, hq, hcode⟩ := envLookup?_cases hcode
    have hend : ∃ c, q.2.toList.getLast? = some c ∧ Text.isWord c = false := by
      cases l <;> cases hq <;> exact ⟨_, rfl, by decide⟩
    obtain ⟨c, hlast, hc⟩ := hend
    rw [hcode, getLast?_append, getLast?_append, hlast] at hw'
    simp [hc] at hw'
  | call hcode => cases l <;> cases hcode <;> cases hw'
  | clause => cases hw'
  | command _ _ _ _ hc =>
    rw [← append_assoc, getLast?_concat] at hw'
    rcases hc with rfl | rfl <;> cases hw'
  | typing =>
    rw [getLast?_append]
    rfl
  | marker hmarker => fin_cases hmarker <;> rfl

theorem control_notMem {x : Char} (hx : x ∈ controls) (hw : Change l w w') (h : x ∉ w) : x ∉ w' := by
  cases hw with
  | @secret name _ _ _ hname _ _ hcode =>
    obtain ⟨q, hq, hcode⟩ := envLookup?_cases hcode
    have henv : x ∉ (envName name).toList := by
      fin_cases hname <;> fin_cases hx <;> decide
    have haround : x ∉ q.1.toList ∧ x ∉ q.2.toList := by
      cases l <;> cases hq <;> fin_cases hx <;> exact ⟨by decide, by decide⟩
    rw [mem_append, not_or] at h ⊢
    refine ⟨h.1, ?_⟩
    rw [hcode]
    simp [haround, henv]
  | call hcode => cases l <;> cases hcode <;> fin_cases hx <;> decide
  | clause => fin_cases hx <;> decide
  | command _ _ _ _ _ hcode =>
    obtain ⟨q, hq, hcode⟩ := shellQuote?_cases hcode
    have haround : x ∉ q.1.toList ∧ x ∉ q.2.toList := by
      cases l <;> cases hq <;> fin_cases hx <;> exact ⟨by decide, by decide⟩
    simp only [mem_append, not_or] at h ⊢
    refine ⟨⟨h.1.1, ?_⟩, h.2⟩
    rw [hcode]
    simp [haround, h.1.2]
  | typing => fin_cases hx <;> decide
  | marker hmarker => fin_cases hmarker <;> fin_cases hx <;> decide

/-- A replacement and what it replaces start with no space, and with nothing that could start a
comment or keep one from starting. -/
theorem heads (hw : Change l w w') : ∃ x xs y ys, w = x :: xs ∧ w' = y :: ys ∧
    Text.isBlank x = false ∧ x ∉ ['#', '/'] ∧ y ∉ ['/', '['] := by
  cases hw with
  | secret hname => fin_cases hname <;> exact ⟨_, _, _, _, rfl, rfl, by decide, by decide, by decide⟩
  | call hcode =>
    cases l <;> cases hcode <;> exact ⟨_, _, _, _, rfl, rfl, by decide, by decide, by decide⟩
  | clause => exact ⟨_, _, _, _, rfl, rfl, by decide, by decide, by decide⟩
  | command hname => fin_cases hname <;> exact ⟨_, _, _, _, rfl, rfl, by decide, by decide, by decide⟩
  | typing => exact ⟨_, _, _, _, rfl, rfl, by decide, by decide, by decide⟩
  | marker hmarker =>
    fin_cases hmarker <;> exact ⟨_, _, _, _, rfl, rfl, by decide, by decide, by decide⟩

end Change

theorem tokens_between {pre w post : List Char} (hw : w ≠ []) (hpre : Apart pre w)
    (hpost : Apart w post) : tokens (pre ++ w ++ post) = tokens pre ++ (tokens w ++ tokens post) := by
  have hpre' : Apart pre (w ++ post) := by
    obtain ⟨x, xs, rfl⟩ := exists_cons_of_ne_nil hw
    exact hpre
  rw [append_assoc, tokens_append hpre', tokens_append hpost]

theorem alarms_lt_of_changed (h : Changed l line line') (debug : Bool) :
    alarms debug (tokens line') < alarms debug (tokens line) := by
  obtain ⟨pre, w, w', post, rfl, rfl, hpre, hpost, hw⟩ := h
  obtain ⟨x, xs, y, ys, hx, hy, -⟩ := hw.heads
  have hpre' : Apart pre w' := fun hlast hhead ↦ hpre hlast (hw.isWord_head hhead)
  have hpost' : Apart w' post := fun hlast hhead ↦ hpost (hw.isWord_getLast hlast) hhead
  obtain ⟨hmilder, hlt⟩ := relief_of_change hw debug (tokens post)
  have hle := hmilder.alarms_append debug (tokens pre)
  rw [tokens_between (by simp [hx]) hpre hpost, tokens_between (by simp [hy]) hpre' hpost']
  omega

/-! ## Lines that are comments -/

/-- Whether the first thing on a line is the start of a comment. -/
def isRemark (l : Language) (line : Line) : Bool :=
  (Text.trimStart line).head?.any fun c => l.opensComment c (Text.trimStart line).tail

theorem isRemark_append (hb : Blanks b) (hc : Text.isBlank c = false) :
    isRemark l (b ++ c :: rest) = l.opensComment c rest := by
  have htrim : Text.trimStart (b ++ c :: rest) = c :: rest := by
    rw [Text.trimStart, dropWhile_append_of_pos hb, dropWhile_cons_of_neg (by simp [hc])]
  rw [isRemark, htrim]
  rfl

theorem isRemark_of_blanks (hb : Blanks b) : isRemark l b = false := by
  have htrim : Text.trimStart b = [] := dropWhile_eq_nil_iff.2 hb
  rw [isRemark, htrim]
  rfl

/-- A line is blank or has a first character that is not. -/
theorem blanks_or_append (line : Line) :
    Blanks line ∨ ∃ b c rest, line = b ++ c :: rest ∧ Blanks b ∧ Text.isBlank c = false := by
  have hline : line.takeWhile Text.isBlank ++ Text.trimStart line = line :=
    takeWhile_append_dropWhile
  have hblanks : Blanks (line.takeWhile Text.isBlank) := fun c hc ↦ mem_takeWhile_imp hc
  cases htrim : Text.trimStart line with
  | nil => exact .inl (dropWhile_eq_nil_iff.1 htrim)
  | cons c rest =>
    have hc := head?_dropWhile_not Text.isBlank line
    rw [← Text.trimStart, htrim] at hc
    rw [htrim] at hline
    exact .inr ⟨_, c, rest, hline.symm, hblanks, by simpa using hc⟩

theorem isRemark_iff : isRemark l line ↔
    ∃ b c rest, line = b ++ c :: rest ∧ Blanks b ∧ Text.isBlank c = false ∧ l.opensComment c rest := by
  constructor
  · intro h
    obtain hb | ⟨b, c, rest, rfl, hb, hc⟩ := blanks_or_append line
    · simp [isRemark_of_blanks hb] at h
    · rw [isRemark_append hb hc] at h
      exact ⟨b, c, rest, rfl, hb, hc, h⟩
  · rintro ⟨b, c, rest, rfl, hb, hc, h⟩
    rwa [isRemark_append hb hc]

/-- What starts a comment is a mark of one of two kinds. -/
theorem mark_of_opensComment (h : l.opensComment c rest) :
    c = '#' ∨ c = '/' ∧ rest.head? = some '/' := by
  simp only [Language.opensComment, Bool.or_eq_true, Bool.and_eq_true, decide_eq_true_eq] at h
  rcases h with h | h
  · exact .inl h.1.1
  · exact .inr ⟨h.1.1, h.2⟩

/-- Whether a comment starts depends on one more character only. -/
theorem opensComment_of_head? {c : Char} {rest rest' : List Char} (h : l.opensComment c rest)
    (hslash : rest.head? = some '/' → rest'.head? = some '/')
    (hbracket : rest'.head? = some '[' → rest.head? = some '[') : l.opensComment c rest' := by
  simp only [Language.opensComment, Bool.or_eq_true, Bool.and_eq_true, Bool.not_eq_true',
    decide_eq_true_eq, Bool.and_eq_false_iff, decide_eq_false_iff_not] at h ⊢
  rcases h with ⟨h, hphp⟩ | ⟨h, hnext⟩
  · exact .inl ⟨h, hphp.imp_right fun hne hhead ↦ hne (hbracket hhead)⟩
  · exact .inr ⟨h, hslash hnext⟩

theorem isRemark_of_changed (h : Changed l line line') (hremark : isRemark l line) :
    isRemark l line' := by
  obtain ⟨pre, w, w', post, rfl, rfl, -, -, hw⟩ := h
  obtain ⟨x, xs, y, ys, rfl, rfl, hblank, hx, hy⟩ := hw.heads
  obtain ⟨b, c, rest, hline, hb, hc, hopens⟩ := isRemark_iff.1 hremark
  have hxc : x ≠ c := by
    rintro rfl
    rcases mark_of_opensComment hopens with rfl | ⟨rfl, -⟩ <;> simp at hx
  rw [append_assoc, append_eq_append_iff] at hline
  obtain ⟨_ | ⟨a, as⟩, rfl, hline⟩ | ⟨_ | ⟨d, ds⟩, rfl, hline⟩ := hline
  · exact absurd (List.cons.inj hline).1 hxc
  · -- the part that is replaced would start with space
    rw [cons_append, cons_append] at hline
    rw [(List.cons.inj hline).1, hb a (by simp)] at hblank
    cases hblank
  · exact absurd (List.cons.inj hline).1.symm hxc
  · obtain ⟨rfl, rfl⟩ := List.cons.inj hline
    have htext : b ++ c :: ds ++ (y :: ys) ++ post = b ++ c :: (ds ++ (y :: ys ++ post)) := by simp
    rw [htext, isRemark_append hb hc]
    cases ds with
    | nil =>
      simp only [mem_cons, not_mem_nil, or_false, not_or] at hx hy
      exact opensComment_of_head? hopens (fun h ↦ absurd (Option.some.inj h) hx.2)
        fun h ↦ absurd (Option.some.inj h) hy.2
    | cons d ds => exact opensComment_of_head? hopens id id

theorem commentFrom_of_blanks (hb : Blanks b) (hopens : l.opensComment c rest) (index : Nat) :
    l.commentFrom index (.code 0) (b ++ c :: rest) = some (index + b.length) := by
  have hquotes : ∀ q ∈ l.commentSyntax.quotes, q ∈ ['"', '\'', '\x60'] := by
    cases l <;> simp [Language.commentSyntax]
  induction b generalizing index with
  | nil =>
    have hc : c = '#' ∨ c = '/' := (mark_of_opensComment hopens).imp_right And.left
    have hquote : c ∉ l.commentSyntax.quotes := by
      intro hmem
      rcases hc with rfl | rfl <;> exact absurd (hquotes _ hmem) (by decide)
    have hchar : c ≠ '\'' := by
      rcases hc with rfl | rfl <;> decide
    simp [Language.commentFrom, hchar, hquote, hopens]
  | cons x b ih =>
    have hx : Text.isBlank x := hb x (by simp)
    have hquote : x ∉ l.commentSyntax.quotes := by
      intro hmem
      have hmem := hquotes _ hmem
      fin_cases hmem <;> cases hx
    have hchar : x ≠ '\'' := by
      rintro rfl
      cases hx
    have hopens' : l.opensComment x (b ++ c :: rest) = false := by
      refine eq_false_of_ne_true fun h ↦ ?_
      rcases mark_of_opensComment h with rfl | ⟨rfl, -⟩ <;> cases hx
    simp [Language.commentFrom, hchar, hquote, hopens', ih fun y hy ↦ hb y (by simp [hy])]
    omega

/-- The word of debug output that is found stands in no comment. -/
theorem isRemark_of_console (h : ((ofHazard .consoleLog).find? l line).isSome) :
    isRemark l line = false := by
  refine eq_false_of_ne_true fun hremark ↦ ?_
  obtain ⟨m, hm⟩ := Option.isSome_iff_exists.1 h
  obtain ⟨hmatch, hallows⟩ := mem_filter.1 (mem_of_mem_head? hm)
  obtain ⟨pre, w, post, hline, htakes, hwhole⟩ := Pattern.found_of_mem_matches hmatch
  obtain ⟨rfl, -⟩ := takes_consolePattern htakes
  obtain ⟨b, c, rest, hline', hb, -, hopens⟩ := isRemark_iff.1 hremark
  have hstart : l.commentStart line = some b.length := by
    rw [hline', Language.commentStart, commentFrom_of_blanks hb hopens, Nat.zero_add]
  have hlt : pre.length < b.length := by
    simpa [ofHazard, table, Placement.allows, hstart, hwhole] using hallows
  have hmem : (line)[pre.length]? = some 'c' := by
    rw [hline, append_assoc, getElem?_append_right (le_refl _)]
    simp
  rw [hline', getElem?_append_left hlt] at hmem
  exact absurd (hb 'c' (mem_of_getElem? hmem)) (by decide)

theorem isRemark_commentOut (line : Line) : isRemark l (commentOut l line) := by
  have hmark : ∃ c cs, l.lineComment.toList = c :: cs ∧ Text.isBlank c = false ∧
      ∀ rest, l.opensComment c (cs ++ ' ' :: rest) := by
    cases l <;> exact ⟨_, _, rfl, by decide, fun _ ↦ rfl⟩
  obtain ⟨c, cs, hcs, hc, hopens⟩ := hmark
  have htext : commentOut l line =
      line.takeWhile Text.isBlank ++ c :: (cs ++ ' ' :: Text.trimStart line) := by
    simp [commentOut, hcs]
  rw [htext, isRemark_append (fun c hc ↦ mem_takeWhile_imp hc) hc]
  exact hopens _

theorem tokens_commentOut (line : Line) :
    ∃ ts, tokens (commentOut l line) = ts ++ tokens line ∧ ∀ t ∈ ts, quiet t := by
  have hblanks : Blanks (line.takeWhile Text.isBlank) := fun c hc ↦ mem_takeWhile_imp hc
  have hspace : Blanks [' '] := by simp [Blanks, Text.isBlank]
  refine ⟨tokens l.lineComment.toList, ?_, by cases l <;> decide⟩
  have hline : tokens line = tokens (Text.trimStart line) := by
    conv_lhs => rw [← takeWhile_append_dropWhile (p := Text.isBlank) (l := line)]
    exact tokens_blanks_append hblanks _
  rw [commentOut, append_assoc, append_assoc, tokens_blanks_append hblanks,
    tokens_append (Text.apart_of_head rfl), tokens_blanks_append hspace, hline]

/-! ## The burden of a line -/

/-- How much there is left to fix on a line, at most. -/
def burden (l : Language) (line : Line) : Nat := alarms (!isRemark l line) (tokens line)

theorem alarm_of_not_debug {ts : List Token} (h : alarm false ts) : alarm true ts := by
  cases ts with
  | nil => cases h
  | cons t ts =>
    simp only [alarm, Bool.or_eq_true, Bool.false_and, Bool.false_eq_true, or_false,
      Bool.true_and] at h ⊢
    exact h.imp_left (Or.imp_left (Or.imp_left .inl))

theorem alarms_le_debug (ts : List Token) : alarms false ts ≤ alarms true ts := by
  induction ts with
  | nil => exact le_refl _
  | cons t ts ih =>
    exact Nat.add_le_add (Bool.toNat_le_toNat (Bool.le_iff_imp.2 alarm_of_not_debug)) ih

theorem alarms_lt_debug {ts : List Token} (h : "console".toList ∈ ts) :
    alarms false ts < alarms true ts := by
  induction ts with
  | nil => cases h
  | cons t ts ih =>
    rcases mem_cons.1 h with rfl | h
    · have hquiet : alarm false ("console".toList :: ts) = false := rfl
      have hloud : alarm true ("console".toList :: ts) = true := rfl
      rw [alarms, alarms, hquiet, hloud]
      exact Nat.add_lt_add_of_lt_of_le Nat.one_pos (alarms_le_debug ts)
    · exact Nat.add_lt_add_of_le_of_lt
        (Bool.toNat_le_toNat (Bool.le_iff_imp.2 alarm_of_not_debug)) (ih h)

theorem burden_lt_of_changed (h : Changed l line line') : burden l line' < burden l line := by
  have hlt := alarms_lt_of_changed h (!isRemark l line)
  have hle : burden l line' ≤ alarms (!isRemark l line) (tokens line') := by
    rw [burden]
    cases hremark : isRemark l line with
    | true => rw [isRemark_of_changed h hremark]
    | false =>
      cases isRemark l line'
      · exact le_refl _
      · exact alarms_le_debug _
  exact hle.trans_lt hlt

theorem burden_lt_of_transGen (h : Relation.TransGen (Changed l) line line') :
    burden l line' < burden l line := by
  induction h with
  | single h => exact burden_lt_of_changed h
  | tail _ h ih => exact (burden_lt_of_changed h).trans ih

theorem burden_commentOut_lt (h : ((ofHazard .consoleLog).find? l line).isSome) :
    burden l (commentOut l line) < burden l line := by
  obtain ⟨m, hm⟩ := Option.isSome_iff_exists.1 h
  have hmem : m ∈ (ofHazard .consoleLog).placed l line := mem_of_mem_head? hm
  obtain ⟨pre, w, post, hline, htakes, -⟩ :=
    Pattern.found_of_mem_matches (mem_of_mem_filter hmem)
  obtain ⟨rfl, hpre⟩ := takes_consolePattern htakes
  have hconsole : "console".toList ∈ tokens line := by
    have hw : "console".toList ∈ tokens "console.log(".toList := by decide
    rw [hline, tokens_between (by decide) (Text.apart_of_last hpre) (Text.apart_of_last rfl)]
    simp only [mem_append]
    exact .inr (.inl hw)
  obtain ⟨ts, hts, hquiet⟩ := tokens_commentOut (l := l) line
  rw [burden, burden, isRemark_commentOut, isRemark_of_console h, hts, alarms_of_quiet hquiet]
  exact alarms_lt_debug hconsole

/-- What a fixed line comes from: its debug output is commented out, or parts of it are replaced. -/
theorem fixed_cases (hfix : onLine l h line = (.fixed, line')) :
    ((ofHazard .consoleLog).find? l line).isSome ∧ line' = commentOut l line ∨
      Relation.TransGen (Changed l) line line' := by
  obtain ⟨hfind, hcan, hline⟩ := onLine_eq_fixed_iff.1 hfix
  obtain ⟨line'', hline'', hsteps⟩ := line?_of_find? hcan hfind
  obtain rfl := Option.some.inj (hline.symm.trans hline'')
  by_cases hconsole : h = .consoleLog
  · subst hconsole
    exact .inl ⟨hfind, (Option.some.inj hline).symm⟩
  · exact .inr (hsteps hconsole)

/-- Every fix makes the burden of its line smaller. -/
theorem burden_lt_of_fixed (hfix : onLine l h line = (.fixed, line')) :
    burden l line' < burden l line := by
  obtain ⟨hfind, rfl⟩ | hsteps := fixed_cases hfix
  · exact burden_commentOut_lt hfind
  · exact burden_lt_of_transGen hsteps

theorem control_notMem_of_changed (hx : x ∈ controls) (h : Changed l line line')
    (hline : x ∉ line) : x ∉ line' := by
  obtain ⟨pre, w, w', post, rfl, rfl, -, -, hw⟩ := h
  simp only [mem_append, not_or] at hline ⊢
  exact ⟨⟨hline.1.1, hw.control_notMem hx hline.1.2⟩, hline.2⟩

theorem control_notMem_of_transGen (hx : x ∈ controls)
    (h : Relation.TransGen (Changed l) line line') (hline : x ∉ line) : x ∉ line' := by
  induction h with
  | single h => exact control_notMem_of_changed hx h hline
  | tail _ h ih => exact control_notMem_of_changed hx h ih

/-- No fix brings a break into its line. -/
theorem control_notMem_of_fixed (hx : x ∈ controls) (hfix : onLine l h line = (.fixed, line'))
    (hline : x ∉ line) : x ∉ line' := by
  obtain ⟨-, rfl⟩ | hsteps := fixed_cases hfix
  · have hmark : x ∉ l.lineComment.toList ++ [' '] := by
      cases l <;> fin_cases hx <;> decide
    rw [commentOut, Text.trimStart]
    simp only [mem_append, not_or] at hmark ⊢
    exact ⟨⟨⟨fun h ↦ hline ((takeWhile_sublist _).subset h), hmark.1⟩, hmark.2⟩,
      fun h ↦ hline ((dropWhile_sublist _).subset h)⟩
  · exact control_notMem_of_transGen hx hsteps hline

/-! ## Writing lines out and reading them again -/

/-- How much there is left to fix on some lines, at most. -/
def totalBurden (l : Language) (lines : List Line) : Nat := (lines.map (burden l)).sum

theorem totalBurden_append (l : Language) (xs ys : List Line) :
    totalBurden l (xs ++ ys) = totalBurden l xs + totalBurden l ys := by
  rw [totalBurden, map_append, sum_append]
  rfl

theorem isRemark_append_return (x : Line) : isRemark l (x ++ ['\r']) = isRemark l x := by
  obtain hb | ⟨b, c, rest, rfl, hb, hc⟩ := blanks_or_append x
  · have hb' : Blanks (x ++ ['\r']) := forall_mem_append.2 ⟨hb, by simp [Text.isBlank]⟩
    rw [isRemark_of_blanks hb, isRemark_of_blanks hb']
  · rw [append_assoc, cons_append, isRemark_append hb hc, isRemark_append hb hc]
    cases rest with
    | nil => simp [Language.opensComment]
    | cons d rest => rfl

theorem burden_append_return (x : Line) : burden l (x ++ ['\r']) = burden l x := by
  have hreturn : Blanks ['\r'] := by simp [Blanks, Text.isBlank]
  rw [burden, burden, isRemark_append_return, tokens_append_blanks hreturn]

theorem newline_notMem_of_mem_linesFrom {done : List Line} {current text : List Char}
    (hdone : ∀ line ∈ done, '\n' ∉ line) (hcurrent : '\n' ∉ current) :
    ∀ line ∈ Text.linesFrom done current text, '\n' ∉ line := by
  induction text generalizing done current with
  | nil =>
    have hlast : ∀ line ∈ current.reverse :: done, '\n' ∉ line :=
      forall_mem_cons.2 ⟨by simpa using hcurrent, hdone⟩
    rw [Text.linesFrom]
    split_ifs
    · exact fun line h ↦ hdone line (mem_reverse.1 h)
    · exact fun line h ↦ hlast line (mem_reverse.1 h)
  | cons c cs ih =>
    rw [Text.linesFrom]
    split_ifs with hc
    · refine ih (forall_mem_cons.2 ⟨fun hmem ↦ hcurrent ?_, hdone⟩) (by simp)
      rw [← mem_reverse]
      rcases Text.endLine_cases current with h | h
      · rwa [← h]
      · rw [h]
        exact mem_append_left _ hmem
    · exact ih hdone (by simp [hcurrent, Ne.symm hc])

theorem newline_notMem_of_mem_lines {text : List Char} (h : line ∈ Text.lines text) : '\n' ∉ line :=
  newline_notMem_of_mem_linesFrom (by simp) (by simp) line h

/-- What is read of a line that was written out with either line break. -/
theorem totalBurden_lines_append (hnewline : newline = ['\n'] ∨ newline = ['\r', '\n'])
    (hline : '\n' ∉ line) (rest : List Char) :
    totalBurden l (Text.lines (line ++ (newline ++ rest))) =
      burden l line + totalBurden l (Text.lines rest) := by
  have hburden (current : List Char) : burden l (Text.endLine current) = burden l current.reverse := by
    rcases Text.endLine_cases current with h | h
    · rw [h]
    · rw [h, burden_append_return]
  rw [Text.lines, Text.linesFrom_of_newline_notMem hline, append_nil]
  rcases hnewline with rfl | rfl
  · rw [singleton_append, Text.linesFrom_newline, totalBurden, map_cons, sum_cons,
      hburden, reverse_reverse]
    rfl
  · rw [cons_append, singleton_append, Text.linesFrom, if_neg (by decide),
      Text.linesFrom_newline, totalBurden, map_cons, sum_cons, hburden, reverse_cons,
      reverse_reverse, burden_append_return]
    rfl

theorem totalBurden_lines_last (hnewline : newline = ['\n'] ∨ newline = ['\r', '\n'])
    (trailing : Bool) (hline : '\n' ∉ line) :
    totalBurden l (Text.lines (line ++ if trailing then newline else [])) ≤ burden l line := by
  cases trailing with
  | true =>
    have hread := totalBurden_lines_append (l := l) hnewline hline []
    rw [append_nil] at hread
    exact hread.le
  | false =>
    have hread := Text.linesFrom_of_newline_notMem hline [] []
    rw [if_neg (by decide), Text.lines, hread, append_nil, Text.linesFrom]
    split_ifs
    · exact Nat.zero_le _
    · simp [totalBurden]

/-- Writing lines out and reading them again adds nothing. -/
theorem totalBurden_lines_joinLines (hnewline : newline = ['\n'] ∨ newline = ['\r', '\n'])
    (trailing : Bool) (hlines : ∀ line ∈ lines, '\n' ∉ line) :
    totalBurden l (Text.lines (joinLines newline trailing lines)) ≤ totalBurden l lines := by
  induction lines with
  | nil => exact totalBurden_lines_last hnewline trailing not_mem_nil
  | cons line lines ih =>
    obtain ⟨hline, hlines⟩ := forall_mem_cons.1 hlines
    cases lines with
    | nil => simpa [joinLines, totalBurden] using totalBurden_lines_last hnewline trailing hline
    | cons next lines =>
      have hjoin : joinLines newline trailing (line :: next :: lines) =
          line ++ (newline ++ joinLines newline trailing (next :: lines)) := by
        simp [joinLines]
      rw [hjoin, totalBurden_lines_append hnewline hline]
      exact Nat.add_le_add_left (ih hlines) _

/-! ## Preambles -/

/-- Putting preambles in adds some of their lines, and changes no other one. -/
theorem perm_insertAll (l : Language) (ps : List Preamble) (lines : List Line) :
    ∃ added, (Preamble.insertAll l ps lines).Perm (added ++ lines) ∧
      ∀ line ∈ added, ∃ q ∈ ps, line = q.line.toList := by
  rw [Preamble.insertAll]
  generalize Preamble.anchor l lines = i
  induction ps with
  | nil => exact ⟨[], .refl _, by simp⟩
  | cons q ps ih =>
    obtain ⟨added, hperm, hadded⟩ := ih
    have hadded' : ∀ line ∈ added, ∃ q' ∈ q :: ps, line = q'.line.toList := fun line hline ↦ by
      obtain ⟨q', hq', hline⟩ := hadded line hline
      exact ⟨q', mem_cons_of_mem q hq', hline⟩
    rw [foldr_cons]
    split_ifs
    · exact ⟨added, hperm, hadded'⟩
    · generalize ps.foldr _ lines = ls at hperm ⊢
      by_cases hi : i ≤ ls.length
      · refine ⟨q.line.toList :: added, ?_, forall_mem_cons.2 ⟨⟨q, by simp, rfl⟩, hadded'⟩⟩
        exact (perm_insertIdx _ _ hi).trans (hperm.cons _)
      · rw [insertIdx_of_length_lt (by omega)]
        exact ⟨added, hperm, hadded'⟩

/-- The lines that replacements depend on are in order themselves. -/
theorem burden_of_needed {q : Preamble} (hq : Pass.Needed l q) : burden l q.line.toList = 0 := by
  obtain ⟨h, hq⟩ := hq
  cases h <;> cases l <;> cases hq <;> decide

theorem control_notMem_of_needed (hx : x ∈ controls) {q : Preamble} (hq : Pass.Needed l q) :
    x ∉ q.line.toList := by
  obtain ⟨h, hq⟩ := hq
  cases h <;> cases l <;> cases hq <;> fin_cases hx <;> decide

/-! ## Passes -/

/-- One pass of healing over the text of a file. -/
def healPass (file : String) (limit : Nat) (source : List Char) : List Char :=
  (text (Language.ofPath ⟨file⟩) ((Violation.ofText file limit source).filter (·.fixable)) source).2.getD
    source

variable {file : String} {limit : Nat} {source : List Char}

/-- A pass changes the text only if there is something to fix. -/
theorem healPass_cases (file : String) (limit : Nat) (source : List Char) :
    (∀ v ∈ Violation.ofText file limit source, v.fixable = false) ∧
        healPass file limit source = source ∨
      (∃ v ∈ Violation.ofText file limit source, v.fixable) ∧
        (text (Language.ofPath ⟨file⟩) ((Violation.ofText file limit source).filter (·.fixable))
          source).2 = some (healPass file limit source) := by
  have hhealed : Healed (Language.ofPath ⟨file⟩)
      ((Violation.ofText file limit source).filter (·.fixable)) source :=
    healed_of_sublist filter_sublist
  rw [healPass, hhealed.text_eq, any_filter]
  simp only [Bool.and_self]
  cases hany : (Violation.ofText file limit source).any (·.fixable) with
  | true => exact .inr ⟨any_eq_true.1 hany, rfl⟩
  | false => exact .inl ⟨by simpa using hany, rfl⟩

theorem totalBurden_insertAll {ps : List Preamble} (hps : ∀ q ∈ ps, Pass.Needed l q)
    (hlines : ∀ line ∈ lines, '\n' ∉ line) :
    totalBurden l (Preamble.insertAll l ps lines) = totalBurden l lines ∧
      ∀ line ∈ Preamble.insertAll l ps lines, '\n' ∉ line := by
  obtain ⟨added, hperm, hadded⟩ := perm_insertAll l ps lines
  have hnew : ∀ line ∈ added, burden l line = 0 ∧ '\n' ∉ line := by
    intro line hline
    obtain ⟨q, hq, rfl⟩ := hadded line hline
    exact ⟨burden_of_needed (hps q hq), control_notMem_of_needed (by decide) (hps q hq)⟩
  constructor
  · have hzero : totalBurden l added = 0 := by
      rw [totalBurden, sum_eq_zero_iff]
      rintro _ hn
      obtain ⟨line, hline, rfl⟩ := mem_map.1 hn
      exact (hnew line hline).1
    rw [totalBurden, (hperm.map (burden l)).sum_eq]
    exact (totalBurden_append l added lines).trans (by rw [hzero, Nat.zero_add])
  · intro line hline
    rcases mem_append.1 (hperm.mem_iff.1 hline) with hline | hline
    · exact (hnew line hline).2
    · exact hlines line hline

/-- The lines of a pass weigh no more than `base`, and less once something was fixed. -/
structure Lightened (l : Language) (base : Nat) (p : Pass) : Prop where
  newline : ∀ line ∈ p.lines, '\n' ∉ line
  le : totalBurden l p.lines ≤ base
  lt : p.fixes.any (·.outcome.isFixed) → totalBurden l p.lines < base

theorem totalBurden_set_lt {i : Nat} (hline : lines[i]? = some line)
    (hlt : burden l line' < burden l line) :
    totalBurden l (lines.set i line') < totalBurden l lines := by
  obtain ⟨hi, rfl⟩ := List.getElem?_eq_some_iff.1 hline
  have hcons (x : Line) (xs : List Line) : totalBurden l (x :: xs) = burden l x + totalBurden l xs := by
    simp [totalBurden]
  calc totalBurden l (lines.set i line')
      = totalBurden l (lines.take i) + (burden l line' + totalBurden l (lines.drop (i + 1))) := by
        rw [set_eq_take_append_cons_drop, if_pos hi, totalBurden_append, hcons]
    _ < totalBurden l (lines.take i) + (burden l lines[i] + totalBurden l (lines.drop (i + 1))) := by
        omega
    _ = totalBurden l lines := by
        rw [← hcons, getElem_cons_drop, ← totalBurden_append, take_append_drop]

/-- What a violation comes to: it is not fixed and no line changes, or its line is. -/
theorem Pass.step_cases (l : Language) (p : Pass) (v : Violation) :
    (onLines l v.hazard v.line p.lines).1.isFixed = false ∧ (p.step l v).lines = p.lines ∨
      (onLines l v.hazard v.line p.lines).1.isFixed ∧ ∃ i line line', v.line = i + 1 ∧
        p.lines[i]? = some line ∧ onLine l v.hazard line = (.fixed, line') ∧
        (p.step l v).lines = p.lines.set i line' := by
  have hlines : (p.step l v).lines = (onLines l v.hazard v.line p.lines).2 := rfl
  cases hfix : (onLines l v.hazard v.line p.lines).1.isFixed with
  | false => exact .inl ⟨rfl, hlines.trans (onLines_of_not_fixed hfix)⟩
  | true =>
    have houtcome : (onLines l v.hazard v.line p.lines).1 = .fixed := by
      revert hfix
      cases (onLines l v.hazard v.line p.lines).1 <;> simp [Outcome.isFixed]
    obtain ⟨i, line, line', hi, hline, hfixed, hset⟩ :=
      onLines_eq_fixed_iff.1 (Prod.ext houtcome rfl)
    exact .inr ⟨rfl, i, line, line', hi, hline, hfixed, hlines.trans hset⟩

theorem Lightened.step {base : Nat} {p : Pass} (hp : Lightened l base p) (v : Violation) :
    Lightened l base (p.step l v) := by
  have hfixes : (p.step l v).fixes =
      p.fixes ++ [⟨v.hazard, v.line, (onLines l v.hazard v.line p.lines).1⟩] := rfl
  obtain ⟨hfix, hlines⟩ | ⟨-, i, line, line', -, hline, hfixed, hlines⟩ := Pass.step_cases l p v
  · refine ⟨hlines ▸ hp.newline, hlines ▸ hp.le, fun hany ↦ ?_⟩
    rw [hlines]
    refine hp.lt ?_
    simpa [hfixes, hfix] using hany
  · have hlt := totalBurden_set_lt hline (burden_lt_of_fixed hfixed)
    rw [← hlines] at hlt
    refine ⟨fun x hx ↦ ?_, (hlt.trans_le hp.le).le, fun _ ↦ hlt.trans_le hp.le⟩
    rw [hlines] at hx
    rcases mem_or_eq_of_mem_set hx with hx | rfl
    · exact hp.newline x hx
    · exact control_notMem_of_fixed (by decide) hfixed (hp.newline line (mem_of_getElem? hline))

theorem Lightened.foldl_step {base : Nat} (vs : List Violation) {p : Pass}
    (hp : Lightened l base p) : Lightened l base (vs.foldl (Pass.step l) p) := by
  induction vs generalizing p with
  | nil => exact hp
  | cons v vs ih => exact ih (hp.step v)

/-- A text that was fixed weighs less than before. -/
theorem totalBurden_text_lt {vs : List Violation} {new : List Char}
    (hnew : (text l vs source).2 = some new) :
    totalBurden l (Text.lines new) < totalBurden l (Text.lines source) := by
  have hnewline : newlineOf source = ['\n'] ∨ newlineOf source = ['\r', '\n'] := by
    rw [newlineOf]
    split_ifs
    · exact .inr rfl
    · exact .inl rfl
  have hstart : Lightened l (totalBurden l (Text.lines source)) { lines := Text.lines source } :=
    ⟨fun _ ↦ newline_notMem_of_mem_lines, le_refl _, by simp⟩
  have hpass := hstart.foldl_step (ordered vs)
  have hneeded : ∀ q ∈ ((ordered vs).foldl (Pass.step l) { lines := Text.lines source }).preambles,
      Pass.Needed l q := Pass.needed_foldl_step _ (by simp)
  rw [text] at hnew
  generalize (ordered vs).foldl (Pass.step l) { lines := Text.lines source } = pass
    at hnew hpass hneeded
  split_ifs at hnew with hany
  cases hnew
  obtain ⟨htotal, hinserted⟩ := totalBurden_insertAll hneeded hpass.newline
  calc totalBurden l (Text.lines (joinLines _ _ (Preamble.insertAll l pass.preambles pass.lines)))
      ≤ totalBurden l (Preamble.insertAll l pass.preambles pass.lines) :=
        totalBurden_lines_joinLines hnewline _ hinserted
    _ = totalBurden l pass.lines := htotal
    _ < totalBurden l (Text.lines source) := hpass.lt hany

theorem totalBurden_healPass_lt (h : ∃ v ∈ Violation.ofText file limit source, v.fixable) :
    totalBurden (Language.ofPath ⟨file⟩) (Text.lines (healPass file limit source)) <
      totalBurden (Language.ofPath ⟨file⟩) (Text.lines source) := by
  obtain ⟨v, hv, hfix⟩ := h
  obtain ⟨hnone, -⟩ | ⟨-, hpass⟩ := healPass_cases file limit source
  · rw [hnone v hv] at hfix
    cases hfix
  · exact totalBurden_text_lt hpass

/-- **Healing comes to an end.** After finitely many passes over the text of a file, no more than its
burden, there is no violation left that can be fixed, and from then on nothing changes. -/
theorem healPass_iterate_settles (file : String) (limit : Nat) (source : List Char) :
    ∃ n ≤ totalBurden (Language.ofPath ⟨file⟩) (Text.lines source),
      (∀ v ∈ Violation.ofText file limit ((healPass file limit)^[n] source), v.fixable = false) ∧
        ∀ m ≥ n, (healPass file limit)^[m] source = (healPass file limit)^[n] source := by
  induction htotal : totalBurden (Language.ofPath ⟨file⟩) (Text.lines source)
    using Nat.strongRecOn generalizing source with
  | ind total ih =>
    obtain ⟨hnone, hsame⟩ | ⟨hsome, -⟩ := healPass_cases file limit source
    · exact ⟨0, Nat.zero_le _, hnone, fun m _ ↦ Function.iterate_fixed hsame m⟩
    · have hlt := totalBurden_healPass_lt hsome
      rw [htotal] at hlt
      obtain ⟨n, hn, hnone, hsame⟩ := ih _ hlt (healPass file limit source) rfl
      refine ⟨n + 1, hn.trans_lt hlt, hnone, fun m hm ↦ ?_⟩
      obtain ⟨m, rfl⟩ := Nat.exists_eq_add_of_le' hm
      exact hsame (m + n) (Nat.le_add_left n m)

end Fix

end Steward
