import Steward.Fix.Text
import Steward.Proofs.Detector

/-!
# What a fix does to a line

The edit of a match replaces the text that the match takes by one of a few others: `Fix.Change`
lists them. Where a hazard can be fixed, every match has its edit, so a line on which the hazard is
found has a fix. As a line's edits are made from its end, the parts before them are as they were
found: the fix is a series of such replacements, each of a text apart from the words beside it.
-/

namespace Steward

open Text (Line Apart Blanks)
open List

namespace Span

theorem text_between (a b c : List Char) :
    (⟨a.length, (a ++ b).length⟩ : Span).text (a ++ b ++ c) = b := by
  rw [Span.text, take_left, drop_left]

end Span

namespace Fix

open Detector Pattern

variable {l : Language}

theorem Edit.apply_between (a b c new : List Char) :
    (⟨⟨a.length, (a ++ b).length⟩, new⟩ : Edit).apply (a ++ b ++ c) = a ++ new ++ c := by
  rw [Edit.apply, drop_left, append_assoc a b c, take_left]

/-- The names under which a secret stands. -/
def secretNames : List String := ["password", "api_key", "apiKey", "secret_key", "secretKey"]

/-- The replacement of a text that a match takes. -/
inductive Change (l : Language) : List Char → List Char → Prop where
  | secret {name : String} {sign literal : List Char} {code : Snippet} (hname : name ∈ secretNames)
      (hsign : Sign sign) (hliteral : Quoted literal)
      (hcode : envLookup? l (envName name) = some code) :
      Change l (name.toList ++ sign ++ literal) (name.toList ++ sign ++ code.1.toList)
  | call {code : Snippet} (hcode : literalParser? l = some code) :
      Change l "eval(".toList code.1.toList
  | clause {b : List Char} (hb : Blanks b) :
      Change l ("except".toList ++ b ++ ":".toList) "except Exception as e:".toList
  | command {name : String} {b var b' : List Char} {c : Char} {code : Snippet}
      (hname : name ∈ ["execSync", "exec", "spawn"]) (hb : Blanks b) (hvar : Variable var)
      (hb' : Blanks b') (hc : c = ',' ∨ c = ')')
      (hcode : shellQuote? l (String.ofList var) = some code) :
      Change l (name.toList ++ '(' :: b ++ var ++ (b' ++ [c]))
        (name.toList ++ '(' :: b ++ code.1.toList ++ (b' ++ [c]))
  | typing {b : List Char} (hb : Blanks b) :
      Change l (":".toList ++ b ++ "any".toList) ": unknown".toList
  | marker {marker : String} (hmarker : marker ∈ ["TODO", "FIXME", "XXX"]) :
      Change l marker.toList (closedMarker marker).toList

/-- The replacement of one part of a line, apart from the words beside it. -/
def Changed (l : Language) (line line' : Line) : Prop :=
  ∃ pre w w' post, line = pre ++ w ++ post ∧ line' = pre ++ w' ++ post ∧
    Apart pre w ∧ Apart w post ∧ Change l w w'

theorem envLookup?_isSome (h : (envLookup? l "").isSome) (env : String) :
    ∃ code, envLookup? l env = some code := by
  cases l <;> first | exact ⟨_, rfl⟩ | cases h

theorem shellQuote?_isSome (h : (shellQuote? l "").isSome) (var : String) :
    ∃ code, shellQuote? l var = some code := by
  cases l <;> first | exact ⟨_, rfl⟩ | cases h

/-- The edit of a match replaces what the match takes, whatever comes after it by then. -/
def Replaces (l : Language) (h : Hazard) (pre w post : List Char) (gs : Groups) : Prop :=
  ∃ e w', edit? l h (pre ++ w ++ post) ⟨⟨pre.length, (pre ++ w).length⟩, gs⟩ = some e ∧
    Apart pre w ∧ Apart w post ∧ Change l w w' ∧
    ∀ post', e.apply (pre ++ w ++ post') = pre ++ w' ++ post'

variable {h : Hazard} {pre w post : List Char} {gs : Groups}

theorem replaces_secret {name : String} {sign literal : List Char} (hname : name ∈ secretNames)
    (hsign : Sign sign) (hliteral : Quoted literal) (hpre : pre.getLast?.any Text.isWord = false)
    (hcan : (envLookup? l "").isSome)
    (hedit : ∀ code, envLookup? l (envName name) = some code →
      edit? l h (pre ++ (name.toList ++ sign ++ literal) ++ post)
        ⟨⟨pre.length, (pre ++ (name.toList ++ sign ++ literal)).length⟩, gs⟩ =
      some ⟨⟨(pre ++ (name.toList ++ sign)).length,
        (pre ++ (name.toList ++ sign ++ literal)).length⟩, code.1.toList⟩) :
    Replaces l h pre (name.toList ++ sign ++ literal) post gs := by
  obtain ⟨code, hcode⟩ := envLookup?_isSome hcan (envName name)
  refine ⟨_, _, hedit code hcode, Text.apart_of_last hpre, ?_, .secret hname hsign hliteral hcode, ?_⟩
  · obtain ⟨q, body, rfl, hq⟩ := hliteral
    apply Text.apart_of_last
    rw [← append_assoc, getLast?_concat]
    rcases hq with rfl | rfl <;> rfl
  · intro post'
    simpa using Edit.apply_between (pre ++ (name.toList ++ sign)) literal post' code.1.toList

/-- An edit of all that the match takes. -/
theorem replaces_whole {w' : List Char} (hpre : Apart pre w) (hpost : Apart w post)
    (hchange : Change l w w')
    (hedit : edit? l h (pre ++ w ++ post) ⟨⟨pre.length, (pre ++ w).length⟩, gs⟩ =
      some ⟨⟨pre.length, (pre ++ w).length⟩, w'⟩) : Replaces l h pre w post gs :=
  ⟨_, w', hedit, hpre, hpost, hchange, fun post' ↦ Edit.apply_between pre w post' w'⟩

/-- Where a hazard can be fixed, each match has its edit. -/
theorem replaces_of_takes (hcan : canFix h l) (hconsole : h ≠ .consoleLog)
    (hw : Takes (ofHazard h).pattern pre w post [] gs) : Replaces l h pre w post gs := by
  cases h with
  | hardcodedPassword =>
    obtain ⟨sign, literal, rfl, hsign, hliteral, hpre, rfl⟩ := takes_passwordPattern hw
    refine replaces_secret (by decide) hsign hliteral hpre hcan fun code hcode ↦ ?_
    simp [edit?, secretEdit?, Match.group?, hcode]
  | hardcodedApiKey =>
    obtain ⟨name, hname, sign, literal, rfl, hsign, hliteral, hpre, rfl⟩ := takes_apiKeyPattern hw
    refine replaces_secret (.tail _ hname) hsign hliteral hpre hcan fun code hcode ↦ ?_
    have htext : (⟨pre.length, (pre ++ name.toList).length⟩ : Span).text
        (pre ++ (name.toList ++ sign ++ literal) ++ post) = name.toList := by
      simpa using Span.text_between pre name.toList (sign ++ literal ++ post)
    simp only [edit?, secretEdit?, Match.group?, List.lookup, Nat.reduceBEq, Option.map_some,
      Option.getD_some, htext, String.ofList_toList, hcode]
    rfl
  | awsAccessKey => cases hcan
  | dangerousEval =>
    obtain ⟨rfl, hpre⟩ := takes_evalPattern hw
    obtain ⟨code, hcode⟩ := Option.isSome_iff_exists.1 hcan
    refine replaces_whole (Text.apart_of_last hpre) (Text.apart_of_last rfl) (.call hcode) ?_
    simp [edit?, hcode]
  | bareExcept =>
    obtain ⟨b, rfl, hb, hpre⟩ := takes_exceptPattern hw
    refine replaces_whole (Text.apart_of_last hpre) (Text.apart_of_last ?_) (.clause hb) rfl
    rw [getLast?_append]
    rfl
  | commandInjection =>
    obtain ⟨name, hname, b, var, b', c, rfl, hb, hvar, hb', hc, hpre, rfl⟩ :=
      takes_commandPattern hw
    obtain ⟨code, hcode⟩ := shellQuote?_isSome hcan (String.ofList var)
    have htext : (⟨(pre ++ (name.toList ++ '(' :: b)).length,
        (pre ++ (name.toList ++ '(' :: b ++ var)).length⟩ : Span).text
        (pre ++ (name.toList ++ '(' :: b ++ var ++ (b' ++ [c])) ++ post) = var := by
      simpa using Span.text_between (pre ++ (name.toList ++ '(' :: b)) var (b' ++ [c] ++ post)
    refine ⟨⟨⟨(pre ++ (name.toList ++ '(' :: b)).length,
        (pre ++ (name.toList ++ '(' :: b ++ var)).length⟩, code.1.toList⟩, _, ?_,
      Text.apart_of_last hpre, Text.apart_of_last ?_, .command hname hb hvar hb' hc hcode,
      fun post' ↦ ?_⟩
    · simp only [edit?, Match.group?, List.lookup, Nat.reduceBEq, Option.bind_eq_bind,
        Option.bind_some, htext, hcode]
      rfl
    · rw [← append_assoc, getLast?_concat]
      rcases hc with rfl | rfl <;> rfl
    · simpa using Edit.apply_between (pre ++ (name.toList ++ '(' :: b)) var (b' ++ [c] ++ post')
        code.1.toList
  | consoleLog => exact absurd rfl hconsole
  | anyType =>
    obtain ⟨b, rfl, hb, hpost⟩ := takes_anyPattern hw
    exact replaces_whole (Text.apart_of_head rfl) (Text.apart_of_head hpost) (.typing hb) rfl
  | todoComment =>
    obtain ⟨marker, hmarker, rfl, hpre, hpost, rfl⟩ := takes_todoPattern hw
    refine replaces_whole (Text.apart_of_last hpre) (Text.apart_of_head hpost) (.marker hmarker) ?_
    simp only [edit?, Match.group?, List.lookup, Nat.reduceBEq, Option.bind_eq_bind,
      Option.bind_some, Span.text_between, String.ofList_toList]
    rfl

/-! ## All matches of a line -/

theorem edit?_of_found (hcan : canFix h l) (hconsole : h ≠ .consoleLog) {line : Line} {m : Match}
    (hm : (ofHazard h).pattern.Found line m) : ∃ e, edit? l h line m = some e := by
  obtain ⟨pre, w, post, rfl, htakes, hwhole⟩ := hm
  obtain ⟨e, -, hedit, -⟩ := replaces_of_takes hcan hconsole htakes
  rw [← hwhole] at hedit
  exact ⟨e, hedit⟩

namespace Change

variable {w' : List Char}

theorem right_ne_nil (hw : Change l w w') : w' ≠ [] := by
  cases hw with
  | secret hname => fin_cases hname <;> simp
  | call hcode => cases l <;> cases hcode <;> decide
  | clause => decide
  | command hname => fin_cases hname <;> simp
  | typing => decide
  | marker hmarker => fin_cases hmarker <;> decide

/-- Where no word started before the replacement, none starts after it. -/
theorem isWord_head (hw : Change l w w') (hw' : w'.head?.any Text.isWord) :
    w.head?.any Text.isWord := by
  cases hw with
  | secret hname => fin_cases hname <;> rfl
  | call => rfl
  | clause => rfl
  | command hname => fin_cases hname <;> rfl
  | typing => cases hw'
  | marker hmarker => fin_cases hmarker <;> rfl

end Change

theorem foldr_edits (hcan : canFix h l) (hconsole : h ≠ .consoleLog) {ms : List Match}
    {a b : List Char} (hms : ms.Pairwise fun m m' ↦ m.whole.stop ≤ m'.whole.start)
    (hfound : ∀ m ∈ ms, (ofHazard h).pattern.Found (a ++ b) m ∧ a.length ≤ m.whole.start) :
    ∃ b', (ms.filterMap (edit? l h (a ++ b))).foldr Edit.apply (a ++ b) = a ++ b' ∧
      (b'.head?.any Text.isWord → b.head?.any Text.isWord) ∧
      Relation.ReflTransGen (Changed l) (a ++ b) (a ++ b') ∧
      (ms ≠ [] → Relation.TransGen (Changed l) (a ++ b) (a ++ b')) := by
  induction ms generalizing a b with
  | nil => exact ⟨b, rfl, id, .refl, fun h ↦ absurd rfl h⟩
  | cons m ms ih =>
    obtain ⟨hm, hms⟩ := pairwise_cons.1 hms
    obtain ⟨⟨pre, w, post, hline, htakes, hwhole⟩, hle⟩ := hfound m (by simp)
    obtain ⟨e, w', hedit, hpre, hpost, hchange, happly⟩ := replaces_of_takes hcan hconsole htakes
    rw [← hwhole] at hedit
    -- the edits behind `m` leave what it takes and all before as they are
    obtain ⟨post', hfold, hhead, hsteps, -⟩ := ih (a := pre ++ w) (b := post) hms (by
      intro m' hm'
      refine ⟨hline ▸ (hfound m' (by simp [hm'])).1, ?_⟩
      simpa [hwhole] using hm m' hm')
    have hprefix : a <+: pre := by
      refine prefix_of_prefix_length_le (prefix_append a b) ?_ (by simpa [hwhole] using hle)
      rw [hline, append_assoc]
      exact prefix_append pre _
    obtain ⟨pre', rfl⟩ := hprefix
    obtain rfl : b = pre' ++ w ++ post := by simpa using hline
    have hlast : Changed l (a ++ pre' ++ w ++ post') (a ++ pre' ++ w' ++ post') :=
      ⟨_, w, w', post', rfl, rfl, hpre, fun hw hp ↦ hpost hw (hhead hp), hchange⟩
    have hall : Relation.TransGen (Changed l) (a ++ (pre' ++ w ++ post)) (a ++ (pre' ++ w' ++ post')) := by
      simpa using Relation.TransGen.tail' hsteps hlast
    refine ⟨pre' ++ w' ++ post', ?_, ?_, hall.to_reflTransGen, fun _ ↦ hall⟩
    · rw [hline, filterMap_cons_some hedit, foldr_cons, hfold, happly]
      simp
    · cases pre' with
      | nil =>
        intro hword
        obtain ⟨x, xs, rfl⟩ := exists_cons_of_ne_nil hchange.right_ne_nil
        have hw := hchange.isWord_head hword
        cases w with
        | nil => cases hw
        | cons y ys => exact hw
      | cons x pre' => exact id

theorem line?_of_edits {line : Line} (haws : h ≠ .awsAccessKey) (hconsole : h ≠ .consoleLog)
    (hedits : edits l h line ≠ []) :
    line? l h line = some ((edits l h line).foldr Edit.apply line) := by
  obtain ⟨e, es, hes⟩ := exists_cons_of_ne_nil hedits
  cases h <;> first | contradiction | simp only [line?, hes]

/-- A line on which a hazard is found has a fix, where the hazard can be fixed. -/
theorem line?_of_find? (hcan : canFix h l) {line : Line}
    (hfind : ((ofHazard h).find? l line).isSome) :
    ∃ line', line? l h line = some line' ∧
      (h ≠ .consoleLog → Relation.TransGen (Changed l) line line') := by
  by_cases hconsole : h = .consoleLog
  · subst hconsole
    exact ⟨_, rfl, fun h ↦ absurd rfl h⟩
  have hfound : ∀ m ∈ (ofHazard h).placed l line, (ofHazard h).pattern.Found line m :=
    fun m hm ↦ found_of_mem_matches (mem_of_mem_filter hm)
  obtain ⟨m, hm⟩ := Option.isSome_iff_exists.1 hfind
  have hmem : m ∈ (ofHazard h).placed l line := mem_of_mem_head? hm
  obtain ⟨e, he⟩ := edit?_of_found hcan hconsole (hfound m hmem)
  have hedits : edits l h line ≠ [] := ne_nil_of_mem (mem_filterMap.2 ⟨m, hmem, he⟩)
  obtain ⟨line', hfold, -, -, hsteps⟩ := foldr_edits (a := []) (b := line) hcan hconsole
    ((pairwise_matches _ line).filter _) fun m hm ↦ ⟨hfound m hm, Nat.zero_le _⟩
  refine ⟨line', ?_, fun _ ↦ hsteps (ne_nil_of_mem hmem)⟩
  have haws : h ≠ .awsAccessKey := by
    rintro rfl
    cases hcan
  rw [line?_of_edits haws hconsole hedits]
  exact congrArg some hfold

/-! ## Fixed lines -/

theorem onLine_eq_fixed_iff {line line' : Line} : onLine l h line = (.fixed, line') ↔
    ((ofHazard h).find? l line).isSome ∧ canFix h l ∧ line? l h line = some line' := by
  rw [onLine]
  cases (ofHazard h).find? l line <;> cases canFix h l <;> cases line? l h line <;> simp

theorem onLines_eq_fixed_iff {n : Nat} {lines lines' : List Line} :
    onLines l h n lines = (.fixed, lines') ↔ ∃ i line line', n = i + 1 ∧ lines[i]? = some line ∧
      onLine l h line = (.fixed, line') ∧ lines' = lines.set i line' := by
  cases n with
  | zero => simp [onLines]
  | succ i =>
    rw [onLines]
    cases hline : lines[i]? with
    | none => simp [hline]
    | some line =>
      constructor
      · intro hfix
        obtain ⟨houtcome, hlines⟩ := Prod.mk.inj hfix
        exact ⟨i, line, _, rfl, hline, Prod.ext houtcome rfl, hlines.symm⟩
      · rintro ⟨_, _, line', ⟨⟩, hline', hfix, rfl⟩
        cases hline.symm.trans hline'
        simp only [hfix]

/-- Lines stay as they are unless one was fixed. -/
theorem onLines_of_not_fixed {n : Nat} {lines : List Line}
    (hfix : (onLines l h n lines).1.isFixed = false) : (onLines l h n lines).2 = lines := by
  have hline {line : Line} (hfix : (onLine l h line).1.isFixed = false) :
      (onLine l h line).2 = line := by
    revert hfix
    rw [onLine]
    split_ifs
    · exact fun _ ↦ rfl
    · exact fun _ ↦ rfl
    · exact fun _ ↦ rfl
    · cases line? l h line with
      | none => exact fun _ ↦ rfl
      | some new => exact fun hfix ↦ by cases hfix
  cases n with
  | zero => rfl
  | succ i =>
    rw [onLines] at hfix ⊢
    cases hi : lines[i]? with
    | none => rfl
    | some line =>
      rw [hi] at hfix
      obtain ⟨hlt, rfl⟩ := List.getElem?_eq_some_iff.1 hi
      simp [hline hfix]

end Fix

end Steward
