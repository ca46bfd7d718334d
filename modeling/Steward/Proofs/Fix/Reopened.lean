import Steward.Proofs.Fix.Avoid
import Steward.Proofs.Fix.Convergence

/-!
# Secrets behind an open quote

The fix of a secret writes double quotes, in every language but the shell's. They may close a quote
that the line left open, and then what stands behind an earlier assignment is taken for another
secret. `Fix.LeftOpen` describes the lines on which that happens. On all others the same fix does not
apply again; on these it does, and spoils the line.
-/

namespace Steward

open Text (Line Blanks)
open List

namespace Detector

open Pattern Text
open Steward.Fix

variable {l : Language} {h : Hazard} {x v y pre w w' post line : List Char} {gs gs' : Groups}
variable {u rest : List Char} {q : Char} {name : String}

/-! ## Assignments of secrets -/

/-- The hazards that are secrets. -/
def secrets : List Hazard := [.hardcodedPassword, .hardcodedApiKey]

/-- The name of a secret and an assignment sign. -/
def Lead (h : Hazard) (u : List Char) : Prop :=
  ∃ name ∈ openings h, ∃ sign, u = name.toList ++ sign ∧ Sign sign

/-- On the line, behind `x`, something in quotes is assigned to a secret. The quote may be left
open. -/
structure Assigns (h : Hazard) (line x u : List Char) (q : Char) (rest : List Char) : Prop where
  cut : line = x ++ u ++ q :: rest
  edge : x.getLast?.any isWord = false
  lead : Lead h u
  quote : q = '"' ∨ q = '\''

/-- The quote is closed, and not at once. -/
def Closes (q : Char) (rest : List Char) : Prop := rest.head? ≠ some q ∧ q ∈ rest

/-- The pattern of a secret whose name another pattern takes. -/
def secretPattern (p : Pattern) (n : Nat) : Pattern := edge ++ p ++ assign ++ group n literal

theorem takes_literal_iff : (∃ gs', Takes literal x v y gs gs') ↔
    ∃ q body, v = q :: (body ++ [q]) ∧ (q = '"' ∨ q = '\'') ∧ body ≠ [] ∧ q ∉ body := by
  have hquoted (q : String) {c : Char} (hq : q.toList = [c]) :
      (∃ gs', Takes (.text q ++ .many1 (.except c) ++ .text q) x v y gs gs') ↔
        ∃ body, v = c :: (body ++ [c]) ∧ body ≠ [] ∧ c ∉ body := by
    constructor
    · rintro ⟨gs', h⟩
      obtain ⟨_, _, _, rfl, h, hclose⟩ := takes_append h
      obtain ⟨_, body, _, rfl, hopen, hbody⟩ := takes_append h
      obtain ⟨rfl, rfl⟩ := takes_text hopen
      obtain ⟨hne, hall, rfl⟩ := takes_many1 hbody
      obtain ⟨rfl, rfl⟩ := takes_text hclose
      refine ⟨body, by simp [hq], hne, fun hmem ↦ ?_⟩
      simpa using hall c hmem
    · rintro ⟨body, rfl, hne, hmem⟩
      refine ⟨gs, ?_⟩
      have hall : ∀ d ∈ body, (CharClass.except c).mem d := fun d hd ↦ by
        simpa using ne_of_mem_of_not_mem hd hmem
      have hw : c :: (body ++ [c]) = q.toList ++ body ++ q.toList := by simp [hq]
      rw [hw]
      exact .seq (.seq (.text q) (.many1 hne hall)) (.text q)
  constructor
  · rintro ⟨gs', h⟩
    rcases takes_or h with h | h
    · obtain ⟨body, rfl, hbody⟩ := (hquoted "\"" rfl).1 ⟨gs', h⟩
      exact ⟨'"', body, rfl, .inl rfl, hbody⟩
    · obtain ⟨body, rfl, hbody⟩ := (hquoted "'" rfl).1 ⟨gs', h⟩
      exact ⟨'\'', body, rfl, .inr rfl, hbody⟩
  · rintro ⟨q, body, rfl, rfl | rfl, hbody⟩
    · obtain ⟨gs', h⟩ := (hquoted "\"" rfl).2 ⟨body, rfl, hbody⟩
      exact ⟨gs', .left h⟩
    · obtain ⟨gs', h⟩ := (hquoted "'" rfl).2 ⟨body, rfl, hbody⟩
      exact ⟨gs', .right h⟩

theorem takes_assign_of_sign {sign : List Char} (h : Sign sign) (x y : List Char) (gs : Groups) :
    Takes assign x sign y gs gs := by
  obtain ⟨a, b, rfl, ha, hb⟩ := h
  have hsign : a ++ '=' :: b = a ++ "=".toList ++ b := by simp
  rw [hsign]
  exact .seq (.seq (.many fun c hc ↦ by simpa using ha c hc) (.text "="))
    (.many fun c hc ↦ by simpa using hb c hc)

theorem takes_secretPattern_iff {p : Pattern} {n : Nat} {names : List String}
    (hp : ∀ {x w y gs gs'}, Takes p x w y gs gs' → ∃ name ∈ names, w = name.toList)
    (hp' : ∀ name ∈ names, ∀ x y gs, ∃ gs', Takes p x name.toList y gs gs')
    (hword : ∀ name ∈ names, ∀ rest, (name.toList ++ rest).head?.any isWord) :
    (∃ gs', Takes (secretPattern p n) x v y gs gs') ↔ x.getLast?.any isWord = false ∧
      ∃ name ∈ names, ∃ sign literal, v = name.toList ++ sign ++ literal ∧ Sign sign ∧
        ∃ q body, literal = q :: (body ++ [q]) ∧ (q = '"' ∨ q = '\'') ∧ body ≠ [] ∧ q ∉ body := by
  constructor
  · rintro ⟨gs', h⟩
    obtain ⟨_, literal, _, rfl, h, hgroup⟩ := takes_append h
    obtain ⟨_, sign, _, rfl, h, hassign⟩ := takes_append h
    obtain ⟨hedge, hname⟩ := takes_edge_append h
    obtain ⟨name, hmem, rfl⟩ := hp hname
    obtain ⟨hsign, rfl⟩ := takes_assign hassign
    obtain ⟨_, hliteral, rfl⟩ := takes_group hgroup
    exact ⟨hedge (hword name hmem _), name, hmem, sign, literal, rfl, hsign,
      takes_literal_iff.1 ⟨_, hliteral⟩⟩
  · rintro ⟨hedge, name, hmem, sign, literal, rfl, hsign, hliteral⟩
    obtain ⟨gs₁, hname⟩ := hp' name hmem (x ++ []) (sign ++ (literal ++ y)) gs
    obtain ⟨gs₂, hliteral⟩ := takes_literal_iff.2 hliteral
    have hstart : Takes .edge x [] (name.toList ++ (sign ++ (literal ++ y))) gs gs := by
      refine .edge ?_
      rw [hedge, hword name hmem]
      decide
    exact ⟨_, .seq (.seq (.seq hstart hname) (takes_assign_of_sign hsign _ _ gs₁)) (.group n hliteral)⟩

/-- What the pattern of a secret takes. -/
theorem takes_secret_iff (hh : h ∈ secrets) :
    (∃ gs', Takes (ofHazard h).pattern x v y gs gs') ↔ x.getLast?.any isWord = false ∧
      ∃ name ∈ openings h, ∃ sign literal, v = name.toList ++ sign ++ literal ∧ Sign sign ∧
        ∃ q body, literal = q :: (body ++ [q]) ∧ (q = '"' ∨ q = '\'') ∧ body ≠ [] ∧ q ∉ body := by
  simp only [secrets, mem_cons, not_mem_nil, or_false] at hh
  rcases hh with rfl | rfl
  · refine takes_secretPattern_iff (p := .text "password") (n := 1) (fun h ↦ ?_) ?_ ?_
    · exact ⟨_, by simp [openings], (takes_text h).1⟩
    · simp only [openings, forall_mem_singleton]
      exact fun x y gs ↦ ⟨gs, .text _⟩
    · simp only [openings, forall_mem_singleton]
      exact fun rest ↦ rfl
  · refine takes_secretPattern_iff (n := 2)
      (p := .group 1 (text "api_key" ||| text "apiKey" ||| text "secret_key" ||| text "secretKey"))
      (fun h ↦ ?_) ?_ ?_
    · obtain ⟨_, htexts, -⟩ := takes_group h
      exact (takes_texts ["apiKey", "secret_key", "secretKey"] htexts).1
    · intro name hname x y gs
      fin_cases hname
      · exact ⟨_, .group 1 (.left (.left (.left (.text _))))⟩
      · exact ⟨_, .group 1 (.left (.left (.right (.text _))))⟩
      · exact ⟨_, .group 1 (.left (.right (.text _)))⟩
      · exact ⟨_, .group 1 (.right (.text _))⟩
    · intro name hname rest
      fin_cases hname <;> rfl

theorem exists_assigns_of_takes (hh : h ∈ secrets) (htakes : Takes (ofHazard h).pattern x v y gs gs') :
    ∃ u q rest, Assigns h (x ++ v ++ y) x u q rest ∧ Closes q rest := by
  obtain ⟨hedge, name, hname, sign, _, rfl, hsign, q, body, rfl, hq, hne, hmem⟩ :=
    (takes_secret_iff hh).1 ⟨_, htakes⟩
  refine ⟨name.toList ++ sign, q, body ++ q :: y,
    ⟨by simp, hedge, ⟨name, hname, sign, rfl, hsign⟩, hq⟩, ?_, by simp⟩
  obtain ⟨c, body, rfl⟩ := exists_cons_of_ne_nil hne
  rintro ⟨⟩
  exact hmem mem_cons_self

theorem Assigns.exists_takes (hassigns : Assigns h line x u q rest) (hh : h ∈ secrets)
    (hcloses : Closes q rest) :
    ∃ v y gs, line = x ++ v ++ y ∧ Takes (ofHazard h).pattern x v y [] gs := by
  obtain ⟨name, hname, sign, rfl, hsign⟩ := hassigns.lead
  obtain ⟨body, y, rfl, hmem⟩ := eq_append_cons_of_mem hcloses.2
  have hne : body ≠ [] := by
    rintro rfl
    exact hcloses.1 rfl
  have htakes : ∃ gs, Takes (ofHazard h).pattern x (name.toList ++ sign ++ q :: (body ++ [q])) y [] gs :=
    (takes_secret_iff hh).2 ⟨hassigns.edge, name, hname, sign, _, rfl, hsign, q, body, rfl,
      hassigns.quote, hne, hmem⟩
  obtain ⟨gs, htakes⟩ := htakes
  exact ⟨_, y, gs, by simp [hassigns.cut], htakes⟩

/-! ## What a lookup in the environment holds -/

/-- A text that assigns nothing, in quotes or not, and is no part of a word at its end. -/
structure Inert (l : Language) (code : List Char) : Prop where
  sign : '=' ∉ code
  single : '\'' ∉ code
  double : '"' ∈ code ↔ l ≠ .shell
  head : ∃ c rest, code = c :: rest ∧ isBlank c = false ∧ c ≠ '"' ∧ c ≠ '\''
  last : code.getLast? ∈ [some ')', some '"', some '\x7d']

theorem inert_lookup (hname : name ∈ secretNames) {code : Snippet}
    (hcode : envLookup? l (envName name) = some code) : Inert l code.1.toList := by
  obtain ⟨q, hq, hcode⟩ := envLookup?_cases hcode
  have henv : '=' ∉ (envName name).toList ∧ '\'' ∉ (envName name).toList ∧
      '"' ∉ (envName name).toList := by fin_cases hname <;> decide
  have hends : '=' ∉ q.1.toList ++ q.2.toList ∧ '\'' ∉ q.1.toList ++ q.2.toList ∧
      ('"' ∈ q.1.toList ++ q.2.toList ↔ l ≠ .shell) ∧
      (∃ c rest, q.1.toList = c :: rest ∧ isBlank c = false ∧ c ≠ '"' ∧ c ≠ '\'') ∧
      q.2.toList.getLast? ∈ [some ')', some '"', some '\x7d'] := by
    cases l <;> cases hq <;>
      exact ⟨by decide, by decide, by decide, ⟨_, _, rfl, rfl, by decide, by decide⟩, by decide⟩
  obtain ⟨hsign, hsingle, hdouble, ⟨c, rest, hhead, hc⟩, hlast⟩ := hends
  simp only [mem_append, not_or] at hsign hsingle hdouble
  refine ⟨?_, ?_, ?_, ⟨c, rest ++ (envName name).toList ++ q.2.toList, ?_, hc⟩, ?_⟩
  · simp [hcode, hsign, henv]
  · simp [hcode, hsingle, henv]
  · simp [hcode, ← hdouble, henv]
  · simp [hcode, hhead]
  · have hne : q.2.toList.getLast? ≠ none := fun hnone ↦ by simp [hnone] at hlast
    obtain ⟨d, hd⟩ := Option.ne_none_iff_exists'.1 hne
    rwa [hcode, getLast?_append, hd, Option.some_or, ← hd]

/-! ## Where assignments are after a fix -/

theorem openings_subset (hh : h ∈ secrets) : openings h ⊆ secretNames := by
  fin_cases hh <;> decide

/-- A name is one word. -/
theorem isWord_of_mem_secret (hname : name ∈ secretNames) : ∀ c ∈ name.toList, isWord c := by
  have hall : ∀ name ∈ secretNames, name.toList.all isWord := by decide
  exact all_eq_true.1 (hall name hname)

theorem notMem_of_isWord {cs : List Char} (hcs : ∀ c ∈ cs, isWord c) {c : Char}
    (hc : isWord c = false) : c ∉ cs := by
  intro hmem
  rw [hcs c hmem] at hc
  cases hc

theorem head?_secret (hname : name ∈ secretNames) (rest : List Char) :
    ∃ c, (name.toList ++ rest).head? = some c ∧ isWord c := by
  fin_cases hname <;> exact ⟨_, rfl, rfl⟩

/-- The text of an assignment after its fix. -/
def Substitute (l : Language) (w' : List Char) : Prop :=
  ∃ name ∈ secretNames, ∃ sign code, w' = name.toList ++ sign ++ code ∧ Sign sign ∧ Inert l code

/-- It ends in a mark. -/
theorem Substitute.exists_last (hw' : Substitute l w') :
    ∃ c, w'.getLast? = some c ∧ isWord c = false ∧ isBlank c = false := by
  obtain ⟨name, -, sign, code, rfl, -, hcode⟩ := hw'
  obtain ⟨c, hlast, hc⟩ : ∃ c, code.getLast? = some c ∧ isWord c = false ∧ isBlank c = false := by
    have hlast := hcode.last
    simp only [mem_cons, not_mem_nil, or_false] at hlast
    rcases hlast with h | h | h <;> exact ⟨_, h, rfl, rfl⟩
  exact ⟨c, by rw [getLast?_append, hlast, Option.some_or], hc⟩

/-- An assignment on a line is in front of one that was fixed or behind it. -/
theorem Assigns.locate (hassigns : Assigns h (pre ++ w' ++ post) x u q rest) (hh : h ∈ secrets)
    (hw' : Substitute l w') :
    (∃ r, pre = x ++ u ++ q :: r ∧ rest = r ++ (w' ++ post)) ∨
      ∃ r, x = pre ++ w' ++ r ∧ post = r ++ u ++ q :: rest := by
  obtain ⟨name, hname, _, rfl, a, b, rfl, ha, hb⟩ := hassigns.lead
  have hquote : isWord q = false ∧ isBlank q = false := by
    rcases hassigns.quote with rfl | rfl <;> exact ⟨rfl, rfl⟩
  have hcut : (x ++ name.toList ++ a) ++ '=' :: (b ++ q :: rest) = pre ++ w' ++ post := by
    simpa using hassigns.cut.symm
  rcases stands hcut with ⟨r, rfl, hy⟩ | ⟨u₁, u₂, hu, -, hy⟩ | ⟨r, hr, rfl⟩
  · obtain ⟨name₀, hname₀, sign₀, code, rfl, -, -⟩ := hw'
    obtain ⟨c, hhead, hc⟩ := head?_secret hname₀ (sign₀ ++ (code ++ post))
    have hsplit : (b ++ [q]) ++ rest = r ++ (name₀.toList ++ sign₀ ++ code ++ post) := by
      simpa using hy
    have hmem : c ∉ b ++ [q] := by
      refine not_mem_append (fun hmem ↦ ?_) fun hmem ↦ ?_
      · rw [isWord_of_isBlank (hb c hmem)] at hc
        cases hc
      · rw [mem_singleton.1 hmem, hquote.1] at hc
        cases hc
    obtain ⟨s, rfl, hs⟩ := exists_left_of_append hsplit (by simpa [hhead] using hmem)
    exact .inl ⟨s, by simp, hs⟩
  · exfalso
    obtain ⟨name₀, hname₀, _, code, rfl, ⟨a₀, b₀, rfl, ha₀, hb₀⟩, hcode⟩ := hw'
    obtain ⟨c, code', rfl, hc, hdouble, hsingle⟩ := hcode.head
    have hsplit : (name₀.toList ++ a₀) ++ '=' :: (b₀ ++ c :: code') = u₁ ++ '=' :: u₂ := by
      simpa using hu
    obtain ⟨-, -, rfl⟩ := (append_cons_inj_of_notMem
      (not_mem_append (notMem_of_isWord (isWord_of_mem_secret hname₀) rfl)
        (notMem_of_blanks ha₀ rfl))
      (not_mem_append (notMem_of_blanks hb₀ rfl) hcode.sign)).1 hsplit
    -- behind the sign stands code, not a quote
    have hrest : b ++ q :: rest = b₀ ++ c :: (code' ++ post) := by simpa using hy
    obtain ⟨rfl, -⟩ := eq_of_blanks hb hb₀ hquote.2 hc hrest
    rcases hassigns.quote with rfl | rfl
    · exact hdouble rfl
    · exact hsingle rfl
  · obtain ⟨c, hlast, hword, hblank⟩ := hw'.exists_last
    have hend : ∀ d ∈ (pre ++ w').getLast?, d ∉ name.toList ++ a := by
      rw [getLast?_append, hlast, Option.some_or]
      rintro _ ⟨⟩
      exact not_mem_append
        (notMem_of_isWord (isWord_of_mem_secret (openings_subset hh hname)) hword)
        (notMem_of_blanks ha hblank)
    have hback : x ++ (name.toList ++ a) = (pre ++ w') ++ r := by simpa using hr
    obtain ⟨s, rfl, hs⟩ := exists_right_of_append hback hend
    exact .inr ⟨s, rfl, by simp [hs]⟩

/-- The only quotes in it are double ones, and outside of the shell it has some. -/
theorem Substitute.mem_quote_iff (hw' : Substitute l w') (hq : q = '"' ∨ q = '\'') :
    q ∈ w' ↔ q = '"' ∧ l ≠ .shell := by
  obtain ⟨name, hname, _, code, rfl, ⟨a, b, rfl, ha, hb⟩, hcode⟩ := hw'
  have hplain : q ∉ name.toList ∧ q ∉ a ++ '=' :: b := by
    have hmark : isWord q = false ∧ isBlank q = false ∧ q ≠ '=' := by
      rcases hq with rfl | rfl <;> exact ⟨rfl, rfl, by decide⟩
    refine ⟨notMem_of_isWord (isWord_of_mem_secret hname) hmark.1,
      not_mem_append (notMem_of_blanks ha hmark.2.1)
        (not_mem_cons_of_ne_of_not_mem hmark.2.2 (notMem_of_blanks hb hmark.2.1))⟩
  rw [mem_append, mem_append, or_iff_right (not_or.2 hplain)]
  rcases hq with rfl | rfl
  · simp [hcode.double]
  · simp [hcode.single]

theorem isWord_of_mem_sign {sign : List Char} (hsign : Sign sign) {c : Char} (hc : c ∈ sign) :
    isWord c = false := by
  obtain ⟨a, b, rfl, ha, hb⟩ := hsign
  rcases mem_append.1 hc with hc | hc
  · exact isWord_of_isBlank (ha c hc)
  · rcases mem_cons.1 hc with rfl | hc
    · rfl
    · exact isWord_of_isBlank (hb c hc)

/-- A match does not start inside of an assignment: its name is a word of its own. -/
theorem Assigns.not_starts (hassigns : Assigns h (pre ++ w ++ post) x u q rest) (hh : h ∈ secrets)
    (htakes : Takes (ofHazard h).pattern pre w post gs gs') (hlt : x.length < pre.length) :
    (x ++ u).length < pre.length := by
  refine Nat.lt_of_not_le fun hle ↦ ?_
  obtain ⟨hedge, name, hname, sign, literal, rfl, -, -⟩ := (takes_secret_iff hh).1 ⟨_, htakes⟩
  obtain ⟨c, hhead, hc⟩ := head?_secret (openings_subset hh hname) (sign ++ literal ++ post)
  obtain ⟨name₁, hname₁, sign₁, rfl, hsign₁⟩ := hassigns.lead
  have hword : c ≠ q := by
    rintro rfl
    rcases hassigns.quote with rfl | rfl <;> cases hc
  have hcut := hassigns.cut
  simp only [append_assoc] at hcut hhead
  rcases append_eq_append_iff.1 hcut with ⟨z, rfl, -⟩ | ⟨z, rfl, hz⟩
  · simp at hlt
  -- the front of the match is a part `z` of the assignment's lead, which does not end in a word
  have hlead : (name₁.toList ++ sign₁) ++ q :: rest =
      z ++ (name.toList ++ (sign ++ (literal ++ post))) := by simpa using hz
  rcases append_eq_append_iff.1 hlead with ⟨t, rfl, ht⟩ | ⟨t, ht, hrest⟩
  · obtain rfl : t = [] := by simpa using hle
    rw [nil_append] at ht
    rw [← ht] at hhead
    exact hword (Option.some.inj hhead).symm
  rcases append_eq_append_iff.1 ht with ⟨s, rfl, rfl⟩ | ⟨s, hs, -⟩
  · rw [hrest] at hhead
    cases t with
    | nil => exact hword (Option.some.inj hhead).symm
    | cons d t =>
      cases hhead
      rw [isWord_of_mem_sign hsign₁ (by simp)] at hc
      cases hc
  · rcases z.eq_nil_or_concat with rfl | ⟨z, d, rfl⟩
    · simp at hlt
    · have hd := isWord_of_mem_secret (openings_subset hh hname₁) d (by simp [hs])
      rw [concat_eq_append, ← append_assoc, getLast?_concat, Option.any_some, hd] at hedge
      cases hedge

end Detector

namespace Fix

open Detector Pattern Text

variable {l : Language} {h : Hazard} {pre w w' post post' : List Char} {gs : Groups} {line : Line}
variable {ms : List Match} {m : Match}

/-- A double quote that the assignment of a secret leaves open, outside of all matches and in front of
one of them. -/
def LeftOpen (l : Language) (h : Hazard) (line : Line) : Prop :=
  l ≠ .shell ∧ ∃ x u rest, Assigns h line x u '"' rest ∧ '"' ∉ rest ∧
    (∀ m ∈ (ofHazard h).placed l line, ¬(m.whole.start ≤ x.length ∧ x.length < m.whole.stop)) ∧
    ∃ m ∈ (ofHazard h).placed l line, (x ++ u).length < m.whole.start

theorem placed_secret (hh : h ∈ secrets) (l : Language) (line : Line) :
    (ofHazard h).placed l line = (ofHazard h).pattern.matches line := by
  fin_cases hh <;> exact filter_eq_self.2 fun _ _ ↦ rfl

/-- An assignment whose quote is closed starts inside of a match. -/
theorem exists_placed_of_closes (hh : h ∈ secrets) {x u rest : List Char} {q : Char}
    (hassigns : Assigns h line x u q rest) (hcloses : Closes q rest) (l : Language) :
    ∃ m ∈ (ofHazard h).placed l line, m.whole.start ≤ x.length ∧ x.length < m.whole.stop := by
  obtain ⟨v, y, gs, rfl, htakes⟩ := hassigns.exists_takes hh hcloses
  obtain ⟨m, hm, hle, hlt⟩ := exists_match_of_takes htakes (takes_ne_nil htakes)
  refine ⟨m, placed_secret hh l _ ▸ hm, hle, hlt.elim (fun heq ↦ ?_) id⟩
  obtain ⟨x', v', y', -, htakes', hwhole⟩ := found_of_mem_matches hm
  have hpos := length_pos_iff.2 (takes_ne_nil htakes')
  simp only [hwhole, length_append] at heq ⊢
  omega

/-- A replacement of a secret begins as what it replaces does, and both end in a mark. -/
structure Revised (l : Language) (w w' : List Char) : Prop where
  fixed : Substitute l w'
  head : ∃ c, isWord c ∧ w.head? = some c ∧ w'.head? = some c
  last : ∃ c, isWord c = false ∧ w.getLast? = some c

theorem revised_of_change (hh : h ∈ secrets) (htakes : Takes (ofHazard h).pattern pre w post [] gs)
    (hchange : Change l w w') : Revised l w w' := by
  have hopens := opens_of_takes htakes
  have hother {h' : Hazard} (hh' : h' ∉ secrets) (hw : Opens h' w) : False :=
    hh' (eq_of_opens hopens hw ▸ hh)
  cases hchange with
  | @secret name sign literal code hname hsign hliteral hcode =>
    refine ⟨⟨name, hname, sign, _, rfl, hsign, inert_lookup hname hcode⟩, ?_, ?_⟩
    · fin_cases hname <;> exact ⟨_, rfl, rfl, rfl⟩
    · obtain ⟨q, body, rfl, hq⟩ := hliteral
      refine ⟨q, by rcases hq with rfl | rfl <;> rfl, ?_⟩
      rw [← append_assoc, getLast?_concat]
  | call => exact (@hother .dangerousEval (by decide) ⟨"eval(", by decide, prefix_rfl⟩).elim
  | clause => exact (@hother .bareExcept (by decide) ⟨"except", by decide, by simp⟩).elim
  | command hname =>
    exact (@hother .commandInjection (by decide) (by simpa using opens_command hname _)).elim
  | typing => exact (@hother .anyType (by decide) ⟨":", by decide, by simp⟩).elim
  | marker hmarker =>
    exact (@hother .todoComment (by decide) ⟨_, hmarker, prefix_rfl⟩).elim

/-! ## Nothing else is found again -/

/-- All assignments whose quote is closed start inside of one of the matches, unless the line had an
open quote to begin with. -/
def Accounted (l : Language) (h : Hazard) (line : Line) (ms : List Match) (now : Line) : Prop :=
  ∀ ⦃x u : List Char⦄ ⦃q : Char⦄ ⦃rest : List Char⦄, Assigns h now x u q rest → Closes q rest →
    (∃ m ∈ ms, m.whole.start ≤ x.length ∧ x.length < m.whole.stop) ∨ LeftOpen l h line

theorem mem_of_start_lt {all : List Match} {m' : Match}
    (hall : all.Pairwise fun m m' ↦ m.whole.stop ≤ m'.whole.start) (hms : ms ++ [m] <+: all)
    (hm : m.whole.start ≤ m.whole.stop) (hm' : m' ∈ all) (hlt : m'.whole.start < m.whole.start) :
    m' ∈ ms := by
  obtain ⟨rest, rfl⟩ := hms
  rcases mem_append.1 hm' with hmem | hmem
  · rcases mem_append.1 hmem with hmem | hmem
    · exact hmem
    · rw [mem_singleton.1 hmem] at hlt
      exact absurd hlt (lt_irrefl _)
  · have hle := (pairwise_append.1 hall).2.2 m (by simp) m' hmem
    omega

theorem Revised.isWord_getLast (hrevised : Revised l w w') (pre : List Char) :
    (pre ++ w).getLast?.any isWord = (pre ++ w').getLast?.any isWord := by
  obtain ⟨c, hc, hlast⟩ := hrevised.last
  obtain ⟨d, hlast', hd, -⟩ := hrevised.fixed.exists_last
  rw [getLast?_append, getLast?_append, hlast, hlast', Option.some_or, Option.some_or,
    Option.any_some, Option.any_some, hc, hd]

/-- What follows a quote is not the quote again, if it was not before. -/
theorem Revised.head?_ne (hrevised : Revised l w w') {q : Char} (hq : q = '"' ∨ q = '\'')
    {r : List Char} (hr : r.head? ≠ some q) (post : List Char) :
    (r ++ (w ++ post)).head? ≠ some q ∧ (r ++ (w' ++ post)).head? ≠ some q := by
  cases r with
  | cons d r => exact ⟨hr, hr⟩
  | nil =>
    obtain ⟨c, hc, hhead, hhead'⟩ := hrevised.head
    have hne : c ≠ q := by
      rintro rfl
      rcases hq with rfl | rfl <;> cases hc
    simpa [head?_append, hhead, hhead'] using hne

theorem Accounted.of_change (haccounted : Accounted l h line (ms ++ [m]) (pre ++ w ++ post'))
    (hh : h ∈ secrets) (hms : ms ++ [m] <+: (ofHazard h).placed l line)
    (hcut : line = pre ++ w ++ post) (hwhole : m.whole = ⟨pre.length, (pre ++ w).length⟩)
    (hrevised : Revised l w w') : Accounted l h line ms (pre ++ w' ++ post') := by
  have hall : ((ofHazard h).placed l line).Pairwise fun m m' ↦ m.whole.stop ≤ m'.whole.start :=
    (pairwise_matches _ line).filter _
  have hearlier {m' : Match} (hm' : m' ∈ (ofHazard h).placed l line)
      (hlt : m'.whole.start < pre.length) : m' ∈ ms :=
    mem_of_start_lt hall hms (by simp [hwhole]) hm' (by simpa [hwhole] using hlt)
  intro x u q rest hassigns hcloses
  rcases hassigns.locate hh hrevised.fixed with ⟨r, hpre, rfl⟩ | ⟨r, rfl, rfl⟩
  · have hlt : x.length < pre.length := by
      rw [hpre]
      simp
    have hfront (post : List Char) : Assigns h (pre ++ w ++ post) x u q (r ++ (w ++ post)) :=
      ⟨by simp [hpre], hassigns.edge, hassigns.lead, hassigns.quote⟩
    have hr : r.head? ≠ some q := by
      cases r with
      | nil => simp
      | cons d r => exact hcloses.1
    have hopen (post : List Char) := (hrevised.head?_ne hassigns.quote hr post).1
    by_cases hclosed : q ∈ r ++ (w ++ post')
    · rcases haccounted (hfront post') ⟨hopen post', hclosed⟩ with ⟨m', hm', hle, hstop⟩ | hleft
      · rcases mem_append.1 hm' with hm' | hm'
        · exact .inl ⟨m', hm', hle, hstop⟩
        · rw [mem_singleton.1 hm', hwhole] at hle
          exact absurd hlt (Nat.not_lt.2 hle)
      · exact .inr hleft
    · -- the new text closes the quote
      have hmem : q ∈ w' := by
        have hnew := hcloses.2
        simp only [mem_append, not_or] at hclosed hnew
        tauto
      obtain ⟨rfl, hshell⟩ := (hrevised.fixed.mem_quote_iff hassigns.quote).1 hmem
      by_cases hcovered : ∃ m' ∈ (ofHazard h).placed l line,
          m'.whole.start ≤ x.length ∧ x.length < m'.whole.stop
      · obtain ⟨m', hm', hle, hstop⟩ := hcovered
        exact .inl ⟨m', hearlier hm' (hle.trans_lt hlt), hle, hstop⟩
      · refine .inr ⟨hshell, x, u, _, hcut ▸ hfront post, fun hmem ↦ ?_, ?_, m, hms.subset (by simp), ?_⟩
        · exact hcovered (exists_placed_of_closes hh (hcut ▸ hfront post) ⟨hopen post, hmem⟩ l)
        · exact fun m' hm' hcov ↦ hcovered ⟨m', hm', hcov⟩
        · rw [hwhole, hpre]
          simp
  · have hedge : (pre ++ w ++ r).getLast?.any isWord = false :=
      (isWord_getLast_append (hrevised.isWord_getLast pre) r).trans hassigns.edge
    have hbehind : Assigns h (pre ++ w ++ (r ++ u ++ q :: rest)) (pre ++ w ++ r) u q rest :=
      ⟨by simp, hedge, hassigns.lead, hassigns.quote⟩
    rcases haccounted hbehind hcloses with ⟨m', hm', -, hstop⟩ | hleft
    · exfalso
      have hle : m'.whole.stop ≤ (pre ++ w).length := by
        rcases mem_append.1 hm' with hm' | hm'
        · have hpair := (pairwise_append.1 (hall.sublist hms.sublist)).2.2 m' hm' m (by simp)
          rw [hwhole] at hpair
          exact hpair.trans (by simp)
        · rw [mem_singleton.1 hm', hwhole]
      simp only [length_append] at hstop hle
      omega
    · exact .inr hleft

/-! ## What is left open is closed -/

/-- What may be found again: the assignment that was left open, still open while there are matches to
be replaced behind it. -/
structure Lurks (h : Hazard) (x u : List Char) (ms : List Match) (x' rest : List Char) (now : Line) :
    Prop where
  assigns : Assigns h now x' u '"' rest
  head : rest.head? ≠ some '"'
  behind (m : Match) (hm : m ∈ ms) (hlt : (x ++ u).length < m.whole.start) : x' = x
  closed (hnone : ∀ m ∈ ms, ¬(x ++ u).length < m.whole.start) : '"' ∈ rest
  before (m : Match) (hm : m ∈ ms) (hle : m.whole.stop ≤ x.length) : m.whole.stop ≤ x'.length

theorem Lurks.of_change {x u x' rest : List Char}
    (hlurks : Lurks h x u (ms ++ [m]) x' rest (pre ++ w ++ post')) (hshell : l ≠ .shell)
    (hms : ∀ m' ∈ ms, m'.whole.stop ≤ m.whole.start)
    (hle : ∀ m' ∈ ms ++ [m], m'.whole.start ≤ m'.whole.stop)
    (hwhole : m.whole = ⟨pre.length, (pre ++ w).length⟩) (hrevised : Revised l w w')
    (hside : m.whole.stop ≤ x.length ∨ (x ++ u).length < m.whole.start) :
    ∃ x' rest, Lurks h x u ms x' rest (pre ++ w' ++ post') := by
  have hcut := hlurks.assigns.cut
  rcases hside with hside | hside
  · -- the replacement is in front of the assignment and moves it
    have hnone : ∀ m' ∈ ms ++ [m], ¬(x ++ u).length < m'.whole.start := by
      intro m' hm'
      have hstart : m'.whole.start ≤ x.length := by
        rcases mem_append.1 hm' with hmem | hmem
        · exact (hle m' hm').trans ((hms m' hmem).trans ((hle m (by simp)).trans hside))
        · rw [mem_singleton.1 hmem]
          exact (hle m (by simp)).trans hside
      rw [length_append]
      omega
    have hfar : (pre ++ w).length ≤ x'.length := by
      simpa only [hwhole] using hlurks.before m (by simp) hside
    have hbehind : (pre ++ w) ++ post' = x' ++ (u ++ '"' :: rest) := by simpa using hcut
    obtain ⟨r, rfl, rfl⟩ : ∃ r, x' = pre ++ w ++ r ∧ post' = r ++ (u ++ '"' :: rest) := by
      rcases append_eq_append_iff.1 hbehind with ⟨r, hx, hpost⟩ | ⟨r, hx, hpost⟩
      · exact ⟨r, hx, hpost⟩
      · have hr : r = [] := by
          rw [hx] at hfar
          simpa using hfar
        subst hr
        exact ⟨[], by simpa using hx.symm, by simpa using hpost.symm⟩
    have hedge := (isWord_getLast_append (hrevised.isWord_getLast pre) r).symm.trans
      hlurks.assigns.edge
    refine ⟨pre ++ w' ++ r, rest, ⟨by simp, hedge, hlurks.assigns.lead, .inl rfl⟩, hlurks.head,
      fun m' hm' hlt ↦ absurd hlt (hnone m' (by simp [hm'])), fun _ ↦ hlurks.closed hnone,
      fun m' hm' _ ↦ ?_⟩
    have hstop := hms m' hm'
    rw [hwhole] at hstop
    exact hstop.trans (by simp)
  · -- the replacement closes the quote
    obtain rfl := hlurks.behind m (by simp) hside
    rw [hwhole] at hside
    obtain ⟨r, rfl, rfl⟩ : ∃ r, pre = x' ++ u ++ '"' :: r ∧ rest = r ++ (w ++ post') := by
      rcases stands hcut.symm with ⟨r, hpre, hrest⟩ | ⟨u₁, u₂, -, hx, -⟩ | ⟨r, hx, -⟩
      · exact ⟨r, hpre, hrest⟩
      · rw [hx] at hside
        simp at hside
      · rw [hx] at hside
        simp at hside
    have hr : r.head? ≠ some '"' := by
      cases r with
      | nil => simp
      | cons d r => exact hlurks.head
    have hmem : '"' ∈ w' := (hrevised.fixed.mem_quote_iff (.inl rfl)).2 ⟨rfl, hshell⟩
    exact ⟨x', r ++ (w' ++ post'), ⟨by simp, hlurks.assigns.edge, hlurks.assigns.lead, .inl rfl⟩,
      (hrevised.head?_ne (.inl rfl) hr post').2, fun _ _ _ ↦ rfl, fun _ ↦ by simp [hmem],
      fun _ _ hle ↦ hle⟩

theorem accounted_placed (hh : h ∈ secrets) (l : Language) (line : Line) :
    Accounted l h line ((ofHazard h).placed l line) line := fun _ _ _ _ hassigns hcloses ↦
  .inl (exists_placed_of_closes hh hassigns hcloses l)

/-- **What is found again.** After the fix of a secret something is found on the line just if a quote
was left open on it. -/
theorem find?_secret_iff (hh : h ∈ secrets) (hcan : canFix h l) {line' : Line}
    (hline : line? l h line = some line') :
    ((ofHazard h).find? l line').isSome ↔ LeftOpen l h line := by
  have hconsole : h ≠ .consoleLog := by
    rintro rfl
    exact absurd hh (by decide)
  constructor
  · intro hfind
    obtain ⟨m, hm⟩ := Option.isSome_iff_exists.1 hfind
    have hmem := mem_of_mem_filter (mem_of_mem_head? hm)
    obtain ⟨x, v, y, rfl, htakes, -⟩ := found_of_mem_matches hmem
    obtain ⟨u, q, rest, hassigns, hcloses⟩ := exists_assigns_of_takes hh htakes
    have haccounted := line?_induction (P := Accounted l h line) hline hcan hconsole
      (accounted_placed hh l line) fun hms _ hcut hwhole htakes hchange haccounted ↦
        haccounted.of_change hh hms hcut hwhole (revised_of_change hh htakes hchange)
    obtain ⟨_, hnil, -⟩ | hleft := haccounted hassigns hcloses
    · cases hnil
    · exact hleft
  · rintro ⟨hshell, x, u, rest, hassigns, hopen, hout, m, hm, hlt⟩
    have hlurks := line?_induction (P := fun ms now ↦ ∃ x' rest, Lurks h x u ms x' rest now) hline
      hcan hconsole ⟨x, rest, hassigns, fun hhead ↦ hopen (mem_of_mem_head? hhead),
        fun _ _ _ ↦ rfl, fun hnone ↦ absurd hlt (hnone m hm), fun _ _ hle ↦ hle⟩
      fun {ms m pre w w' post post'} hms hbefore hcut hwhole htakes hchange hlurks ↦ by
        obtain ⟨x', rest', hlurks⟩ := hlurks
        refine hlurks.of_change hshell hbefore (fun m' hm' ↦ ?_) hwhole
          (revised_of_change hh htakes hchange) ?_
        · obtain ⟨_, _, _, -, -, hwhole'⟩ :=
            found_of_mem_matches (mem_of_mem_filter (hms.subset hm'))
          simp [hwhole']
        · have hmiss := hout m (hms.subset (by simp))
          rw [hwhole] at hmiss ⊢
          rcases Nat.lt_or_ge x.length pre.length with hlt | hge
          · exact .inr ((hcut ▸ hassigns).not_starts hh htakes hlt)
          · exact .inl (Nat.le_of_not_lt fun hlt ↦ hmiss ⟨hge, hlt⟩)
    obtain ⟨x', rest', hlurks⟩ := hlurks
    obtain ⟨m', hm', -⟩ := exists_placed_of_closes hh hlurks.assigns
      ⟨hlurks.head, hlurks.closed (by simp)⟩ l
    exact isSome_head?.2 (ne_nil_of_mem hm')

/-- **When the fix of a secret settles.** If no quote was left open on the line, the same fix does not
apply again and leaves the lines as they are. If one was, it applies again and changes them. -/
theorem onLines_of_fixed_secret (hh : h ∈ secrets) {n : Nat} {lines lines' : List Line}
    (hline : lines[n - 1]? = some line) (hfix : onLines l h n lines = (.fixed, lines')) :
    (¬LeftOpen l h line → onLines l h n lines' = (.notApplicable .patternGone, lines')) ∧
      (LeftOpen l h line → ∃ lines'', onLines l h n lines' = (.fixed, lines'') ∧ lines'' ≠ lines') := by
  obtain ⟨i, _, line', rfl, hline', hfixed, rfl⟩ := onLines_eq_fixed_iff.1 hfix
  cases hline.symm.trans hline'
  obtain ⟨-, hcan, hnew⟩ := onLine_eq_fixed_iff.1 hfixed
  have hset (line' : Line) : (lines.set i line')[i]? = some line' :=
    List.getElem?_set_self (List.getElem?_eq_some_iff.1 hline).1
  refine ⟨fun hclosed ↦ ?_, fun hopen ↦ ?_⟩
  · rw [← find?_secret_iff hh hcan hnew, Option.not_isSome_iff_eq_none] at hclosed
    exact onLines_of_find?_eq_none (hset line') hclosed
  · have hfind := (find?_secret_iff hh hcan hnew).2 hopen
    obtain ⟨line'', hagain, hsteps⟩ := line?_of_find? hcan hfind
    refine ⟨lines.set i line'', onLines_eq_fixed_iff.2 ⟨i, line', line'', rfl, hset line',
      onLine_eq_fixed_iff.2 ⟨hfind, hcan, hagain⟩, by simp⟩, fun heq ↦ ?_⟩
    have hburden := burden_lt_of_transGen (hsteps (by rintro rfl; exact absurd hh (by decide)))
    have hsame : line'' = line' := by
      have hget := congrArg (·[i]?) heq
      simpa only [hset, Option.some_inj] using hget
    rw [hsame] at hburden
    exact lt_irrefl _ hburden

/-- The double quote of the first assignment is closed by the fix of the second, and what was fixed is
fixed again. -/
theorem onLines_of_fixed_secret_reopened :
    onLines .python .hardcodedPassword 1 ["password = \"abc password = 'x'".toList] =
        (.fixed, ["password = \"abc password = os.environ.get(\"PASSWORD\", \"\")".toList]) ∧
      ∃ lines, onLines .python .hardcodedPassword 1
          ["password = \"abc password = os.environ.get(\"PASSWORD\", \"\")".toList] =
        (.fixed, lines) ∧
        lines ≠ ["password = \"abc password = os.environ.get(\"PASSWORD\", \"\")".toList] := by
  have hfix : onLines .python .hardcodedPassword 1 ["password = \"abc password = 'x'".toList] =
      (.fixed, ["password = \"abc password = os.environ.get(\"PASSWORD\", \"\")".toList]) := by
    decide +kernel
  have hplaced : (ofHazard .hardcodedPassword).placed .python
      "password = \"abc password = 'x'".toList = [⟨⟨16, 30⟩, [(1, ⟨27, 30⟩)]⟩] := by decide +kernel
  have hblank : Blanks [' '] := by simp [Blanks, isBlank]
  have hassigns : Assigns .hardcodedPassword "password = \"abc password = 'x'".toList []
      "password = ".toList '"' "abc password = 'x'".toList :=
    ⟨by decide, rfl, ⟨"password", by decide, " = ".toList, by decide, [' '], [' '], by decide, hblank,
      hblank⟩, .inl rfl⟩
  have hopen : LeftOpen .python .hardcodedPassword "password = \"abc password = 'x'".toList := by
    refine ⟨by decide, [], _, _, hassigns, by decide, ?_, ?_⟩
    · rw [hplaced]
      decide
    · rw [hplaced]
      exact ⟨_, List.mem_singleton_self _, by decide⟩
  exact ⟨hfix, (onLines_of_fixed_secret (by decide) rfl hfix).2 hopen⟩

end Fix

end Steward
