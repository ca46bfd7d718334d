import Steward.Detector
import Steward.Proofs.Pattern

/-!
# What the detectors match

The text that each detector's pattern takes, and the groups that it remembers of it. A match starts
where no word is under way, and what stands behind it does not go on with a word of the match:
`Text.Apart` says so of two parts of a line.
-/

namespace Steward

open List

namespace Text

/-- No word reaches from one part of a line into the next. -/
def Apart (xs ys : List Char) : Prop := xs.getLast?.any isWord → ys.head?.any isWord → False

theorem apart_of_last {xs ys : List Char} (h : xs.getLast?.any isWord = false) : Apart xs ys := by
  intro hxs
  rw [h] at hxs
  cases hxs

theorem apart_of_head {xs ys : List Char} (h : ys.head?.any isWord = false) : Apart xs ys := by
  intro _ hys
  rw [h] at hys
  cases hys

theorem isWord_of_isAlpha {c : Char} (h : c.isAlpha) : isWord c := by
  have hlt : c.toNat < 0x80 := by
    simp only [Char.isAlpha, Char.isUpper, Char.isLower, Bool.or_eq_true, Bool.and_eq_true,
      decide_eq_true_eq] at h
    rcases h with ⟨-, h⟩ | ⟨-, h⟩ <;> exact lt_of_le_of_lt (UInt32.le_iff_toNat_le.1 h) (by decide)
  simp [isWord, hlt, Char.isAlphanum, h]

/-- A text of nothing but space. -/
def Blanks (cs : List Char) : Prop := ∀ c ∈ cs, isBlank c

end Text

open Text (Line Apart Blanks)

namespace CharClass

@[simp]
theorem mem_blank (c : Char) : blank.mem c = Text.isBlank c := by
  simp [mem, blank, ClassItem.mem]

@[simp]
theorem mem_except (q c : Char) : (CharClass.except q).mem c = (c != q) := by
  by_cases h : c = q <;> simp [mem, CharClass.except, ClassItem.mem, h]

end CharClass

namespace Pattern

variable {p q : Pattern} {pre w post : List Char} {gs gs' : Groups}

/-! ## Taking a pattern apart -/

theorem takes_append (h : Takes (p ++ q) pre w post gs gs') :
    ∃ u v g, w = u ++ v ∧ Takes p pre u (v ++ post) gs g ∧ Takes q (pre ++ u) v post g gs' := by
  obtain _ | _ | _ | _ | _ | _ | ⟨hp, hq⟩ := h
  exact ⟨_, _, _, rfl, hp, hq⟩

theorem takes_or (h : Takes (p ||| q) pre w post gs gs') :
    Takes p pre w post gs gs' ∨ Takes q pre w post gs gs' := by
  cases h with
  | left h => exact .inl h
  | right h => exact .inr h

theorem takes_text {s : String} (h : Takes (.text s) pre w post gs gs') :
    w = s.toList ∧ gs' = gs := by
  cases h
  exact ⟨rfl, rfl⟩

theorem takes_one {k : CharClass} (h : Takes (.one k) pre w post gs gs') :
    (∃ x, w = [x] ∧ k.mem x) ∧ gs' = gs := by
  cases h with
  | one hx => exact ⟨⟨_, rfl, hx⟩, rfl⟩

theorem takes_many {k : CharClass} (h : Takes (.many k) pre w post gs gs') :
    (∀ x ∈ w, k.mem x) ∧ gs' = gs := by
  cases h with
  | many hw => exact ⟨hw, rfl⟩

theorem takes_many1 {k : CharClass} (h : Takes (.many1 k) pre w post gs gs') :
    w ≠ [] ∧ (∀ x ∈ w, k.mem x) ∧ gs' = gs := by
  cases h with
  | many1 hne hw => exact ⟨hne, hw, rfl⟩

theorem takes_edge (h : Takes .edge pre w post gs gs') :
    w = [] ∧ gs' = gs ∧ pre.getLast?.any Text.isWord ≠ post.head?.any Text.isWord := by
  cases h with
  | edge h => exact ⟨rfl, rfl, h⟩

theorem takes_group {n : Nat} (h : Takes (.group n p) pre w post gs gs') :
    ∃ g, Takes p pre w post gs g ∧ gs' = (n, ⟨pre.length, (pre ++ w).length⟩) :: g := by
  cases h with
  | group _ h => exact ⟨_, h, rfl⟩

/-- What holds of every character that the pattern takes in a round holds of all that it takes. -/
theorem takes_star {P : Char → Prop}
    (hp : ∀ {pre w post gs gs'}, Takes p pre w post gs gs' → (∀ x ∈ w, P x) ∧ gs' = gs)
    (h : Takes (.star p) pre w post gs gs') : (∀ x ∈ w, P x) ∧ gs' = gs := by
  generalize hs : Pattern.star p = s at h
  induction h with
  | done => simp
  | @round _ _ u v _ _ _ _ hround _ _ ih =>
    cases hs
    obtain ⟨hu, rfl⟩ := hp hround
    obtain ⟨hv, rfl⟩ := ih rfl
    refine ⟨fun x hx ↦ ?_, rfl⟩
    rcases mem_append.1 hx with hx | hx
    · exact hu x hx
    · exact hv x hx
  | _ => cases hs

theorem takes_edge_append (h : Takes (.edge ++ p) pre w post gs gs') :
    ((w ++ post).head?.any Text.isWord = true → pre.getLast?.any Text.isWord = false) ∧
      Takes p pre w post gs gs' := by
  obtain ⟨_, v, _, rfl, hu, hv⟩ := takes_append h
  obtain ⟨rfl, rfl, hedge⟩ := takes_edge hu
  rw [append_nil] at hv
  refine ⟨fun hword ↦ ?_, hv⟩
  rw [nil_append] at hword
  exact eq_false_of_ne_true fun hpre ↦ hedge (hpre.trans hword.symm)

theorem takes_append_edge (h : Takes (p ++ .edge) pre w post gs gs') :
    (w.getLast?.any Text.isWord = true → post.head?.any Text.isWord = false) ∧
      Takes p pre w post gs gs' := by
  obtain ⟨u, _, _, rfl, hu, hv⟩ := takes_append h
  obtain ⟨rfl, rfl, hedge⟩ := takes_edge hv
  rw [nil_append] at hu
  rw [append_nil]
  refine ⟨fun hword ↦ eq_false_of_ne_true fun hpost ↦ hedge ?_, hu⟩
  cases hlast : u.getLast? with
  | none =>
    rw [hlast] at hword
    cases hword
  | some c =>
    rw [getLast?_append, hlast, Option.some_or, ← hlast, hword, hpost]

/-- One of several texts. -/
theorem takes_texts (names : List String) {s : String}
    (h : Takes (names.foldl (fun p n ↦ p ||| .text n) (.text s)) pre w post gs gs') :
    (∃ n ∈ s :: names, w = n.toList) ∧ gs' = gs := by
  induction names using List.reverseRecOn with
  | nil =>
    obtain ⟨rfl, rfl⟩ := takes_text h
    exact ⟨⟨s, by simp, rfl⟩, rfl⟩
  | append_singleton names n ih =>
    rw [foldl_append] at h
    rcases takes_or h with h | h
    · obtain ⟨⟨m, hm, rfl⟩, rfl⟩ := ih h
      refine ⟨⟨m, ?_, rfl⟩, rfl⟩
      rw [← cons_append]
      exact mem_append_left _ hm
    · obtain ⟨rfl, rfl⟩ := takes_text h
      exact ⟨⟨n, by simp, rfl⟩, rfl⟩

end Pattern

namespace Detector

open Pattern

variable {pre w post : List Char} {gs gs' : Groups}

/-! ## Parts of patterns -/

/-- An assignment sign with space around it. -/
def Sign (cs : List Char) : Prop := ∃ a b, cs = a ++ '=' :: b ∧ Blanks a ∧ Blanks b

/-- A quoted text. -/
def Quoted (cs : List Char) : Prop := ∃ q body, cs = q :: body ++ [q] ∧ (q = '"' ∨ q = '\'')

/-- A character of a variable's name or of the path to it. -/
def isVariable (c : Char) : Bool := Text.isWord c || c = '$' || c = '.'

/-- A path of names to a variable. -/
def Variable (cs : List Char) : Prop := cs ≠ [] ∧ ∀ c ∈ cs, isVariable c

theorem takes_blanks (h : Takes (.many .blank) pre w post gs gs') : Blanks w ∧ gs' = gs := by
  obtain ⟨hw, rfl⟩ := takes_many h
  exact ⟨fun c hc ↦ by simpa using hw c hc, rfl⟩

theorem takes_assign (h : Takes assign pre w post gs gs') : Sign w ∧ gs' = gs := by
  obtain ⟨_, b, _, rfl, h, hb⟩ := takes_append h
  obtain ⟨a, _, _, rfl, ha, hsign⟩ := takes_append h
  obtain ⟨blanks_a, rfl⟩ := takes_blanks ha
  obtain ⟨rfl, rfl⟩ := takes_text hsign
  obtain ⟨blanks_b, rfl⟩ := takes_blanks hb
  exact ⟨⟨a, b, by simp, blanks_a, blanks_b⟩, rfl⟩

theorem takes_literal (h : Takes literal pre w post gs gs') : Quoted w ∧ gs' = gs := by
  have hquoted {q : String} {k : CharClass}
      (h : Takes (.text q ++ .many1 k ++ .text q) pre w post gs gs') :
      (∃ body, w = q.toList ++ body ++ q.toList) ∧ gs' = gs := by
    obtain ⟨_, _, _, rfl, h, hclose⟩ := takes_append h
    obtain ⟨_, body, _, rfl, hopen, hbody⟩ := takes_append h
    obtain ⟨rfl, rfl⟩ := takes_text hopen
    obtain ⟨-, -, rfl⟩ := takes_many1 hbody
    obtain ⟨rfl, rfl⟩ := takes_text hclose
    exact ⟨⟨body, rfl⟩, rfl⟩
  rcases takes_or h with h | h
  · obtain ⟨⟨body, rfl⟩, rfl⟩ := hquoted h
    exact ⟨⟨'"', body, rfl, .inl rfl⟩, rfl⟩
  · obtain ⟨⟨body, rfl⟩, rfl⟩ := hquoted h
    exact ⟨⟨'\'', body, rfl, .inr rfl⟩, rfl⟩

theorem isVariable_of_mem_start {c : Char}
    (h : (CharClass.of [.range 'A' 'Z', .range 'a' 'z', .one '_', .one '$']).mem c) :
    isVariable c := by
  have hcases : c.isAlpha ∨ c = '_' ∨ c = '$' := by
    simpa [CharClass.mem, CharClass.of, ClassItem.mem, Char.isAlpha, Char.isUpper, Char.isLower,
      Char.le_def, or_assoc] using h
  rcases hcases with hc | rfl | rfl
  · simp [isVariable, Text.isWord_of_isAlpha hc]
  · rfl
  · rfl

theorem takes_identifier (h : Takes identifier pre w post gs gs') : Variable w ∧ gs' = gs := by
  obtain ⟨_, v, _, rfl, hu, hv⟩ := takes_append h
  obtain ⟨⟨x, rfl, hx⟩, rfl⟩ := takes_one hu
  obtain ⟨hmany, rfl⟩ := takes_many hv
  refine ⟨⟨by simp, fun c hc ↦ ?_⟩, rfl⟩
  rcases mem_append.1 hc with hc | hc
  · rw [mem_singleton.1 hc]
    exact isVariable_of_mem_start hx
  · have hword := hmany c hc
    have hcases : Text.isWord c ∨ c = '$' := by
      simpa [CharClass.mem, CharClass.of, ClassItem.mem] using hword
    rcases hcases with hc | rfl
    · simp [isVariable, hc]
    · rfl

theorem takes_variable
    (h : Takes (identifier ++ .star (.text "." ++ identifier)) pre w post gs gs') :
    Variable w ∧ gs' = gs := by
  obtain ⟨u, v, _, rfl, hu, hv⟩ := takes_append h
  have hround {pre w post gs gs'} (h : Takes (.text "." ++ identifier) pre w post gs gs') :
      (∀ c ∈ w, isVariable c) ∧ gs' = gs := by
    obtain ⟨_, v, _, rfl, hdot, hname⟩ := takes_append h
    obtain ⟨rfl, rfl⟩ := takes_text hdot
    obtain ⟨⟨-, hvar⟩, rfl⟩ := takes_identifier hname
    refine ⟨fun c hc ↦ ?_, rfl⟩
    rcases mem_append.1 hc with hc | hc
    · rw [mem_singleton.1 hc]
      rfl
    · exact hvar c hc
  obtain ⟨⟨hne, hfirst⟩, rfl⟩ := takes_identifier hu
  obtain ⟨hrest, rfl⟩ := takes_star hround hv
  refine ⟨⟨append_ne_nil_of_left_ne_nil hne v, fun c hc ↦ ?_⟩, rfl⟩
  exact (mem_append.1 hc).elim (hfirst c) (hrest c)

/-! ## The patterns -/

theorem takes_passwordPattern (h : Takes passwordPattern pre w post gs gs') :
    ∃ sign literal, w = "password".toList ++ sign ++ literal ∧ Sign sign ∧ Quoted literal ∧
      pre.getLast?.any Text.isWord = false ∧
      gs' = (1, ⟨(pre ++ ("password".toList ++ sign)).length, (pre ++ w).length⟩) :: gs := by
  obtain ⟨_, literal, _, rfl, h, hgroup⟩ := takes_append h
  obtain ⟨_, sign, _, rfl, h, hassign⟩ := takes_append h
  obtain ⟨hedge, hname⟩ := takes_edge_append h
  obtain ⟨rfl, rfl⟩ := takes_text hname
  obtain ⟨hsign, rfl⟩ := takes_assign hassign
  obtain ⟨_, hliteral, rfl⟩ := takes_group hgroup
  obtain ⟨hquoted, rfl⟩ := takes_literal hliteral
  refine ⟨sign, literal, rfl, hsign, hquoted, ?_, by simp⟩
  exact hedge rfl

theorem takes_apiKeyPattern (h : Takes apiKeyPattern pre w post gs gs') :
    ∃ name ∈ ["api_key", "apiKey", "secret_key", "secretKey"], ∃ sign literal,
      w = name.toList ++ sign ++ literal ∧ Sign sign ∧ Quoted literal ∧
      pre.getLast?.any Text.isWord = false ∧
      gs' = (2, ⟨(pre ++ (name.toList ++ sign)).length, (pre ++ w).length⟩) ::
        (1, ⟨pre.length, (pre ++ name.toList).length⟩) :: gs := by
  obtain ⟨_, literal, _, rfl, h, hgroup⟩ := takes_append h
  obtain ⟨_, sign, _, rfl, h, hassign⟩ := takes_append h
  obtain ⟨hedge, hname⟩ := takes_edge_append h
  obtain ⟨_, htexts, rfl⟩ := takes_group hname
  obtain ⟨⟨name, hmem, rfl⟩, rfl⟩ := takes_texts ["apiKey", "secret_key", "secretKey"] htexts
  obtain ⟨hsign, rfl⟩ := takes_assign hassign
  obtain ⟨_, hliteral, rfl⟩ := takes_group hgroup
  obtain ⟨hquoted, rfl⟩ := takes_literal hliteral
  refine ⟨name, hmem, sign, literal, rfl, hsign, hquoted, ?_, by simp⟩
  fin_cases hmem <;> exact hedge rfl

theorem takes_evalPattern (h : Takes evalPattern pre w post gs gs') :
    w = "eval(".toList ∧ pre.getLast?.any Text.isWord = false := by
  obtain ⟨hedge, hname⟩ := takes_edge_append h
  obtain ⟨rfl, rfl⟩ := takes_text hname
  exact ⟨rfl, hedge rfl⟩

theorem takes_exceptPattern (h : Takes exceptPattern pre w post gs gs') :
    ∃ b, w = "except".toList ++ b ++ ":".toList ∧ Blanks b ∧
      pre.getLast?.any Text.isWord = false := by
  obtain ⟨_, _, _, rfl, h, hcolon⟩ := takes_append h
  obtain ⟨_, b, _, rfl, h, hb⟩ := takes_append h
  obtain ⟨hedge, hname⟩ := takes_edge_append h
  obtain ⟨rfl, rfl⟩ := takes_text hname
  obtain ⟨hblanks, rfl⟩ := takes_blanks hb
  obtain ⟨rfl, rfl⟩ := takes_text hcolon
  exact ⟨b, rfl, hblanks, hedge rfl⟩

theorem takes_commandPattern (h : Takes commandPattern pre w post gs gs') :
    ∃ name ∈ ["execSync", "exec", "spawn"], ∃ b var b' c,
      w = name.toList ++ '(' :: b ++ var ++ (b' ++ [c]) ∧ Blanks b ∧ Variable var ∧ Blanks b' ∧
      (c = ',' ∨ c = ')') ∧ pre.getLast?.any Text.isWord = false ∧
      gs' = (2, ⟨(pre ++ (name.toList ++ '(' :: b)).length,
          (pre ++ (name.toList ++ '(' :: b ++ var)).length⟩) ::
        (1, ⟨pre.length, (pre ++ name.toList).length⟩) :: gs := by
  obtain ⟨_, _, _, rfl, h, hend⟩ := takes_append h
  obtain ⟨_, b', _, rfl, h, hb'⟩ := takes_append h
  obtain ⟨_, var, _, rfl, h, hgroup⟩ := takes_append h
  obtain ⟨_, b, _, rfl, h, hb⟩ := takes_append h
  obtain ⟨_, _, _, rfl, h, hopen⟩ := takes_append h
  obtain ⟨hedge, hname⟩ := takes_edge_append h
  obtain ⟨_, htexts, rfl⟩ := takes_group hname
  obtain ⟨⟨name, hmem, rfl⟩, rfl⟩ := takes_texts ["exec", "spawn"] htexts
  obtain ⟨rfl, rfl⟩ := takes_text hopen
  obtain ⟨blanks_b, rfl⟩ := takes_blanks hb
  obtain ⟨_, hpath, rfl⟩ := takes_group hgroup
  obtain ⟨hvar, rfl⟩ := takes_variable hpath
  obtain ⟨blanks_b', rfl⟩ := takes_blanks hb'
  obtain ⟨⟨c, rfl, hc⟩, rfl⟩ := takes_one hend
  refine ⟨name, hmem, b, var, b', c, by simp, blanks_b, hvar, blanks_b', ?_, ?_, by simp⟩
  · simpa [CharClass.mem, CharClass.of, ClassItem.mem] using hc
  · fin_cases hmem <;> exact hedge rfl

theorem takes_consolePattern (h : Takes consolePattern pre w post gs gs') :
    w = "console.log(".toList ∧ pre.getLast?.any Text.isWord = false := by
  obtain ⟨hedge, hname⟩ := takes_edge_append h
  obtain ⟨rfl, rfl⟩ := takes_text hname
  exact ⟨rfl, hedge rfl⟩

theorem takes_anyPattern (h : Takes anyPattern pre w post gs gs') :
    ∃ b, w = ":".toList ++ b ++ "any".toList ∧ Blanks b ∧ post.head?.any Text.isWord = false := by
  obtain ⟨hedge, h⟩ := takes_append_edge h
  obtain ⟨_, _, _, rfl, h, hname⟩ := takes_append h
  obtain ⟨_, b, _, rfl, hcolon, hb⟩ := takes_append h
  obtain ⟨rfl, rfl⟩ := takes_text hcolon
  obtain ⟨hblanks, rfl⟩ := takes_blanks hb
  obtain ⟨rfl, rfl⟩ := takes_text hname
  exact ⟨b, rfl, hblanks, hedge (by rw [getLast?_append]; rfl)⟩

theorem takes_todoPattern (h : Takes todoPattern pre w post gs gs') :
    ∃ marker ∈ ["TODO", "FIXME", "XXX"], w = marker.toList ∧
      pre.getLast?.any Text.isWord = false ∧ post.head?.any Text.isWord = false ∧
      gs' = (1, ⟨pre.length, (pre ++ w).length⟩) :: gs := by
  obtain ⟨hend, h⟩ := takes_append_edge h
  obtain ⟨hstart, h⟩ := takes_edge_append h
  obtain ⟨_, htexts, rfl⟩ := takes_group h
  obtain ⟨⟨marker, hmem, rfl⟩, rfl⟩ := takes_texts ["FIXME", "XXX"] htexts
  refine ⟨marker, hmem, rfl, ?_, ?_, rfl⟩
  · fin_cases hmem <;> exact hstart rfl
  · fin_cases hmem <;> exact hend rfl

end Detector

end Steward
