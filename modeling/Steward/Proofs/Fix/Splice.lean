import Steward.Proofs.Comment
import Steward.Proofs.Fix.Change

/-!
# Lines with a part replaced

What a detector finds on a line after a part of it was replaced. If no text that the pattern takes
touches the new part, `Pattern.Avoids`, then all it finds was there before: in front of the part or
behind it, with the comment moved along. `Fix.line?_induction` carries such a fact from one
replacement to all that a fix makes.
-/

namespace Steward

open Text (Line)
open List

namespace Text

/-! ## Parts of a text -/

/-- Where a character stands in a text of three parts. -/
inductive Stands (x : List Char) (d : Char) (y pre w post : List Char) : Prop where
  | before (r : List Char) (hpre : pre = x ++ d :: r) (hy : y = r ++ (w ++ post))
  | inside (u u' : List Char) (hw : w = u ++ d :: u') (hx : x = pre ++ u) (hy : y = u' ++ post)
  | behind (r : List Char) (hx : x = pre ++ w ++ r) (hpost : post = r ++ d :: y)

variable {x y pre w post p r t u : List Char} {c d : Char}

theorem cut (h : x ++ d :: y = p ++ r) :
    (∃ s, p = x ++ d :: s ∧ y = s ++ r) ∨ ∃ s, x = p ++ s ∧ r = s ++ d :: y := by
  rcases append_eq_append_iff.1 h with ⟨s, rfl, hs⟩ | ⟨s, rfl, rfl⟩
  · rcases s with _ | ⟨e, s⟩
    · exact .inr ⟨[], by simp, hs.symm⟩
    · obtain ⟨rfl, rfl⟩ := List.cons.inj hs
      exact .inl ⟨s, rfl, rfl⟩
  · exact .inr ⟨s, rfl, rfl⟩

theorem stands (h : x ++ d :: y = pre ++ w ++ post) : Stands x d y pre w post := by
  rw [append_assoc] at h
  rcases cut h with ⟨r, hpre, hy⟩ | ⟨s, rfl, hs⟩
  · exact .before r hpre hy
  · rcases cut hs.symm with ⟨u', hw, hy⟩ | ⟨r, rfl, hpost⟩
    · exact .inside s u' hw rfl hy
    · exact .behind r (by simp) hpost

/-- A text that does not hold the last character of `u` does not reach into it. -/
theorem exists_right_of_append (h : x ++ t = u ++ y) (hc : ∀ c ∈ u.getLast?, c ∉ t) :
    ∃ r, x = u ++ r ∧ y = r ++ t := by
  rcases append_eq_append_iff.1 h with ⟨s, rfl, rfl⟩ | ⟨s, hx, hy⟩
  · rcases s.eq_nil_or_concat with rfl | ⟨s, c, rfl⟩
    · exact ⟨[], by simp⟩
    · exact absurd (by simp) (hc c (by simp [← append_assoc]))
  · exact ⟨s, hx, hy⟩

/-- A text that does not hold the first character of `r` does not reach into it. -/
theorem exists_left_of_append (h : t ++ y = p ++ r) (hc : ∀ c ∈ r.head?, c ∉ t) :
    ∃ s, p = t ++ s ∧ y = s ++ r := by
  rcases append_eq_append_iff.1 h with ⟨s, hp, hy⟩ | ⟨s, rfl, rfl⟩
  · exact ⟨s, hp, hy⟩
  · cases s with
    | nil => exact ⟨[], by simp⟩
    | cons c s => exact absurd (by simp) (hc c rfl)

theorem trimStart_append {b : List Char} (hb : Blanks b) (hc : isBlank c = false) (s : List Char) :
    trimStart (b ++ c :: s) = c :: s := by
  rw [trimStart, dropWhile_append_of_pos hb, dropWhile_cons_of_neg (by simp [hc])]

/-- Space and what comes after it are told apart in one way only. -/
theorem eq_of_blanks {b b' s s' : List Char} (hb : Blanks b) (hb' : Blanks b')
    (hc : isBlank c = false) (hd : isBlank d = false) (h : b ++ c :: s = b' ++ d :: s') :
    c = d ∧ s = s' := by
  have htrim := congrArg trimStart h
  rw [trimStart_append hb hc, trimStart_append hb' hd] at htrim
  exact List.cons.inj htrim

theorem notMem_of_blanks {b : List Char} (hb : Blanks b) (hc : isBlank c = false) : c ∉ b := by
  intro hmem
  rw [hb c hmem] at hc
  cases hc

theorem head?_trimStart_append (hc : isBlank c = false) (r u u' : List Char) :
    (trimStart (r ++ c :: u)).head? = (trimStart (r ++ c :: u')).head? := by
  have hstop (u : List Char) : (c :: u).dropWhile isBlank = c :: u :=
    dropWhile_cons_of_neg (by simp [hc])
  simp only [trimStart, dropWhile_append, hstop]
  cases r.dropWhile isBlank <;> rfl

end Text

namespace Pattern

open Text (isWord)

variable {p : Pattern} {pre pre' w post post' : List Char} {gs gs' : Groups}

theorem isWord_getLast_append (h : pre'.getLast?.any isWord = pre.getLast?.any isWord)
    (u : List Char) : (pre' ++ u).getLast?.any isWord = (pre ++ u).getLast?.any isWord := by
  rw [getLast?_append, getLast?_append]
  cases u.getLast? with
  | none => exact h
  | some c => rfl

theorem isWord_head_append (h : post'.head?.any isWord = post.head?.any isWord) (u : List Char) :
    (u ++ post').head?.any isWord = (u ++ post).head?.any isWord := by
  cases u with
  | nil => exact h
  | cons c u => rfl

/-- Of what surrounds it, a pattern sees only whether a word reaches it. -/
theorem Takes.around (h : Takes p pre w post gs gs')
    (hpre : pre'.getLast?.any isWord = pre.getLast?.any isWord)
    (hpost : post'.head?.any isWord = post.head?.any isWord) (g : Groups) :
    ∃ g', Takes p pre' w post' g g' := by
  induction h generalizing pre' post' g with
  | text s => exact ⟨g, .text s⟩
  | one hx => exact ⟨g, .one hx⟩
  | many hw => exact ⟨g, .many hw⟩
  | many1 hne hw => exact ⟨g, .many1 hne hw⟩
  | times hw => exact ⟨g, .times hw⟩
  | edge hedge => exact ⟨g, .edge (by rwa [hpre, hpost])⟩
  | seq _ _ ihp ihq =>
    obtain ⟨g₁, hp⟩ := ihp hpre (isWord_head_append hpost _) g
    obtain ⟨g₂, hq⟩ := ihq (isWord_getLast_append hpre _) hpost g₁
    exact ⟨g₂, .seq hp hq⟩
  | left _ ih =>
    obtain ⟨g', h⟩ := ih hpre hpost g
    exact ⟨g', .left h⟩
  | right _ ih =>
    obtain ⟨g', h⟩ := ih hpre hpost g
    exact ⟨g', .right h⟩
  | done => exact ⟨g, .done⟩
  | round _ _ ihp ihrest =>
    obtain ⟨g₁, hp⟩ := ihp hpre (isWord_head_append hpost _) g
    obtain ⟨g₂, hrest⟩ := ihrest (isWord_getLast_append hpre _) hpost g₁
    exact ⟨g₂, .round hp hrest⟩
  | group n _ ih =>
    obtain ⟨g', h⟩ := ih hpre hpost g
    exact ⟨_, .group n h⟩

/-- No text that the pattern takes touches the part `w`. -/
def Avoids (p : Pattern) (pre w post : List Char) : Prop :=
  ∀ ⦃x v y : List Char⦄ ⦃gs gs' : Groups⦄, Takes p x v y gs gs' → x ++ v ++ y = pre ++ w ++ post →
    (∃ r, pre = x ++ v ++ r ∧ y = r ++ (w ++ post)) ∨ ∃ r, x = pre ++ w ++ r ∧ post = r ++ v ++ y

end Pattern

namespace Language

variable {a b b' k : Nat} {o o' : Option Nat}

theorem Shifted.any_le_before (h : Shifted a b b' o o') (hk : k < a) :
    o'.any (· ≤ k) = o.any (· ≤ k) := by
  cases h with
  | none => rfl
  | before => rfl
  | behind j => simp only [Option.any_some, decide_eq_decide]; omega

theorem Shifted.any_le_behind (h : Shifted a b b' o o') (k : Nat) :
    o'.any (· ≤ a + b' + k) = o.any (· ≤ a + b + k) := by
  cases h with
  | none => rfl
  | before => simp only [Option.any_some, decide_eq_decide]; omega
  | behind j => simp only [Option.any_some, decide_eq_decide]; omega

end Language

/-- Whether a match is allowed, from where it starts and what stands behind it. -/
def Placement.admits (p : Placement) (inComment : Bool) (rest : List Char) : Bool :=
  match p with
  | anywhere => true
  | outsideComment => !inComment
  | insideComment => inComment
  | outsideCommentNotCall => !inComment && (Text.trimStart rest).head? != some '('

namespace Placement

theorem allows_eq_admits (p : Placement) (x v y : List Char) (comment : Option Nat)
    (gs : Pattern.Groups) :
    p.allows (x ++ v ++ y) comment ⟨⟨x.length, (x ++ v).length⟩, gs⟩ =
      p.admits (comment.any (· ≤ x.length)) y := by
  cases p <;> simp [allows, admits]

end Placement

namespace Detector

open Pattern
open Steward.Language (Shifted)

/-- At the index `k` of the line starts something that the detector finds. -/
def Starts (d : Detector) (l : Language) (line : Line) (k : Nat) : Prop :=
  ∃ x v y gs, line = x ++ v ++ y ∧ x.length = k ∧ Takes d.pattern x v y [] gs ∧
    d.placement.admits ((l.commentStart line).any (· ≤ k)) y

variable {d : Detector} {l : Language} {line : Line} {pre w w' post : List Char} {k : Nat}

theorem starts_of_mem_placed {m : Match} (h : m ∈ d.placed l line) : d.Starts l line m.whole.start := by
  obtain ⟨hm, hallows⟩ := mem_filter.1 h
  obtain ⟨x, v, y, rfl, htakes, hwhole⟩ := found_of_mem_matches hm
  obtain ⟨whole, gs⟩ := m
  cases hwhole
  refine ⟨x, v, y, gs, rfl, rfl, htakes, ?_⟩
  rwa [Placement.allows_eq_admits] at hallows

/-- What the replacement of a part must keep for a detector to find nothing new. -/
structure Swap (d : Detector) (l : Language) (pre w w' post : List Char) : Prop where
  avoids : Avoids d.pattern pre w' post
  comment : Shifted pre.length w.length w'.length (l.commentStart (pre ++ w ++ post))
    (l.commentStart (pre ++ w' ++ post))
  last : (pre ++ w).getLast?.any Text.isWord = (pre ++ w').getLast?.any Text.isWord
  head {x v r : List Char} {gs : Groups} (hpre : pre = x ++ v ++ r)
    (htakes : Takes d.pattern x v (r ++ (w' ++ post)) [] gs) :
    (r ++ (w ++ post)).head?.any Text.isWord = (r ++ (w' ++ post)).head?.any Text.isWord
  call (hplace : d.placement = .outsideCommentNotCall) :
    ∃ c u u', Text.isBlank c = false ∧ w = c :: u ∧ w' = c :: u'
  takes_ne_nil {x v y : List Char} {gs : Groups} (htakes : Takes d.pattern x v y [] gs) : v ≠ []

/-- What starts after the replacement of a part started before it, in front of the part or as far
behind it. -/
theorem Swap.starts (h : Swap d l pre w w' post) (hk : d.Starts l (pre ++ w' ++ post) k) :
    (k < pre.length ∧ d.Starts l (pre ++ w ++ post) k) ∨
      ∃ j, d.Starts l (pre ++ w ++ post) (pre.length + w.length + j) := by
  obtain ⟨x, v, y, gs, hline, rfl, htakes, hadmits⟩ := hk
  rcases h.avoids htakes hline.symm with ⟨r, hpre, rfl⟩ | ⟨r, rfl, hpost⟩
  · have hlt : x.length < pre.length := by
      have hpos := length_pos_iff.2 (h.takes_ne_nil htakes)
      rw [hpre]
      simp only [length_append]
      omega
    obtain ⟨gs', htakes'⟩ := htakes.around rfl (h.head hpre htakes) []
    refine .inl ⟨hlt, x, v, _, gs', by simp [hpre], rfl, htakes', ?_⟩
    rw [h.comment.any_le_before hlt] at hadmits
    cases hplace : d.placement with
    | anywhere => rfl
    | outsideComment => rwa [hplace] at hadmits
    | insideComment => rwa [hplace] at hadmits
    | outsideCommentNotCall =>
      obtain ⟨c, u, u', hc, rfl, rfl⟩ := h.call hplace
      rw [hplace] at hadmits
      rw [Placement.admits, cons_append, Text.head?_trimStart_append hc r _ (u' ++ post)]
      exact hadmits
  · obtain ⟨gs', htakes'⟩ := htakes.around (isWord_getLast_append h.last r) rfl []
    refine .inr ⟨r.length, _, v, y, gs', by simp [hpost], by simp; omega, htakes', ?_⟩
    have hlen : (pre ++ w' ++ r).length = pre.length + w'.length + r.length := by simp; omega
    rwa [hlen, h.comment.any_le_behind] at hadmits

/-- All that the detector finds on the line starts inside of one of the matches. -/
def Covered (d : Detector) (l : Language) (ms : List Match) (line : Line) : Prop :=
  ∀ k, d.Starts l line k → ∃ m ∈ ms, m.whole.start ≤ k ∧ k < m.whole.stop

theorem find?_of_covered (h : d.Covered l [] line) : d.find? l line = none := by
  rw [find?, head?_eq_none_iff, eq_nil_iff_forall_not_mem]
  intro m hm
  obtain ⟨_, hmem, -⟩ := h _ (starts_of_mem_placed hm)
  cases hmem

/-- The replacement of the last match leaves nothing that starts there. -/
theorem Covered.of_swap {ms : List Match} {m : Match} (h : d.Covered l (ms ++ [m]) (pre ++ w ++ post))
    (hms : ∀ m' ∈ ms, m'.whole.stop ≤ m.whole.start)
    (hm : m.whole = ⟨pre.length, (pre ++ w).length⟩) (hswap : Swap d l pre w w' post) :
    d.Covered l ms (pre ++ w' ++ post) := by
  intro k hk
  rcases hswap.starts hk with ⟨hlt, hstarts⟩ | ⟨j, hstarts⟩
  · obtain ⟨m', hm', hle, hstop⟩ := h k hstarts
    rcases mem_append.1 hm' with hm' | hm'
    · exact ⟨m', hm', hle, hstop⟩
    · rw [mem_singleton.1 hm', hm] at hle
      exact absurd hlt (Nat.not_lt.2 hle)
  · obtain ⟨m', hm', -, hstop⟩ := h _ hstarts
    rcases mem_append.1 hm' with hm' | hm'
    · have hle := hms m' hm'
      rw [hm] at hle
      dsimp only at hle
      omega
    · rw [mem_singleton.1 hm', hm, length_append] at hstop
      dsimp only at hstop
      omega

end Detector

namespace Fix

open Detector Pattern

variable {l : Language} {h : Hazard} {line : Line}

/-- The edits of a line are made from its end, so each finds the text in front of it as it was. -/
theorem foldr_edits_induction (hcan : canFix h l) (hconsole : h ≠ .consoleLog)
    {P : List Match → Line → Prop} {ms : List Match}
    (hms : ms.Pairwise fun m m' ↦ m.whole.stop ≤ m'.whole.start)
    (hfound : ∀ m ∈ ms, (ofHazard h).pattern.Found line m) (hline : P ms line)
    (hstep : ∀ {ms' : List Match} {m : Match} {pre w w' post post' : List Char},
      ms' ++ [m] <+: ms → line = pre ++ w ++ post →
      m.whole = ⟨pre.length, (pre ++ w).length⟩ →
      Takes (ofHazard h).pattern pre w post [] m.groups → Change l w w' →
      P (ms' ++ [m]) (pre ++ w ++ post') → P ms' (pre ++ w' ++ post')) :
    P [] ((ms.filterMap (edit? l h line)).foldr Edit.apply line) := by
  suffices hsplit : ∀ ms₂ ms₁ : List Match, ms = ms₁ ++ ms₂ →
      P ms₁ ((ms₂.filterMap (edit? l h line)).foldr Edit.apply line) from hsplit ms [] rfl
  intro ms₂
  induction ms₂ with
  | nil =>
    intro ms₁ hms₁
    rwa [← append_nil ms₁, ← hms₁]
  | cons m ms₂ ih =>
    intro ms₁ hms₁
    have hbehind := (pairwise_append.1 (hms₁ ▸ hms)).2.1
    have hmem {m' : Match} (hm' : m' ∈ m :: ms₂) : m' ∈ ms := hms₁ ▸ mem_append_right ms₁ hm'
    obtain ⟨pre, w, post, hcut, htakes, hwhole⟩ := hfound m (hmem mem_cons_self)
    obtain ⟨e, w', hedit, -, -, hchange, happly⟩ := replaces_of_takes hcan hconsole htakes
    rw [← hwhole, ← hcut] at hedit
    -- the edits behind `m` leave what it takes and all before as they are
    obtain ⟨post', hfold, -⟩ := foldr_edits (a := pre ++ w) (b := post) hcan hconsole hbehind.of_cons
      fun m' hm' ↦ ⟨hcut ▸ hfound m' (hmem (mem_cons_of_mem _ hm')),
        by simpa [hwhole] using rel_of_pairwise_cons hbehind hm'⟩
    rw [← hcut] at hfold
    have hrest := ih (ms₁ ++ [m]) (by simp [hms₁])
    rw [hfold] at hrest
    rw [filterMap_cons_some hedit, foldr_cons, hfold, happly]
    exact hstep ⟨ms₂, by simp [hms₁]⟩ hcut hwhole htakes hchange hrest

theorem eq_foldr_of_line? {line' : Line} (haws : h ≠ .awsAccessKey) (hconsole : h ≠ .consoleLog)
    (hline : line? l h line = some line') : line' = (edits l h line).foldr Edit.apply line := by
  have hedits : edits l h line ≠ [] := by
    intro hedits
    cases h <;> first | contradiction | simp [line?, hedits] at hline
  rw [line?_of_edits haws hconsole hedits] at hline
  exact (Option.some.inj hline).symm

/-- **From one replacement to all.** What each replacement keeps, given the matches that are still to
be replaced, holds of the fixed line. -/
theorem line?_induction {line' : Line} (hline : line? l h line = some line') (hcan : canFix h l)
    (hconsole : h ≠ .consoleLog) {P : List Match → Line → Prop}
    (hstart : P ((ofHazard h).placed l line) line)
    (hstep : ∀ {ms : List Match} {m : Match} {pre w w' post post' : List Char},
      ms ++ [m] <+: (ofHazard h).placed l line → (∀ m' ∈ ms, m'.whole.stop ≤ m.whole.start) →
      line = pre ++ w ++ post → m.whole = ⟨pre.length, (pre ++ w).length⟩ →
      Takes (ofHazard h).pattern pre w post [] m.groups → Change l w w' →
      P (ms ++ [m]) (pre ++ w ++ post') → P ms (pre ++ w' ++ post')) : P [] line' := by
  have haws : h ≠ .awsAccessKey := by
    rintro rfl
    cases hcan
  have hpairs := (pairwise_matches (ofHazard h).pattern line).filter
    ((ofHazard h).placement.allows line (l.commentStart line))
  rw [eq_foldr_of_line? haws hconsole hline]
  refine foldr_edits_induction hcan hconsole hpairs
    (fun m hm ↦ found_of_mem_matches (mem_of_mem_filter hm)) hstart fun hms ↦ ?_
  refine hstep hms fun m' hm' ↦ ?_
  exact (pairwise_append.1 (hpairs.sublist hms.sublist)).2.2 m' hm' _ (by simp)

/-! ## Fixed lines -/

theorem onLines_of_find?_eq_none {i : Nat} {lines : List Line} (hline : lines[i]? = some line)
    (hfind : (ofHazard h).find? l line = none) :
    onLines l h (i + 1) lines = (.notApplicable .patternGone, lines) := by
  obtain ⟨hi, rfl⟩ := List.getElem?_eq_some_iff.1 hline
  simp [onLines, onLine, hline, hfind]

end Fix

end Steward
