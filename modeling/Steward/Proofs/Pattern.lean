import Mathlib
import Steward.Pattern

/-!
# What a match is

`Pattern.run` tries one way to match after the other and asks a continuation about each. Every way
that it tries is one that `Pattern.Takes` describes: the pattern takes the text `w` that stands
between `pre` and `post`. The matches of a line are such texts, `Pattern.found_of_mem_matches`, and
each ends before the next one starts, `Pattern.pairwise_matches`. No such text is missed unless it
starts inside of a match, `Pattern.exists_match_of_takes`.
-/

namespace Steward

open Text (Line)
open List

/-! ## Cursors -/

namespace Cursor

/-- The cursor between two parts of a line. -/
def between (pre rest : List Char) (gs : List (Nat × Span)) : Cursor :=
  ⟨pre.length, pre.getLast?, rest, gs⟩

variable {pre rest : List Char} {gs : List (Nat × Span)} {c' : Cursor}
variable {k : CharClass}

theorem step_between (x : Char) (xs : List Char) :
    (between pre (x :: xs) gs).step x xs = between (pre ++ [x]) xs gs := by
  simp [step, between]

theorem skip?_between {xs : List Char} (h : (between pre rest gs).skip? xs = some c') :
    ∃ post, rest = xs ++ post ∧ c' = between (pre ++ xs) post gs := by
  induction xs generalizing pre rest with
  | nil =>
    cases h
    exact ⟨rest, rfl, by simp⟩
  | cons x xs ih =>
    cases rest with
    | nil => cases h
    | cons y ys =>
      change (if x = y then ((between pre (y :: ys) gs).step y ys).skip? xs else none) = some c' at h
      split_ifs at h with hxy
      subst hxy
      rw [step_between] at h
      obtain ⟨post, rfl, rfl⟩ := ih h
      exact ⟨post, rfl, by simp⟩

theorem skipTimes?_between {n : Nat} (h : (between pre rest gs).skipTimes? k n = some c') :
    ∃ w post, rest = w ++ post ∧ w.length = n ∧ (∀ x ∈ w, k.mem x) ∧
      c' = between (pre ++ w) post gs := by
  induction n generalizing pre rest with
  | zero =>
    cases h
    exact ⟨[], rest, rfl, rfl, by simp, by simp⟩
  | succ n ih =>
    cases rest with
    | nil => cases h
    | cons y ys =>
      change (if k.mem y then ((between pre (y :: ys) gs).step y ys).skipTimes? k n else none) =
        some c' at h
      split_ifs at h with hy
      rw [step_between] at h
      obtain ⟨w, post, rfl, rfl, hw, rfl⟩ := ih h
      exact ⟨y :: w, post, rfl, rfl, by simpa [hy] using hw, by simp⟩

theorem mem_along_between {seen : List Cursor} (h : c' ∈ along k rest (between pre rest gs) seen) :
    c' ∈ seen ∨ ∃ w post, rest = w ++ post ∧ (∀ x ∈ w, k.mem x) ∧
      c' = between (pre ++ w) post gs := by
  induction rest generalizing pre seen with
  | nil =>
    rcases mem_cons.1 h with rfl | h
    · exact .inr ⟨[], [], rfl, by simp, by simp⟩
    · exact .inl h
  | cons y ys ih =>
    have hstay (h : c' ∈ between pre (y :: ys) gs :: seen) : c' ∈ seen ∨
        ∃ w post, y :: ys = w ++ post ∧ (∀ x ∈ w, k.mem x) ∧ c' = between (pre ++ w) post gs := by
      rcases mem_cons.1 h with rfl | h
      · exact .inr ⟨[], y :: ys, rfl, by simp, by simp⟩
      · exact .inl h
    rw [along] at h
    split_ifs at h with hy
    · rw [step_between] at h
      rcases ih h with h | ⟨w, post, rfl, hw, rfl⟩
      · exact hstay h
      · exact .inr ⟨y :: w, post, rfl, by simpa [hy] using hw, by simp⟩
    · exact hstay h

/-! ### Moves that succeed -/

theorem skip?_append (xs post : List Char) :
    (between pre (xs ++ post) gs).skip? xs = some (between (pre ++ xs) post gs) := by
  induction xs generalizing pre with
  | nil => simp [skip?]
  | cons x xs ih =>
    change (if x = x then ((between pre (x :: (xs ++ post)) gs).step x (xs ++ post)).skip? xs
      else none) = _
    rw [if_pos rfl, step_between, ih, append_assoc, singleton_append]

theorem skipTimes?_append {k : CharClass} {w : List Char} (hw : ∀ x ∈ w, k.mem x)
    (post : List Char) :
    (between pre (w ++ post) gs).skipTimes? k w.length = some (between (pre ++ w) post gs) := by
  induction w generalizing pre with
  | nil => simp [skipTimes?]
  | cons x w ih =>
    change (if k.mem x then ((between pre (x :: (w ++ post)) gs).step x (w ++ post)).skipTimes? k
      w.length else none) = _
    rw [if_pos (hw x mem_cons_self), step_between,
      ih fun y hy ↦ hw y (mem_cons_of_mem _ hy), append_assoc, singleton_append]

theorem mem_along_of_mem_seen {c : Cursor} {seen : List Cursor} (h : c' ∈ c :: seen) :
    c' ∈ along k rest c seen := by
  induction rest generalizing c seen with
  | nil => exact h
  | cons y ys ih =>
    rw [along]
    split_ifs
    · exact ih (mem_cons_of_mem _ h)
    · exact h

theorem mem_along_append {w : List Char} (hw : ∀ x ∈ w, k.mem x) (post : List Char)
    (seen : List Cursor) :
    between (pre ++ w) post gs ∈ along k (w ++ post) (between pre (w ++ post) gs) seen := by
  induction w generalizing pre seen with
  | nil =>
    rw [append_nil]
    exact mem_along_of_mem_seen mem_cons_self
  | cons x w ih =>
    rw [cons_append, along, if_pos (hw x mem_cons_self), step_between]
    have hrest := @ih (pre ++ [x]) (fun y hy ↦ hw y (mem_cons_of_mem _ hy))
      (between pre (x :: (w ++ post)) gs :: seen)
    rwa [append_assoc, singleton_append] at hrest

end Cursor

namespace Pattern

open Cursor

/-! ## Ways to match -/

/-- The groups that were matched, latest first. -/
abbrev Groups := List (Nat × Span)

/-- Between `pre` and `post` the pattern may take the text `w`, and remembers groups on top of those
before. -/
inductive Takes : Pattern → (pre w post : List Char) → (before after : Groups) → Prop where
  | text (s : String) {pre post gs} : Takes (.text s) pre s.toList post gs gs
  | one {k x pre post gs} (hx : k.mem x) : Takes (.one k) pre [x] post gs gs
  | many {k w pre post gs} (hw : ∀ x ∈ w, k.mem x) : Takes (.many k) pre w post gs gs
  | many1 {k w pre post gs} (hne : w ≠ []) (hw : ∀ x ∈ w, k.mem x) :
      Takes (.many1 k) pre w post gs gs
  | times {k w pre post gs} (hw : ∀ x ∈ w, k.mem x) : Takes (.times w.length k) pre w post gs gs
  | edge {pre post gs} (h : pre.getLast?.any Text.isWord ≠ post.head?.any Text.isWord) :
      Takes .edge pre [] post gs gs
  | seq {p q pre u v post gs gs' gs''} (hp : Takes p pre u (v ++ post) gs gs')
      (hq : Takes q (pre ++ u) v post gs' gs'') : Takes (.seq p q) pre (u ++ v) post gs gs''
  | left {p q pre w post gs gs'} (h : Takes p pre w post gs gs') :
      Takes (.alt p q) pre w post gs gs'
  | right {p q pre w post gs gs'} (h : Takes q pre w post gs gs') :
      Takes (.alt p q) pre w post gs gs'
  | done {p pre post gs} : Takes (.star p) pre [] post gs gs
  | round {p pre u v post gs gs' gs''} (hp : Takes p pre u (v ++ post) gs gs')
      (hrest : Takes (.star p) (pre ++ u) v post gs' gs'') : Takes (.star p) pre (u ++ v) post gs gs''
  | group (n : Nat) {p pre w post gs gs'} (h : Takes p pre w post gs gs') :
      Takes (.group n p) pre w post gs ((n, ⟨pre.length, (pre ++ w).length⟩) :: gs')

variable {α : Type} {p : Pattern} {pre rest w post : List Char} {gs gs' : Groups} {m : Match}

/-- A way to match from a cursor on, after which the continuation succeeds. -/
def Tried {α : Type} (p : Pattern) (pre rest : List Char) (gs : Groups) (k : Cursor → Option α)
    (a : α) : Prop :=
  ∃ w post gs', rest = w ++ post ∧ Takes p pre w post gs gs' ∧
    k (between (pre ++ w) post gs') = some a

theorem tried_rounds {α : Type} {p : Pattern}
    (ih : ∀ {pre rest : List Char} {gs : Groups} {k : Cursor → Option α} {a : α},
      p.run (between pre rest gs) k = some a → Tried p pre rest gs k a)
    {fuel : Nat} {pre rest : List Char} {gs : Groups} {k : Cursor → Option α} {a : α}
    (h : rounds p.run fuel (between pre rest gs) k = some a) : Tried (.star p) pre rest gs k a := by
  induction fuel generalizing pre rest gs with
  | zero => exact ⟨[], rest, gs, rfl, .done, by simpa [rounds] using h⟩
  | succ fuel ihf =>
    rw [rounds, Option.orElse_eq_some] at h
    rcases h with h | ⟨-, h⟩
    · obtain ⟨u, rest, gs', rfl, hu, h⟩ := ih h
      dsimp only at h
      split_ifs at h
      obtain ⟨v, post, gs'', rfl, hv, hk⟩ := ihf h
      exact ⟨u ++ v, post, gs'', by simp, .round hu hv, by simpa using hk⟩
    · exact ⟨[], rest, gs, rfl, .done, by simpa using h⟩

/-- Matching finds only ways that there are. -/
theorem tried_of_run {k : Cursor → Option α} {a : α} (h : p.run (between pre rest gs) k = some a) :
    Tried p pre rest gs k a := by
  induction p generalizing pre rest gs k a with
  | text s =>
    obtain ⟨c', hc', hk⟩ := Option.bind_eq_some_iff.1 h
    obtain ⟨post, rfl, rfl⟩ := skip?_between hc'
    exact ⟨_, post, gs, rfl, .text s, hk⟩
  | one cls =>
    obtain ⟨c', hc', hk⟩ := Option.bind_eq_some_iff.1 h
    obtain ⟨w, post, rfl, hlen, hw, rfl⟩ := skipTimes?_between hc'
    obtain ⟨x, rfl⟩ := length_eq_one_iff.1 hlen
    exact ⟨[x], post, gs, rfl, .one (hw x (by simp)), hk⟩
  | many cls =>
    obtain ⟨c', hc', hk⟩ := exists_of_findSome?_eq_some h
    obtain hc' | ⟨w, post, rfl, hw, rfl⟩ := mem_along_between hc'
    · cases hc'
    · exact ⟨w, post, gs, rfl, .many hw, hk⟩
  | many1 cls =>
    obtain ⟨c₁, hc₁, h⟩ := Option.bind_eq_some_iff.1 h
    obtain ⟨u, rest, rfl, hlen, hu, rfl⟩ := skipTimes?_between hc₁
    obtain ⟨c', hc', hk⟩ := exists_of_findSome?_eq_some h
    obtain hc' | ⟨v, post, rfl, hv, rfl⟩ := mem_along_between hc'
    · cases hc'
    · obtain ⟨x, rfl⟩ := length_eq_one_iff.1 hlen
      refine ⟨x :: v, post, gs, rfl, .many1 (by simp) ?_, by simpa using hk⟩
      rintro y (_ | ⟨_, hy⟩)
      · exact hu x (by simp)
      · exact hv y hy
  | times n cls =>
    obtain ⟨c', hc', hk⟩ := Option.bind_eq_some_iff.1 h
    obtain ⟨w, post, rfl, rfl, hw, rfl⟩ := skipTimes?_between hc'
    exact ⟨w, post, gs, rfl, .times hw, hk⟩
  | edge =>
    rw [run] at h
    split_ifs at h with hedge
    exact ⟨[], rest, gs, rfl, .edge (by simpa [atEdge, between] using hedge), by simpa using h⟩
  | seq p q ihp ihq =>
    obtain ⟨u, rest, gs', rfl, hu, h⟩ := ihp h
    obtain ⟨v, post, gs'', rfl, hv, hk⟩ := ihq h
    exact ⟨u ++ v, post, gs'', by simp, .seq hu hv, by simpa using hk⟩
  | alt p q ihp ihq =>
    rw [run, Option.orElse_eq_some] at h
    rcases h with h | ⟨-, h⟩
    · obtain ⟨w, post, gs', rfl, hw, hk⟩ := ihp h
      exact ⟨w, post, gs', rfl, .left hw, hk⟩
    · obtain ⟨w, post, gs', rfl, hw, hk⟩ := ihq h
      exact ⟨w, post, gs', rfl, .right hw, hk⟩
  | star p ih => exact tried_rounds ih h
  | group n p ih =>
    obtain ⟨w, post, gs', rfl, hw, hk⟩ := ih h
    exact ⟨w, post, _, rfl, .group n hw, hk⟩

/-! ## All ways are tried -/

/-- The continuation succeeds past a text, whatever was remembered. -/
def Goes {α : Type} (k : Cursor → Option α) (pre post : List Char) : Prop :=
  ∀ gs, (k (between pre post gs)).isSome

/-- Every way to match is tried, as long as nothing depends on the groups. -/
theorem run_isSome_of_takes (h : Takes p pre w post gs gs') {k : Cursor → Option α}
    (hk : Goes k (pre ++ w) post) : Goes (p.run · k) pre (w ++ post) := by
  induction p generalizing pre w post gs gs' k with
  | text s =>
    cases h
    intro gs
    simpa [run, skip?_append] using hk gs
  | one cls =>
    cases h with
    | @one _ x _ _ _ hx =>
      intro gs
      have hskip := @skipTimes?_append pre gs cls [x] (by simpa using hx) post
      rw [length_singleton] at hskip
      simpa only [run, hskip, Option.bind_some] using hk gs
  | many cls =>
    cases h with
    | many hw =>
      intro gs
      exact findSome?_isSome_iff.2 ⟨_, mem_along_append hw post [], hk gs⟩
  | many1 cls =>
    cases h with
    | many1 hne hw =>
      intro gs
      obtain ⟨x, v, rfl⟩ := exists_cons_of_ne_nil hne
      have hskip := @skipTimes?_append pre gs cls [x] (by simpa using hw x mem_cons_self)
        (v ++ post)
      rw [length_singleton, singleton_append] at hskip
      simp only [run, cons_append, hskip, Option.bind_some]
      refine findSome?_isSome_iff.2 ⟨_, mem_along_append
        (fun y hy ↦ hw y (mem_cons_of_mem _ hy)) post [], ?_⟩
      simpa using hk gs
  | times n cls =>
    cases h with
    | times hw =>
      intro gs
      simpa only [run, skipTimes?_append hw, Option.bind_some] using hk gs
  | edge =>
    cases h with
    | edge hedge =>
      intro gs
      have hat : (between pre post gs).atEdge = true := by simpa [atEdge, between] using hedge
      simpa [run, hat] using hk gs
  | seq p q ihp ihq =>
    cases h with
    | seq hp hq =>
      rw [append_assoc]
      rw [← append_assoc] at hk
      exact ihp hp (ihq hq hk)
  | alt p q ihp ihq =>
    intro gs
    change (p.run _ k <|> q.run _ k).isSome
    rw [Option.orElse_eq_orElse, Option.orElse_eq_or, Option.isSome_or, Bool.or_eq_true]
    cases h with
    | left h => exact .inl (ihp h hk gs)
    | right h => exact .inr (ihq h hk gs)
  | star p ih =>
    have hrounds (fuel : Nat) (hfuel : w.length ≤ fuel) :
        Goes (rounds p.run fuel · k) pre (w ++ post) := by
      generalize hs : Pattern.star p = s at h
      induction h generalizing fuel with
      | done =>
        intro gs
        rw [append_nil] at hk
        cases fuel with
        | zero => exact hk gs
        | succ fuel =>
          change ((p.run _ _) <|> k (between _ _ gs)).isSome
          rw [Option.orElse_eq_orElse, Option.orElse_eq_or, Option.isSome_or, Bool.or_eq_true]
          exact .inr (hk gs)
      | @round _ pre u v post _ _ _ hround hrest _ ihrest =>
        cases hs
        rw [← append_assoc] at hk
        by_cases hu : u = []
        · subst hu
          rw [append_nil] at hk ihrest
          exact ihrest hk fuel hfuel rfl
        · obtain ⟨fuel, rfl⟩ : ∃ n, fuel = n + 1 :=
            Nat.exists_eq_add_one.2 ((length_pos_iff.2 (by simp [hu])).trans_le hfuel)
          intro gs
          have hlen : v.length ≤ fuel := by
            have hpos := length_pos_iff.2 hu
            rw [length_append] at hfuel
            omega
          change ((p.run _ _) <|> k _).isSome
          rw [Option.orElse_eq_orElse, Option.orElse_eq_or, Option.isSome_or, Bool.or_eq_true, append_assoc]
          refine .inl (ih hround (fun gs ↦ ?_) gs)
          rw [if_neg (by simpa [between] using hu)]
          exact ihrest hk fuel hlen rfl gs
      | _ => cases hs
    intro gs
    refine hrounds _ ?_ gs
    simp [between]
  | group n p ih =>
    cases h with
    | group _ h =>
      have hremembered : Goes (fun c ↦ k { c with groups := (n, ⟨pre.length, c.index⟩) :: c.groups })
          (pre ++ w) post := fun gs ↦ hk _
      exact ih h hremembered

/-! ## The matches of a line -/

/-- The match is a text in the line that the pattern may take. -/
def Found (p : Pattern) (line : Line) (m : Match) : Prop :=
  ∃ pre w post, line = pre ++ w ++ post ∧ Takes p pre w post [] m.groups ∧
    m.whole = ⟨pre.length, (pre ++ w).length⟩

theorem found_of_matchAt?
    (h : p.matchAt? { index := pre.length, before := pre.getLast?, rest } = some m) :
    ∃ w post, rest = w ++ post ∧ Takes p pre w post [] m.groups ∧
      m.whole = ⟨pre.length, (pre ++ w).length⟩ := by
  have hrun : p.run (between pre rest []) (fun c ↦ some ⟨⟨pre.length, c.index⟩, c.groups⟩) = some m := h
  obtain ⟨w, post, gs, rfl, hw, hm⟩ := tried_of_run hrun
  cases hm
  exact ⟨w, post, rfl, hw, rfl⟩

theorem mem_matchesFrom (pre : List Char) {skip : Nat}
    (h : m ∈ p.matchesFrom pre.length pre.getLast? skip rest) :
    p.Found (pre ++ rest) m ∧ pre.length + skip ≤ m.whole.start := by
  induction rest generalizing pre skip with
  | nil => cases skip <;> simp [matchesFrom] at h
  | cons x xs ih =>
    have hnext {skip : Nat} (h : m ∈ p.matchesFrom (pre.length + 1) (some x) skip xs) :
        p.Found (pre ++ x :: xs) m ∧ pre.length + 1 + skip ≤ m.whole.start := by
      have h' := @ih (pre ++ [x]) skip (by simpa using h)
      simpa using h'
    cases skip with
    | succ skip =>
      obtain ⟨hfound, hle⟩ := hnext h
      exact ⟨hfound, by omega⟩
    | zero =>
      rw [matchesFrom] at h
      split at h
      · rename_i m' hm'
        rcases mem_cons.1 h with rfl | h
        · obtain ⟨w, post, hrest, hw, hwhole⟩ := found_of_matchAt? hm'
          refine ⟨⟨pre, w, post, by simp [hrest], hw, hwhole⟩, by simp [hwhole]⟩
        · obtain ⟨hfound, hle⟩ := hnext h
          exact ⟨hfound, by omega⟩
      · obtain ⟨hfound, hle⟩ := hnext h
        exact ⟨hfound, by omega⟩

theorem found_of_mem_matches {line : Line} (h : m ∈ p.matches line) : p.Found line m :=
  (mem_matchesFrom [] h).1

theorem pairwise_matchesFrom (p : Pattern) (pre rest : List Char) (skip : Nat) :
    (p.matchesFrom pre.length pre.getLast? skip rest).Pairwise
      fun m m' ↦ m.whole.stop ≤ m'.whole.start := by
  induction rest generalizing pre skip with
  | nil => cases skip <;> simp [matchesFrom]
  | cons x xs ih =>
    have hnext (skip : Nat) : (p.matchesFrom (pre.length + 1) (some x) skip xs).Pairwise
        fun m m' ↦ m.whole.stop ≤ m'.whole.start := by
      simpa using ih (pre ++ [x]) skip
    cases skip with
    | succ skip => exact hnext skip
    | zero =>
      rw [matchesFrom]
      split
      · rename_i m hm
        refine pairwise_cons.2 ⟨fun m' hm' ↦ ?_, hnext _⟩
        have hle := (mem_matchesFrom (pre ++ [x]) (by simpa using hm')).2
        obtain ⟨w, post, -, -, hwhole⟩ := found_of_matchAt? hm
        rw [hwhole] at hle ⊢
        simp only [length_append, length_singleton] at hle ⊢
        omega
      · exact hnext 0

/-- Matches do not overlap. -/
theorem pairwise_matches (p : Pattern) (line : Line) :
    (p.matches line).Pairwise fun m m' ↦ m.whole.stop ≤ m'.whole.start :=
  pairwise_matchesFrom p [] line 0

theorem matchAt?_isSome_of_takes (h : Takes p pre w post gs gs') :
    (p.matchAt? { index := pre.length, before := pre.getLast?, rest := w ++ post }).isSome :=
  run_isSome_of_takes h (k := fun c ↦ some (⟨⟨pre.length, c.index⟩, c.groups⟩ : Match))
    (fun _ ↦ rfl) []

theorem exists_mem_matchesFrom {a s : List Char} {skip : Nat} (h : Takes p (a ++ s) w post gs gs')
    (hw : w ≠ []) (hskip : skip ≤ s.length) :
    ∃ m ∈ p.matchesFrom a.length a.getLast? skip (s ++ w ++ post),
      m.whole.start ≤ (a ++ s).length ∧
        (m.whole.start = (a ++ s).length ∨ (a ++ s).length < m.whole.stop) := by
  induction s generalizing a skip with
  | nil =>
    obtain rfl : skip = 0 := Nat.le_zero.1 hskip
    rw [append_nil] at h
    obtain ⟨m, hm⟩ := Option.isSome_iff_exists.1 (matchAt?_isSome_of_takes h)
    obtain ⟨x, xs, rfl⟩ := exists_cons_of_ne_nil hw
    obtain ⟨_, _, -, -, hwhole⟩ := found_of_matchAt? hm
    refine ⟨m, ?_, by simp [hwhole], .inl (by simp [hwhole])⟩
    rw [nil_append, cons_append, matchesFrom]
    rw [cons_append] at hm
    rw [hm]
    exact mem_cons_self
  | cons x s ih =>
    have hnext {skip : Nat} (hskip : skip ≤ s.length) :
        ∃ m ∈ p.matchesFrom (a.length + 1) (some x) skip (s ++ w ++ post),
          m.whole.start ≤ (a ++ x :: s).length ∧
            (m.whole.start = (a ++ x :: s).length ∨ (a ++ x :: s).length < m.whole.stop) := by
      have hrest := @ih (a ++ [x]) skip (by simpa using h) hskip
      simpa using hrest
    cases skip with
    | succ skip => exact hnext (Nat.le_of_succ_le_succ hskip)
    | zero =>
      rw [cons_append, cons_append, matchesFrom]
      split
      · rename_i m hm
        obtain ⟨u, rest, -, -, hwhole⟩ := found_of_matchAt? hm
        by_cases hlt : (a ++ x :: s).length < m.whole.stop
        · exact ⟨m, mem_cons_self, by simp [hwhole], .inr hlt⟩
        · have hskip : m.whole.stop - m.whole.start - 1 ≤ s.length := by
            rw [hwhole] at hlt ⊢
            simp only [length_append, length_cons] at hlt ⊢
            omega
          obtain ⟨m', hm', hstart, hstop⟩ := hnext hskip
          exact ⟨m', mem_cons_of_mem _ hm', hstart, hstop⟩
      · exact hnext (Nat.zero_le _)

/-- What the pattern may take starts inside of a match or where one starts. -/
theorem exists_match_of_takes (h : Takes p pre w post gs gs') (hw : w ≠ []) :
    ∃ m ∈ p.matches (pre ++ w ++ post), m.whole.start ≤ pre.length ∧
      (m.whole.start = pre.length ∨ pre.length < m.whole.stop) :=
  exists_mem_matchesFrom (a := []) h hw (Nat.zero_le _)

end Pattern

end Steward
