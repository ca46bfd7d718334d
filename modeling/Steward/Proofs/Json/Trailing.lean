import Steward.Proofs.Json.ReadBack

/-!
# A carriage return at the end

A line that was cut off after a `CR` keeps it, and loses it once the line is ended by `LF`. No
reader is disturbed by that: it reads the same value, or none, with the `CR` there or not. `Steady`
says so of one reader. The readers that count down know of the text's length only, so a steady reader
does not leave more than it was given either.
-/

namespace Steward.Json.Reader

open List

variable {cs w : List Char} {m n : Nat}

/-- What is read of a text without and with a `CR` after it: nothing, or the same value, and fewer
than `n` characters are left. -/
def Alike {α : Type} (n : Nat) (x y : Option (α × List Char)) : Prop :=
  x = none ∧ y = none ∨
    ∃ a rest, rest.length < n ∧ x = some (a, rest) ∧ y = some (a, rest ++ ['\r'])

/-- The same of what is passed over. -/
def AlikeRest (n : Nat) (x y : Option (List Char)) : Prop :=
  x = none ∧ y = none ∨ ∃ rest, rest.length < n ∧ x = some rest ∧ y = some (rest ++ ['\r'])

/-- A reader that a `CR` after the text does not disturb. -/
def Steady {α : Type} (read : List Char → Option (α × List Char)) : Prop :=
  ∀ cs, Alike (cs.length + 1) (read cs) (read (cs ++ ['\r']))

def SteadySkip (skip : List Char → Option (List Char)) : Prop :=
  ∀ cs, AlikeRest (cs.length + 1) (skip cs) (skip (cs ++ ['\r']))

section Combinators

variable {α β : Type} {m n : Nat} {f : List Char → Option (α × List Char)}
  {k : List Char → Option (List Char)}

theorem alike_none : Alike (α := α) n none none := .inl ⟨rfl, rfl⟩

theorem alike_some {a : α} {rest : List Char} (h : rest.length < n) :
    Alike n (some (a, rest)) (some (a, rest ++ ['\r'])) := .inr ⟨a, rest, h, rfl, rfl⟩

theorem Alike.mono {x y : Option (α × List Char)} (h : Alike m x y) (hmn : m ≤ n) : Alike n x y :=
  h.imp_right fun ⟨a, rest, hlt, heq⟩ ↦ ⟨a, rest, hlt.trans_le hmn, heq⟩

theorem alikeRest_none : AlikeRest n none none := .inl ⟨rfl, rfl⟩

theorem alikeRest_some {rest : List Char} (h : rest.length < n) :
    AlikeRest n (some rest) (some (rest ++ ['\r'])) := .inr ⟨rest, h, rfl, rfl⟩

theorem AlikeRest.mono {x y : Option (List Char)} (h : AlikeRest m x y) (hmn : m ≤ n) :
    AlikeRest n x y := h.imp_right fun ⟨rest, hlt, heq⟩ ↦ ⟨rest, hlt.trans_le hmn, heq⟩

theorem AlikeRest.bind {g : List Char → Option (List Char)} {x y : Option (List Char)}
    (h : AlikeRest m x y) (hg : SteadySkip g) : AlikeRest m (x.bind g) (y.bind g) := by
  obtain ⟨rfl, rfl⟩ | ⟨rest, hlt, rfl, rfl⟩ := h
  · exact alikeRest_none
  · exact (hg rest).mono hlt

theorem Steady.bind {g : α → List Char → Option (β × List Char)} (h : Steady f)
    (hg : ∀ a, Steady (g a)) : Steady fun cs ↦ (f cs).bind fun p ↦ g p.1 p.2 := by
  intro cs
  dsimp only
  obtain ⟨hr, hr'⟩ | ⟨a, rest, hlt, hr, hr'⟩ := h cs <;> rw [hr, hr']
  · exact alike_none
  · exact (hg a rest).mono hlt

theorem Steady.map (h : Steady f) (g : α → β) : Steady fun cs ↦ (f cs).map fun p ↦ (g p.1, p.2) := by
  intro cs
  dsimp only
  obtain ⟨hr, hr'⟩ | ⟨a, rest, hlt, hr, hr'⟩ := h cs <;> rw [hr, hr']
  · exact alike_none
  · exact alike_some hlt

theorem SteadySkip.bind {g : List Char → Option (β × List Char)} (h : SteadySkip k)
    (hg : Steady g) : Steady fun cs ↦ (k cs).bind g := by
  intro cs
  dsimp only
  obtain ⟨hr, hr'⟩ | ⟨rest, hlt, hr, hr'⟩ := h cs <;> rw [hr, hr']
  · exact alike_none
  · exact (hg rest).mono hlt

theorem SteadySkip.map (h : SteadySkip k) (a : α) :
    Steady fun cs ↦ (k cs).map fun rest ↦ (a, rest) := by
  intro cs
  dsimp only
  obtain ⟨hr, hr'⟩ | ⟨rest, hlt, hr, hr'⟩ := h cs <;> rw [hr, hr']
  · exact alike_none
  · exact alike_some hlt

end Combinators

/-! ## Space -/

/-- After the space there is nothing, and a `CR` is not left either; or there is a character. -/
theorem skipSpace_cases (cs : List Char) :
    skipSpace cs = [] ∧ skipSpace (cs ++ ['\r']) = [] ∨
      ∃ c rest, rest.length < cs.length ∧ skipSpace cs = c :: rest ∧
        skipSpace (cs ++ ['\r']) = c :: (rest ++ ['\r']) := by
  induction cs with
  | nil => exact .inl ⟨rfl, rfl⟩
  | cons d cs ih =>
    by_cases hd : isSpace d = true
    · simp only [skipSpace, cons_append, dropWhile_cons, hd, if_true] at ih ⊢
      obtain ih | ⟨c, rest, hlt, heq⟩ := ih
      · exact .inl ih
      · exact .inr ⟨c, rest, hlt.trans (Nat.lt_succ_self _), heq⟩
    · refine .inr ⟨d, cs, Nat.lt_succ_self _, ?_, ?_⟩ <;> simp [skipSpace, hd]

theorem alikeRest_expect (c : Char) (cs : List Char) :
    AlikeRest cs.length (expect c cs) (expect c (cs ++ ['\r'])) := by
  obtain ⟨hs, hs'⟩ | ⟨d, rest, hlt, hs, hs'⟩ := skipSpace_cases cs <;> rw [expect, expect, hs, hs']
  · exact alikeRest_none
  · dsimp only
    split_ifs
    · exact alikeRest_some hlt
    · exact alikeRest_none

theorem steadySkip_expect (c : Char) : SteadySkip (expect c) := fun cs ↦
  (alikeRest_expect c cs).mono (Nat.le_succ _)

/-! ## Strings -/

theorem steady_readHex4 : Steady readHex4 := by
  intro cs
  have hcr : hexValue? '\r' = none := by decide
  match cs with
  | [] | [a] | [a, b] => exact alike_none
  | [a, b, c] =>
    simp only [cons_append, nil_append, readHex4, hcr]
    cases hexValue? a <;> cases hexValue? b <;> cases hexValue? c <;> exact alike_none
  | a :: b :: c :: d :: rest =>
    simp only [cons_append, readHex4]
    cases hexValue? a <;> cases hexValue? b <;> cases hexValue? c <;> cases hexValue? d <;>
      first
      | exact alike_none
      | exact alike_some (by simp only [length_cons]; omega)

theorem steady_readUnicode : Steady readUnicode := by
  intro cs
  simp only [readUnicode]
  obtain ⟨h, h'⟩ | ⟨n, rest, hlt, h, h'⟩ := steady_readHex4 cs <;> rw [h, h']
  · exact alike_none
  simp only [Option.bind_eq_bind, Option.bind_some]
  split_ifs
  · exact alike_none
  · -- The second half of a surrogate pair stands after a backslash and a `u`.
    rcases rest with _ | ⟨c, _ | ⟨d, rest⟩⟩
    · exact alike_none
    · by_cases hc : c = '\\' <;> simp [hc, Alike]
    · by_cases hpair : c = '\\' ∧ d = 'u'
      · obtain ⟨rfl, rfl⟩ := hpair
        simp only [cons_append]
        obtain ⟨h, h'⟩ | ⟨m, tail, hlt', h, h'⟩ := steady_readHex4 rest <;> rw [h, h']
        · exact alike_none
        · simp only [Option.bind_some]
          simp only [length_cons] at hlt
          split_ifs
          · exact alike_some (by omega)
          · exact alike_none
      · by_cases hc : c = '\\' <;> simp_all [Alike]
  · exact alike_some hlt

/-- Neither a `CR` nor more fuel changes what is read of a string. -/
theorem alike_readStringFrom (hm : cs.length < m) (hn : cs.length ≤ n) (done : List Char) :
    Alike cs.length (readStringFrom n done cs) (readStringFrom m done (cs ++ ['\r'])) := by
  induction hl : cs.length using Nat.strong_induction_on generalizing cs m n done with
  | _ l ih =>
    obtain ⟨m, rfl⟩ : ∃ k, m = k + 1 := ⟨m - 1, by omega⟩
    cases cs with
    | nil => cases n <;> exact alike_none
    | cons c cs =>
      simp only [length_cons] at hm hn hl
      obtain ⟨n, rfl⟩ : ∃ k, n = k + 1 := ⟨n - 1, by omega⟩
      have next {rest : List Char} (h : rest.length < l) (done : List Char) :
          Alike l (readStringFrom n done rest) (readStringFrom m done (rest ++ ['\r'])) :=
        (ih _ h (by omega) (by omega) done rfl).mono h.le
      simp only [cons_append, readStringFrom]
      split_ifs with h₁ h₂ h₃
      · exact alike_some (by omega)
      · -- After a backslash a `CR` is no escape, so a text that ends there is refused either way.
        cases cs with
        | nil => exact alike_none
        | cons e rest =>
          simp only [length_cons] at hl
          by_cases he : e = 'u'
          · subst he
            simp only [cons_append]
            obtain ⟨h, h'⟩ | ⟨d, tail, hlt, h, h'⟩ := steady_readUnicode rest <;> rw [h, h']
            · exact alike_none
            · exact next (by omega) _
          · simp only [cons_append]
            cases simpleEscape? e with
            | none => exact alike_none
            | some d => exact next (by omega) _
      · exact alike_none
      · exact next (by omega) _

theorem steady_readString : Steady readString := by
  intro cs
  obtain ⟨hs, hs'⟩ | ⟨c, rest, hlt, hs, hs'⟩ := skipSpace_cases cs
  · simp only [readString, hs, hs']
    exact alike_none
  · by_cases hc : c = '"'
    · subst hc
      simp only [readString, hs, hs']
      exact (alike_readStringFrom (by simp) le_rfl []).mono (by omega)
    · simp [readString, hs, hs', hc, Alike]

/-! ## Words and counts -/

theorem isPrefixOf_append_cr (hw : '\r' ∉ w) (cs : List Char) :
    w.isPrefixOf (cs ++ ['\r']) = w.isPrefixOf cs := by
  induction w generalizing cs with
  | nil => simp
  | cons c w ih =>
    simp only [mem_cons, not_or] at hw
    cases cs with
    | nil => simp [List.isPrefixOf, Ne.symm hw.1]
    | cons d cs => simp only [cons_append, List.isPrefixOf, ih hw.2]

theorem alikeRest_readWord (hw : '\r' ∉ w) (hne : w ≠ []) (cs : List Char) :
    AlikeRest cs.length (readWord w cs) (readWord w (cs ++ ['\r'])) := by
  rw [readWord, readWord, isPrefixOf_append_cr hw]
  split_ifs with h
  · have hle : w.length ≤ cs.length := (List.isPrefixOf_iff_prefix.1 h).length_le
    have hpos := length_pos_iff.2 hne
    rw [drop_append_of_le_length hle]
    exact alikeRest_some (by rw [length_drop]; omega)
  · exact alikeRest_none

/-- A word may have space before it. -/
theorem alikeRest_spacedWord (hw : '\r' ∉ w) (hne : w ≠ []) (cs : List Char) :
    AlikeRest (cs.length + 1) (readWord w (skipSpace cs)) (readWord w (skipSpace (cs ++ ['\r']))) := by
  obtain ⟨hs, hs'⟩ | ⟨c, rest, hlt, hs, hs'⟩ := skipSpace_cases cs <;> rw [hs, hs']
  · cases w with
    | nil => exact absurd rfl hne
    | cons d w => exact alikeRest_none
  · exact (alikeRest_readWord hw hne (c :: rest)).mono (by rw [length_cons]; omega)

theorem steady_readBool : Steady readBool := by
  intro cs
  simp only [readBool]
  obtain ⟨h, h'⟩ | ⟨rest, hlt, h, h'⟩ :=
    alikeRest_spacedWord (w := "true".toList) (by decide) (by decide) cs <;> rw [h, h']
  · exact SteadySkip.map (alikeRest_spacedWord (by decide) (by decide)) false cs
  · exact alike_some hlt

theorem dropWhile_isDigit_append_cr (cs : List Char) :
    (cs ++ ['\r']).takeWhile Char.isDigit = cs.takeWhile Char.isDigit ∧
      (cs ++ ['\r']).dropWhile Char.isDigit = cs.dropWhile Char.isDigit ++ ['\r'] := by
  induction cs with
  | nil => decide
  | cons c cs ih =>
    by_cases hc : c.isDigit
    · simp [hc, ih]
    · simp [hc]

/-- What follows a number is no part of it, be it nothing or a `CR`. -/
theorem head?_any_append_cr {p : Char → Bool} (hp : p '\r' = false) (rest : List Char) :
    (rest ++ ['\r']).head?.any p = rest.head?.any p := by
  cases rest with
  | nil => simp [hp]
  | cons c rest => rfl

theorem steady_readCount : Steady readCount := by
  intro cs
  simp only [readCount]
  -- With nothing left after the space there is no digit, with a `CR` or without.
  obtain ⟨hs, hs'⟩ | ⟨c, rest, hlt, hs, hs'⟩ := skipSpace_cases cs
  · simp [hs, hs', Alike]
  · obtain ⟨ht, hd⟩ := dropWhile_isDigit_append_cr (c :: rest)
    have hle := (dropWhile_suffix Char.isDigit (l := c :: rest)).length_le
    rw [length_cons] at hle
    rw [hs, hs', ← cons_append, ht, hd,
      head?_any_append_cr (p := fun c ↦ ['.', 'e', 'E'].contains c) (by decide)]
    split_ifs
    · exact alike_none
    · exact alike_some (by omega)

/-! ## Values that may be missing, lists, objects -/

section Items

variable {α : Type} {f : List Char → Option (α × List Char)}

theorem Steady.option (h : Steady f) : Steady (readOption f) := by
  intro cs
  rw [readOption, readOption]
  obtain ⟨hw, hw'⟩ | ⟨rest, hlt, hw, hw'⟩ :=
    alikeRest_spacedWord (w := "null".toList) (by decide) (by decide) cs <;> rw [hw, hw']
  · exact h.map some cs
  · exact alike_some hlt

theorem alike_readMore (hf : Steady f) (close : Char) {cs : List Char} {m n : Nat}
    (hm : cs.length < m) (hn : cs.length ≤ n) (done : List α) :
    Alike cs.length (readMore f close n done cs) (readMore f close m done (cs ++ ['\r'])) := by
  induction hl : cs.length using Nat.strong_induction_on generalizing cs m n done with
  | _ l ih =>
    obtain ⟨m, rfl⟩ : ∃ k, m = k + 1 := ⟨m - 1, by omega⟩
    obtain ⟨hs, hs'⟩ | ⟨c, rest, hlt, hs, hs'⟩ := skipSpace_cases cs
    · cases n <;> simp [readMore, hs, hs', Alike]
    · obtain ⟨n, rfl⟩ : ∃ k, n = k + 1 := ⟨n - 1, by omega⟩
      rw [readMore, readMore, hs, hs']
      dsimp only
      split_ifs with h₁ h₂
      · exact alike_some (by omega)
      · obtain ⟨hr, hr'⟩ | ⟨a, tail, hle, hr, hr'⟩ := hf rest <;> rw [hr, hr']
        · exact alike_none
        · exact (ih tail.length (by omega) (by omega) (by omega) _ rfl).mono (by omega)
      · exact alike_none

theorem Steady.items (hf : Steady f) (opening close : Char) :
    Steady (readItems f opening close) := by
  refine (steadySkip_expect opening).bind fun rest ↦ ?_
  obtain ⟨h, h'⟩ | ⟨after, hlt, h, h'⟩ := steadySkip_expect close rest <;> rw [h, h']
  · exact hf.bind (g := fun a rest ↦ readMore f close rest.length [a] rest)
      (fun a tail ↦ (alike_readMore hf close (by simp) le_rfl _).mono (Nat.le_succ _)) rest
  · exact alike_some hlt

theorem Steady.field {g : String → List Char → Option (α × List Char)} (h : ∀ k, Steady (g k)) :
    Steady (readField g) :=
  steady_readString.bind fun k ↦ (steadySkip_expect ':').bind (h k)

end Items

/-! ## Values that are passed over -/

theorem alikeRest_skipString (hm : cs.length < m) (hn : cs.length ≤ n) :
    AlikeRest cs.length (skipString n cs) (skipString m (cs ++ ['\r'])) := by
  induction hl : cs.length using Nat.strong_induction_on generalizing cs m n with
  | _ l ih =>
    obtain ⟨m, rfl⟩ : ∃ k, m = k + 1 := ⟨m - 1, by omega⟩
    cases cs with
    | nil => cases n <;> exact alikeRest_none
    | cons c cs =>
      simp only [length_cons] at hm hn hl
      obtain ⟨n, rfl⟩ : ∃ k, n = k + 1 := ⟨n - 1, by omega⟩
      have next {rest : List Char} (h : rest.length < l) :
          AlikeRest l (skipString n rest) (skipString m (rest ++ ['\r'])) :=
        (ih _ h (by omega) (by omega) rfl).mono h.le
      simp only [cons_append, skipString]
      split_ifs with h₁ h₂ h₃
      · exact alikeRest_some (by omega)
      · cases cs with
        | nil => exact alikeRest_none
        | cons e rest =>
          simp only [length_cons] at hl
          by_cases he : e = 'u'
          · subst he
            simp only [cons_append]
            obtain ⟨h, h'⟩ | ⟨d, tail, hlt, h, h'⟩ := steady_readHex4 rest <;> rw [h, h']
            · exact alikeRest_none
            · exact next (by omega)
          · simp only [cons_append]
            split_ifs
            · exact next (by omega)
            · exact alikeRest_none
      · exact alikeRest_none
      · exact next (by omega)

theorem alikeRest_skipDigits (cs : List Char) :
    AlikeRest cs.length (skipDigits cs) (skipDigits (cs ++ ['\r'])) := by
  rw [skipDigits, skipDigits, head?_any_append_cr (by decide), (dropWhile_isDigit_append_cr cs).2]
  split_ifs with hd
  · cases cs with
    | nil => simp at hd
    | cons c cs =>
      have hc : c.isDigit := by simpa using hd
      have hle := (dropWhile_suffix Char.isDigit (l := cs)).length_le
      rw [dropWhile_cons, if_pos hc]
      exact alikeRest_some (by rw [length_cons]; omega)
  · exact alikeRest_none

/-- A number after its sign. -/
def unsigned (cs : List Char) : List Char := if cs.head? = some '-' then cs.drop 1 else cs

/-- Passes over the digits before the point. -/
def skipWhole (cs : List Char) : Option (List Char) :=
  match cs with
  | '0' :: rest => if rest.head?.any Char.isDigit then none else some rest
  | _ => skipDigits cs

/-- Passes over the point and the digits after it. -/
def skipFraction (cs : List Char) : Option (List Char) :=
  if cs.head? = some '.' then skipDigits (cs.drop 1) else some cs

/-- An exponent after its sign. -/
def unsignedExponent (cs : List Char) : List Char :=
  if cs.head? = some '+' || cs.head? = some '-' then cs.drop 1 else cs

/-- Passes over an exponent. -/
def skipExponent (cs : List Char) : Option (List Char) :=
  match cs with
  | c :: rest => if c = 'e' || c = 'E' then skipDigits (unsignedExponent rest) else some cs
  | [] => some cs

theorem skipFraction_bind (cs : List Char) :
    (if cs.head? = some '.' then (skipDigits (cs.drop 1)).bind skipExponent
      else (some cs).bind skipExponent) = (skipFraction cs).bind skipExponent := by
  unfold skipFraction
  split_ifs <;> rfl

/-- A number is passed over part by part. -/
theorem skipNumber_eq (cs : List Char) :
    skipNumber cs =
      (skipWhole (unsigned cs)).bind fun cs ↦ (skipFraction cs).bind skipExponent := by
  simp only [← skipFraction_bind]
  change (match unsigned cs with
    | '0' :: rest => if rest.head?.any Char.isDigit then none else _
    | _ => _) = _
  unfold skipWhole
  split
  · split_ifs <;> rfl
  · rfl

theorem unsigned_append_cr (cs : List Char) :
    (unsigned cs).length ≤ cs.length ∧ unsigned (cs ++ ['\r']) = unsigned cs ++ ['\r'] := by
  cases cs with
  | nil => exact ⟨le_rfl, rfl⟩
  | cons c cs => by_cases h : c = '-' <;> simp [unsigned, h]

theorem unsignedExponent_append_cr (cs : List Char) :
    (unsignedExponent cs).length ≤ cs.length ∧
      unsignedExponent (cs ++ ['\r']) = unsignedExponent cs ++ ['\r'] := by
  cases cs with
  | nil => exact ⟨le_rfl, rfl⟩
  | cons c cs => by_cases h : c = '+' ∨ c = '-' <;> simp [unsignedExponent, h]

theorem alikeRest_skipWhole (cs : List Char) :
    AlikeRest cs.length (skipWhole cs) (skipWhole (cs ++ ['\r'])) := by
  cases cs with
  | nil => exact alikeRest_none
  | cons c cs =>
    by_cases h : c = '0'
    · subst h
      simp only [skipWhole, cons_append,
        head?_any_append_cr (show Char.isDigit '\r' = false by decide)]
      split_ifs
      · exact alikeRest_none
      · exact alikeRest_some (Nat.lt_succ_self _)
    · have hdigits := alikeRest_skipDigits (c :: cs)
      simpa [skipWhole, h] using hdigits

theorem steadySkip_skipFraction : SteadySkip skipFraction := by
  intro cs
  cases cs with
  | nil => exact alikeRest_some Nat.one_pos
  | cons c cs =>
    by_cases h : c = '.'
    · have hdigits := (alikeRest_skipDigits cs).mono (Nat.le_add_right cs.length 2)
      simpa [skipFraction, h] using hdigits
    · simp [skipFraction, h, AlikeRest]

theorem steadySkip_skipExponent : SteadySkip skipExponent := by
  intro cs
  cases cs with
  | nil => exact alikeRest_some Nat.one_pos
  | cons c cs =>
    obtain ⟨hle, happend⟩ := unsignedExponent_append_cr cs
    simp only [skipExponent, cons_append, happend]
    split_ifs
    · exact (alikeRest_skipDigits _).mono (by rw [length_cons]; omega)
    · exact alikeRest_some (Nat.lt_succ_self _)

theorem alikeRest_skipNumber (cs : List Char) :
    AlikeRest cs.length (skipNumber cs) (skipNumber (cs ++ ['\r'])) := by
  obtain ⟨hle, happend⟩ := unsigned_append_cr cs
  rw [skipNumber_eq, skipNumber_eq, happend]
  refine ((alikeRest_skipWhole _).mono hle).bind fun cs ↦ ?_
  exact (steadySkip_skipFraction cs).bind steadySkip_skipExponent

theorem alikeRest_skipScalar (cs : List Char) :
    AlikeRest cs.length (skipScalar cs) (skipScalar (cs ++ ['\r'])) := by
  cases cs with
  | nil => exact alikeRest_none
  | cons c cs =>
    by_cases h₁ : c = '"'
    · subst h₁
      exact (alikeRest_skipString (by simp) le_rfl).mono (Nat.le_succ _)
    by_cases h₂ : c = 'n'
    · subst h₂
      exact alikeRest_readWord (w := "null".toList) (by decide) (by decide) _
    by_cases h₃ : c = 't'
    · subst h₃
      exact alikeRest_readWord (w := "true".toList) (by decide) (by decide) _
    by_cases h₄ : c = 'f'
    · subst h₄
      exact alikeRest_readWord (w := "false".toList) (by decide) (by decide) _
    have hnumber := alikeRest_skipNumber (c :: cs)
    simpa [skipScalar, h₁, h₂, h₃, h₄] using hnumber

theorem steadySkip_skipName (inObject : Bool) : SteadySkip (skipName inObject) := by
  intro cs
  cases inObject with
  | false => exact alikeRest_some (Nat.lt_succ_self _)
  | true =>
    obtain ⟨hs, hs'⟩ | ⟨c, tail, hlt, hs, hs'⟩ := skipSpace_cases cs
    · simp only [skipName, hs, hs', if_true]
      exact alikeRest_none
    · by_cases hc : c = '"'
      · subst hc
        simp only [skipName, hs, hs', if_true, Option.bind_eq_bind]
        exact ((alikeRest_skipString (by simp) le_rfl).mono (by omega)).bind (steadySkip_expect ':')
      · simp [skipName, hs, hs', hc, AlikeRest]

/-- The steps left at most: before a first item there may be one that takes no character. -/
def stepsLeft (awaiting : Awaiting) (cs : List Char) : Nat :=
  2 * cs.length + (if awaiting = .first then 1 else 0)

theorem skipFrom_scalar {cs rest : List Char} {c : Char} (hs : skipSpace cs = c :: rest)
    (h₁ : c ≠ '[') (h₂ : c ≠ '\x7b') (n : Nat) (open_ : List Bool) :
    skipFrom (n + 1) open_ .value cs =
      match skipScalar (c :: rest) with
      | some rest => if open_.isEmpty then some rest else skipFrom n open_ .next rest
      | none => none := by
  rw [skipFrom, hs]
  split
  · exact absurd (List.cons.inj ‹_›).1 h₁
  · exact absurd (List.cons.inj ‹_›).1 h₂
  · rfl

theorem alikeRest_skipFrom {open_ : List Bool} {awaiting : Awaiting}
    (hm : stepsLeft awaiting cs + 2 < m) (hn : stepsLeft awaiting cs < n) :
    AlikeRest (cs.length + 1) (skipFrom n open_ awaiting cs)
      (skipFrom m open_ awaiting (cs ++ ['\r'])) := by
  induction hl : stepsLeft awaiting cs using Nat.strong_induction_on
    generalizing cs open_ awaiting m n with
  | _ l ih =>
    obtain ⟨m, rfl⟩ : ∃ k, m = k + 1 := ⟨m - 1, by omega⟩
    obtain ⟨n, rfl⟩ : ∃ k, n = k + 1 := ⟨n - 1, by omega⟩
    -- What is passed over next is shorter, so it takes fewer steps whatever is awaited there.
    have step {open' : List Bool} {awaiting' : Awaiting} {rest : List Char}
        (h : stepsLeft awaiting' rest < stepsLeft awaiting cs) :
        AlikeRest (cs.length + 1) (skipFrom n open' awaiting' rest)
          (skipFrom m open' awaiting' (rest ++ ['\r'])) := by
      refine (ih _ (by omega) (by omega) (by omega) rfl).mono ?_
      simp only [stepsLeft] at h
      split_ifs at h <;> omega
    have close {outer : List Bool} {rest : List Char} (h : rest.length < cs.length) :
        AlikeRest (cs.length + 1) (if outer.isEmpty then some rest else skipFrom n outer .next rest)
          (if outer.isEmpty then some (rest ++ ['\r'])
            else skipFrom m outer .next (rest ++ ['\r'])) := by
      split_ifs
      · exact alikeRest_some (by omega)
      · exact step (by simp only [stepsLeft]; split_ifs <;> omega)
    have named {inObject : Bool} {open' : List Bool} {t : List Char}
        (h : 2 * t.length < stepsLeft awaiting cs) :
        AlikeRest (cs.length + 1)
          (match skipName inObject t with
            | some rest => skipFrom n open' .value rest
            | none => none)
          (match skipName inObject (t ++ ['\r']) with
            | some rest => skipFrom m open' .value rest
            | none => none) := by
      obtain ⟨hk, hk'⟩ | ⟨rest, hlt, hk, hk'⟩ := steadySkip_skipName inObject t <;> rw [hk, hk']
      · exact alikeRest_none
      · exact step (by simp only [stepsLeft, reduceCtorEq, if_false] at h ⊢; omega)
    obtain ⟨hs, hs'⟩ | ⟨c, rest, hlt, hs, hs'⟩ := skipSpace_cases cs
    · cases awaiting with
      | value =>
        simp only [skipFrom, hs, hs']
        exact alikeRest_none
      | first | next =>
        cases open_ with
        | nil => exact alikeRest_none
        | cons inObject outer =>
          simp only [skipFrom, hs, hs']
          exact alikeRest_none
    cases awaiting with
    | value =>
      by_cases h₁ : c = '['
      · subst h₁
        simp only [skipFrom, hs, hs']
        exact step (by simp [stepsLeft]; omega)
      by_cases h₂ : c = '\x7b'
      · subst h₂
        simp only [skipFrom, hs, hs']
        exact step (by simp [stepsLeft]; omega)
      rw [skipFrom_scalar hs' h₁ h₂, skipFrom_scalar hs h₁ h₂, ← cons_append]
      obtain ⟨hk, hk'⟩ | ⟨tail, hle, hk, hk'⟩ := alikeRest_skipScalar (c :: rest) <;> rw [hk, hk']
      · exact alikeRest_none
      · rw [length_cons] at hle
        exact close (by omega)
    | first | next =>
      cases open_ with
      | nil => exact alikeRest_none
      | cons inObject outer =>
        simp only [skipFrom, hs, hs', reduceCtorEq, if_true, if_false]
        by_cases h₁ : c = (if inObject = true then '\x7d' else ']')
        · rw [if_pos h₁, if_pos h₁]
          exact close hlt
        rw [if_neg h₁, if_neg h₁]
        first
        | exact named (t := c :: rest) (by simp only [stepsLeft, if_true, length_cons]; omega)
        | by_cases h₂ : c = ','
          · rw [if_pos h₂, if_pos h₂]
            exact named (by simp only [stepsLeft, reduceCtorEq, if_false]; omega)
          · rw [if_neg h₂, if_neg h₂]
            exact alikeRest_none

theorem steadySkip_skipValue : SteadySkip skipValue := by
  intro cs
  refine alikeRest_skipFrom ?_ ?_ <;> simp [stepsLeft]

end Steward.Json.Reader
