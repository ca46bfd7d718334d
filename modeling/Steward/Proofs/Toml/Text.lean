import Mathlib
import Steward.Toml.Text

/-!
# Texts in TOML are read back

Whatever form a text is written in, its characters stand inside the quotes one after the other, each
as it is or as an escape; up to two quotes in a row may stay in a string over several lines. That is
`Toml.Inside`, and it is all that the readers need: `Toml.readString_stringText`.
-/

namespace Steward.Toml

open List

/-! ## Escapes -/

/-- Characters that stand for `c` after a backslash. -/
structure Escape (c : Char) (es : List Char) : Prop where
  reads : ∀ rest, readEscape (es ++ rest) = some (c, rest)
  /-- The backslash does not stand at the end of a line. -/
  stays : ∀ rest, continued? (es ++ rest) = none

theorem continued?_cons {e : Char} (h : e ∉ [' ', '\t', '\n', '\r']) (cs : List Char) :
    continued? (e :: cs) = none := by
  simp only [mem_cons, not_mem_nil, or_false, not_or] at h
  obtain ⟨hblank, htab, hfeed, hreturn⟩ := h
  have hskip : skipWs (e :: cs) = e :: cs := by simp [skipWs, isWs, hblank, htab]
  have hbreak : newline? (e :: cs) = none := by simp [newline?, hfeed, hreturn]
  rw [continued?, hskip, hbreak]

theorem escape_quote : Escape '"' ['"'] := ⟨fun _ ↦ rfl, continued?_cons (by decide)⟩

theorem escape_backslash : Escape '\\' ['\\'] := ⟨fun _ ↦ rfl, continued?_cons (by decide)⟩

theorem hexValue?_hexDigit (n : Nat) : hexValue? (hexDigit n) = some (n % 16) := by
  have h : ∀ m < 16, hexValue? (Nat.digitChar m).toUpper = some m := by decide
  exact h _ (Nat.mod_lt _ (by decide))

theorem escape_unicode {c : Char} (h : c.toNat < 256) :
    Escape c ['u', '0', '0', hexDigit (c.toNat / 16), hexDigit c.toNat] where
  reads rest := by
    have hzero : hexValue? '0' = some 0 := by decide
    have hnumber : c.toNat / 16 % 16 * 16 + c.toNat % 16 = c.toNat := by omega
    have hchar : charOf? c.toNat = some c := by
      rw [charOf?, if_pos (.inl (by omega)), Char.ofNat_toNat]
    simp [readEscape, readHex, hexValue?_hexDigit, hzero, hnumber, hchar]
  stays _ := continued?_cons (by decide) _

/-- A control character has an escape. -/
theorem exists_controlEscape {c : Char} (h : c.toNat < 256) :
    ∃ es, controlEscape c = '\\' :: es ∧ Escape c es := by
  unfold controlEscape
  split
  case h_6 => exact ⟨_, rfl, escape_unicode h⟩
  all_goals exact ⟨_, rfl, fun _ ↦ rfl, continued?_cons (by decide)⟩

theorem toNat_lt_of_not_isPlain {c : Char} (h : c = '\t' ∨ isPlain c = false) : c.toNat < 256 := by
  obtain rfl | h := h
  · decide
  · simp only [isPlain, Bool.or_eq_false_iff, Bool.and_eq_false_iff, decide_eq_false_iff_not] at h
    omega

/-! ## Inside the quotes -/

/-- What stands between the quotes of a string for a text, after a run of quotes that belong to the
text. Line breaks may stand in a string over several lines only, and backslashes as they are in a
literal string only. -/
inductive Inside (quote : Char) (multi : Bool) (allowed : Nat) :
    Nat → List Char → List Char → Prop where
  | nil (run : Nat) : Inside quote multi allowed run [] []
  | quoted {run : Nat} {cs text : List Char} (h : run < allowed)
      (rest : Inside quote multi allowed (run + 1) cs text) :
      Inside quote multi allowed run (quote :: cs) (quote :: text)
  | escape {run : Nat} {c : Char} {es cs text : List Char} (hquote : quote = '"')
      (h : Escape c es) (rest : Inside quote multi allowed 0 cs text) :
      Inside quote multi allowed run (c :: cs) ('\\' :: (es ++ text))
  | plain {run : Nat} {c : Char} {cs text : List Char} (hc : isPlain c) (hquote : c ≠ quote)
      (hback : quote = '"' → c ≠ '\\') (rest : Inside quote multi allowed 0 cs text) :
      Inside quote multi allowed run (c :: cs) (c :: text)
  | newline {run : Nat} {cs text : List Char} (hmulti : multi)
      (rest : Inside quote multi allowed 0 cs text) :
      Inside quote multi allowed run ('\n' :: cs) ('\n' :: text)

/-- The writer of basic strings. -/
theorem inside_escaped (multi : Bool) (allowed run : Nat) (cs : List Char) :
    Inside '"' multi allowed run cs (escaped multi allowed run cs) := by
  induction cs generalizing run with
  | nil => exact .nil run
  | cons c cs ih =>
    rw [escaped]
    split_ifs with hquote hrun hback hbreak hcontrol
    · subst hquote
      exact .quoted hrun (ih _)
    · subst hquote
      exact .escape rfl escape_quote (ih 0)
    · subst hback
      exact .escape rfl escape_backslash (ih 0)
    · obtain ⟨hc, hmulti⟩ : c = '\n' ∧ multi := by simpa using hbreak
      subst hc
      exact .newline hmulti (ih 0)
    · have hc : c = '\t' ∨ isPlain c = false := by simpa using hcontrol
      obtain ⟨es, hes, hescape⟩ := exists_controlEscape (toNat_lt_of_not_isPlain hc)
      rw [hes]
      exact .escape rfl hescape (ih 0)
    · have hc : c ≠ '\t' ∧ isPlain c := by simpa using hcontrol
      exact .plain hc.2 hquote (fun _ ↦ hback) (ih 0)

theorem le_longestRun (q : Char) (run best : Nat) (cs : List Char) :
    best ≤ longestRun q run best cs := by
  induction cs generalizing run best with
  | nil => exact le_rfl
  | cons c cs ih =>
    rw [longestRun]
    split_ifs
    · exact (le_max_left _ _).trans (ih _ _)
    · exact ih _ _

/-- A literal string holds the text as it is. -/
theorem inside_raw {multi : Bool} {allowed run best : Nat} {cs : List Char}
    (hplain : ∀ c ∈ cs, isPlain c ∨ c = '\n' ∧ multi)
    (hruns : longestRun '\x27' run best cs ≤ allowed) : Inside '\x27' multi allowed run cs cs := by
  induction cs generalizing run best with
  | nil => exact .nil run
  | cons c cs ih =>
    rw [forall_mem_cons] at hplain
    obtain ⟨hc, hcs⟩ := hplain
    rw [longestRun] at hruns
    split_ifs at hruns with hquote
    · subst hquote
      have hrun : run + 1 ≤ allowed :=
        (le_max_right _ _).trans ((le_longestRun '\x27' _ _ cs).trans hruns)
      exact .quoted hrun (ih hcs hruns)
    · obtain hc | ⟨rfl, hmulti⟩ := hc
      · exact .plain hc hquote (by simp) (ih hcs hruns)
      · exact .newline hmulti (ih hcs hruns)

namespace Inside

variable {quote : Char} {multi : Bool} {allowed run : Nat} {cs text : List Char}

theorem length_le (h : Inside quote multi allowed run cs text) : cs.length ≤ text.length := by
  induction h with
  | nil => exact le_rfl
  | quoted _ _ ih | plain _ _ _ _ ih | newline _ _ ih => exact Nat.succ_le_succ ih
  | escape _ _ _ ih =>
    simp only [length_cons, length_append]
    omega

/-! ## Strings on one line -/

theorem readBasic_append (h : Inside '"' false 0 run cs text) {fuel : Nat} (hf : cs.length < fuel)
    (done rest : List Char) :
    readBasic fuel done (text ++ '"' :: rest) = some (done.reverse ++ cs, rest) := by
  induction h generalizing fuel done with
  | nil =>
    obtain ⟨fuel, rfl⟩ := Nat.exists_eq_add_one_of_ne_zero (Nat.ne_zero_of_lt hf)
    simp [readBasic]
  | quoted hrun => exact absurd hrun (Nat.not_lt_zero _)
  | newline hmulti => cases hmulti
  | escape _ hescape _ ih =>
    obtain ⟨fuel, rfl⟩ := Nat.exists_eq_add_one_of_ne_zero (Nat.ne_zero_of_lt hf)
    have hrest := ih (by simpa using hf : _ < fuel)
    rw [cons_append, append_assoc, readBasic, hescape.reads]
    simp [hrest]
  | plain hc hquote hback _ ih =>
    obtain ⟨fuel, rfl⟩ := Nat.exists_eq_add_one_of_ne_zero (Nat.ne_zero_of_lt hf)
    rw [cons_append, readBasic, if_neg hquote, if_neg (hback rfl), if_pos hc,
      ih (by simpa using hf)]
    simp

theorem readLiteral_append (h : Inside '\x27' false 0 run cs text) (done rest : List Char) :
    readLiteral done (text ++ '\x27' :: rest) = some (done.reverse ++ cs, rest) := by
  induction h generalizing done with
  | nil => simp [readLiteral]
  | quoted hrun => exact absurd hrun (Nat.not_lt_zero _)
  | newline hmulti => cases hmulti
  | escape hquote => cases hquote
  | plain hc hquote _ _ ih =>
    rw [cons_append, readLiteral, if_neg hquote, if_pos hc, ih]
    simp

end Inside

/-! ## Strings over several lines -/

section Multi

variable {quote : Char} {done rest : List Char} {k : Nat}

theorem length_takeWhile_run {cs : List Char} (k : Nat) (h : cs.head? ≠ some quote) :
    ((List.replicate k quote ++ cs).takeWhile (· = quote)).length = k := by
  rw [takeWhile_append_of_pos (by simp [mem_replicate])]
  cases cs with
  | nil => simp
  | cons c cs =>
    have hc : c ≠ quote := by simpa using h
    simp [hc]

/-- A run of quotes that is too short to end the string belongs to the text. -/
theorem exists_readMulti_run {c : Char} (hc : c ≠ quote) (hk : k ≤ 2) {n fuel : Nat}
    (hf : k + n < fuel) (done cs : List Char) :
    ∃ fuel', n < fuel' ∧ readMulti quote fuel done (List.replicate k quote ++ c :: cs) =
      readMulti quote fuel' (List.replicate k quote ++ done) (c :: cs) := by
  cases k with
  | zero => exact ⟨fuel, by omega, rfl⟩
  | succ k =>
    obtain ⟨fuel, rfl⟩ := Nat.exists_eq_add_one_of_ne_zero (Nat.ne_zero_of_lt hf)
    have hrun := @length_takeWhile_run quote (c :: cs) (k + 1) (by simpa using hc)
    refine ⟨fuel, by omega, ?_⟩
    rw [replicate_succ, cons_append] at hrun ⊢
    have hdrop : (quote :: (List.replicate k quote ++ c :: cs)).drop (k + 1) = c :: cs := by
      rw [drop_succ_cons, drop_left' (by simp)]
    rw [readMulti, if_pos rfl, hrun, if_pos (by omega), hdrop, replicate_succ]

/-- Three quotes end the string; up to two before them belong to the text. -/
theorem readMulti_close (hk : k ≤ 2) (hrest : rest.head? ≠ some quote) (fuel : Nat)
    (done : List Char) :
    readMulti quote (fuel + 1) done
        (List.replicate k quote ++ quote :: quote :: quote :: rest) =
      some (done.reverse ++ List.replicate k quote, rest) := by
  have hquotes : List.replicate k quote ++ quote :: quote :: quote :: rest =
      List.replicate (k + 3) quote ++ rest := by
    rw [replicate_add, append_assoc]
    rfl
  have hrun := length_takeWhile_run (k + 3) hrest
  have hdrop : (List.replicate (k + 3) quote ++ rest).drop (k + 3) = rest :=
    drop_left' (by simp)
  rw [hquotes]
  rw [replicate_succ, cons_append] at hrun hdrop ⊢
  rw [readMulti, if_pos rfl, hrun, if_neg (by omega), if_pos (by omega), hdrop]
  simp

theorem readMulti_plain {c : Char} (hc : isPlain c) (hquote : c ≠ quote)
    (hback : quote = '"' → c ≠ '\\') (fuel : Nat) (done cs : List Char) :
    readMulti quote (fuel + 1) done (c :: cs) = readMulti quote fuel (c :: done) cs := by
  have hescape : (c = '\\' && quote = '"') = false := by
    simpa using fun h hq ↦ hback hq h
  have hbreak : newline? (c :: cs) = none := by
    have hfeed : c ≠ '\n' := by rintro rfl; exact absurd hc (by decide)
    have hreturn : c ≠ '\r' := by rintro rfl; exact absurd hc (by decide)
    simp [newline?, hfeed, hreturn]
  rw [readMulti, if_neg hquote, hescape, hbreak]
  simp [hc]

theorem readMulti_newline (hquote : quote = '"' ∨ quote = '\x27') (fuel : Nat)
    (done cs : List Char) :
    readMulti quote (fuel + 1) done ('\n' :: cs) = readMulti quote fuel ('\n' :: done) cs := by
  rw [readMulti]
  obtain rfl | rfl := hquote <;> simp [newline?]

theorem readMulti_escape {c : Char} {es : List Char} (h : Escape c es) (fuel : Nat)
    (done cs : List Char) :
    readMulti '"' (fuel + 1) done ('\\' :: (es ++ cs)) = readMulti '"' fuel (c :: done) cs := by
  rw [readMulti, if_neg (by decide), if_pos (by decide), h.stays, h.reads]

/-- A character behind a run of quotes that is too short to end the string. -/
theorem exists_readMulti_unit {c d : Char} (unit : List Char) (hd : d ≠ quote)
    (hread : ∀ fuel done more, readMulti quote (fuel + 1) done (d :: (unit ++ more)) =
      readMulti quote fuel (c :: done) more)
    (hk : k ≤ 2) {n fuel : Nat} (hf : k + (n + 1) < fuel) (done more : List Char) :
    ∃ fuel', n < fuel' ∧ readMulti quote fuel done (List.replicate k quote ++ d :: (unit ++ more)) =
      readMulti quote fuel' (c :: (List.replicate k quote ++ done)) more := by
  obtain ⟨fuel', hf', hrun⟩ := exists_readMulti_run hd hk hf done (unit ++ more)
  obtain ⟨fuel', rfl⟩ := Nat.exists_eq_add_one_of_ne_zero (Nat.ne_zero_of_lt hf')
  exact ⟨fuel', by omega, hrun.trans (hread _ _ _)⟩

/-- The induction is on what is inside; a run of quotes is held back until it is known what ends
it. -/
theorem Inside.readMulti_append (hquote : quote = '"' ∨ quote = '\x27') {cs text : List Char}
    (h : Inside quote true 2 k cs text) (hk : k ≤ 2) {fuel : Nat} (hf : k + cs.length < fuel)
    (hrest : rest.head? ≠ some quote) (done : List Char) :
    readMulti quote fuel done
        (List.replicate k quote ++ (text ++ quote :: quote :: quote :: rest)) =
      some (done.reverse ++ List.replicate k quote ++ cs, rest) := by
  induction h generalizing fuel done with
  | nil =>
    obtain ⟨fuel, rfl⟩ := Nat.exists_eq_add_one_of_ne_zero (Nat.ne_zero_of_lt hf)
    simpa using readMulti_close hk hrest fuel done
  | @quoted run cs text hrun _ ih =>
    have hrun' : List.replicate run quote ++ (quote :: text ++ quote :: quote :: quote :: rest) =
        List.replicate (run + 1) quote ++ (text ++ quote :: quote :: quote :: rest) := by
      rw [replicate_succ']
      simp
    rw [hrun', ih (by omega) (by simp only [length_cons] at hf; omega), replicate_succ']
    simp
  | @escape run c es cs text hbasic hescape _ ih =>
    subst hbasic
    obtain ⟨fuel', hf', hread⟩ := exists_readMulti_unit es (by decide) (readMulti_escape hescape)
      hk hf done (text ++ '"' :: '"' :: '"' :: rest)
    have hnext := ih (Nat.zero_le _) (by omega : 0 + cs.length < fuel')
    simp only [cons_append, append_assoc, hread]
    simpa using hnext (c :: (List.replicate run '"' ++ done))
  | @plain run c cs text hc hne hback _ ih =>
    obtain ⟨fuel', hf', hread⟩ := exists_readMulti_unit [] hne
      (readMulti_plain hc hne hback) hk hf done (text ++ quote :: quote :: quote :: rest)
    have hnext := ih (Nat.zero_le _) (by omega : 0 + cs.length < fuel')
    rw [cons_append, ← nil_append (text ++ _), hread]
    simpa using hnext (c :: (List.replicate run quote ++ done))
  | @newline run cs text _ _ ih =>
    have hne : '\n' ≠ quote := by obtain rfl | rfl := hquote <;> decide
    obtain ⟨fuel', hf', hread⟩ := exists_readMulti_unit [] hne
      (readMulti_newline hquote) hk hf done (text ++ quote :: quote :: quote :: rest)
    have hnext := ih (Nat.zero_le _) (by omega : 0 + cs.length < fuel')
    rw [cons_append, ← nil_append (text ++ _), hread]
    simpa using hnext ('\n' :: (List.replicate run quote ++ done))

end Multi

/-! ## Strings of any form -/

variable {rest : List Char}

/-- What may come behind a string: no further quote. -/
def Unquoted (rest : List Char) : Prop := ∀ c ∈ rest.head?, c ≠ '"' ∧ c ≠ '\x27'

theorem Unquoted.head?_ne (h : Unquoted rest) {quote : Char} (hquote : quote = '"' ∨ quote = '\x27') :
    rest.head? ≠ some quote := by
  intro hhead
  obtain rfl | rfl := hquote
  · exact (h _ hhead).1 rfl
  · exact (h _ hhead).2 rfl

theorem Inside.readString_basic {cs text : List Char} (h : Inside '"' false 0 0 cs text)
    (hrest : Unquoted rest) : readString ('"' :: (text ++ '"' :: rest)) = some (cs, rest) := by
  have hbasic : readString ('"' :: (text ++ '"' :: rest)) =
      readBasic (text ++ '"' :: rest).length [] (text ++ '"' :: rest) := by
    cases h with
    | nil =>
      cases rest with
      | nil => rfl
      | cons c rest =>
        have hc := (hrest c rfl).1
        simp [readString, hc]
    | quoted hrun => cases hrun
    | escape => rfl
    | plain _ hquote => simp [readString, hquote]
    | newline hmulti => cases hmulti
  have hlength := h.length_le
  rw [hbasic, h.readBasic_append (by simp only [length_append, length_cons]; omega)]
  rfl

theorem Inside.readString_literal {cs text : List Char} (h : Inside '\x27' false 0 0 cs text)
    (hrest : Unquoted rest) : readString ('\x27' :: (text ++ '\x27' :: rest)) = some (cs, rest) := by
  have hliteral : readString ('\x27' :: (text ++ '\x27' :: rest)) =
      readLiteral [] (text ++ '\x27' :: rest) := by
    cases h with
    | nil =>
      cases rest with
      | nil => rfl
      | cons c rest =>
        have hc := (hrest c rfl).2
        simp [readString, hc]
    | quoted hrun => cases hrun
    | escape hquote => cases hquote
    | plain _ hquote => simp [readString, hquote]
    | newline hmulti => cases hmulti
  rw [hliteral, h.readLiteral_append]
  rfl

/-- A line break behind the opening quotes does not count, and one is there if the text could be
taken for one. -/
theorem Inside.dropBreak_append {quote : Char} (hquote : quote = '"' ∨ quote = '\x27')
    {cs text : List Char} (h : Inside quote true 2 0 cs text) :
    dropBreak ((if cs.contains '\n' then ['\n'] else []) ++ (text ++ quote :: quote :: quote :: rest)) =
      text ++ quote :: quote :: quote :: rest := by
  split_ifs with hbreak
  · rfl
  · have hnone {d : Char} (hfeed : d ≠ '\n') (hreturn : d ≠ '\r') (ds : List Char) :
        dropBreak (d :: ds) = d :: ds := by
      simp [dropBreak, newline?, hfeed, hreturn]
    have hquote' : quote ≠ '\n' ∧ quote ≠ '\r' := by obtain rfl | rfl := hquote <;> decide
    rw [nil_append]
    cases h with
    | nil | quoted => exact hnone hquote'.1 hquote'.2 _
    | escape => exact hnone (by decide) (by decide) _
    | plain hc =>
      refine hnone ?_ ?_ _ <;> (rintro rfl; exact absurd hc (by decide))
    | newline => simp at hbreak

theorem Inside.readString_multi {quote : Char} (hquote : quote = '"' ∨ quote = '\x27')
    {cs text : List Char} (h : Inside quote true 2 0 cs text) (hrest : Unquoted rest) :
    readString ([quote, quote, quote] ++ (if cs.contains '\n' then ['\n'] else []) ++ text ++
      [quote, quote, quote] ++ rest) = some (cs, rest) := by
  have hopen (more : List Char) : readString (quote :: quote :: quote :: more) =
      readMulti quote (more.length + 1) [] (dropBreak more) := by
    obtain rfl | rfl := hquote <;> rfl
  have hlength := h.length_le
  simp only [cons_append, append_assoc, nil_append]
  rw [hopen, h.dropBreak_append hquote]
  refine (h.readMulti_append hquote (Nat.zero_le _) ?_ (hrest.head?_ne hquote) []).trans (by simp)
  simp only [length_append]
  omega

theorem formOf_literal {d : Demands} (h : formOf d = .literal) :
    d.controls = false ∧ d.singleQuotes = 0 ∧ d.newline = false := by
  rw [formOf] at h
  split_ifs at h with _ hliteral
  simpa [and_assoc] using hliteral

theorem formOf_multiLiteral {d : Demands} (h : formOf d = .multiLiteral) :
    d.controls = false ∧ d.singleQuotes ≤ 2 := by
  rw [formOf] at h
  split_ifs at h with _ _ _ hliteral
  simpa using hliteral

theorem plain_of_controls {cs : List Char} (h : (demands cs).controls = false) :
    ∀ c ∈ cs, isPlain c ∨ c = '\n' := by
  intro c hc
  have hnot := any_eq_false.1 h c hc
  by_cases hfeed : c = '\n'
  · exact .inr hfeed
  · exact .inl (by simpa [hfeed] using hnot)

/-- **A text is read back** from whatever form it was written in. -/
theorem readString_stringText (cs : List Char) (hrest : Unquoted rest) :
    readString (stringText cs ++ rest) = some (cs, rest) := by
  have hbasic : readString ('"' :: (escaped false 0 0 cs ++ ['"']) ++ rest) = some (cs, rest) := by
    simpa using (inside_escaped false 0 0 cs).readString_basic hrest
  have hmulti := (inside_escaped true 2 0 cs).readString_multi (.inl rfl) hrest
  rw [stringText]
  cases hform : formOf (demands cs) with
  | basic => exact hbasic
  | multiBasic => exact hmulti
  | literal =>
    obtain ⟨hcontrols, hquotes, hbreak⟩ := formOf_literal hform
    have hplain : ∀ c ∈ cs, isPlain c ∨ c = '\n' ∧ false = true := by
      refine fun c hc ↦ .inl ((plain_of_controls hcontrols c hc).resolve_right ?_)
      rintro rfl
      exact absurd (contains_iff_mem.2 hc) (by simpa [demands] using hbreak)
    simpa using (inside_raw hplain hquotes.le).readString_literal hrest
  | multiLiteral =>
    obtain ⟨hcontrols, hquotes⟩ := formOf_multiLiteral hform
    have hplain : ∀ c ∈ cs, isPlain c ∨ c = '\n' ∧ true = true := fun c hc ↦
      (plain_of_controls hcontrols c hc).imp_right fun hfeed ↦ ⟨hfeed, rfl⟩
    exact (inside_raw hplain hquotes).readString_multi (.inr rfl) hrest

end Steward.Toml
