import Mathlib
import Steward.Json.Reader

/-!
# Reading back what was written

Each reader gives back the value that a text was written for, and leaves what follows it alone. What
follows must not go on where the value ends: after a number no digit may come. In a compact text a
value is followed by a comma, by a closing bracket or by nothing, which `Json.Ends` says.
-/

namespace Steward.Json

open List

/-- A text before which a value has ended. -/
def Ends (cs : List Char) : Prop := ∀ c ∈ cs.head?, c = ',' ∨ c = ']' ∨ c = '\x7d'

@[simp]
theorem ends_nil : Ends [] := by simp [Ends]

@[simp]
theorem ends_comma (cs : List Char) : Ends (',' :: cs) := by simp [Ends]

@[simp]
theorem ends_bracket (cs : List Char) : Ends (']' :: cs) := by simp [Ends]

@[simp]
theorem ends_brace (cs : List Char) : Ends ('\x7d' :: cs) := by simp [Ends]

theorem Ends.not_isDigit {rest : List Char} (h : Ends rest) :
    ∀ c ∈ rest.head?, c.isDigit = false := by
  intro c hc
  rcases h c hc with rfl | rfl | rfl <;> decide

namespace Reader

variable {c : Char} {n : Nat}

theorem skipSpace_cons (h : isSpace c = false) (cs : List Char) :
    skipSpace (c :: cs) = c :: cs := by
  simp [skipSpace, h]

/-! ## Strings -/

theorem hexValue?_hexDigit (n : Nat) : hexValue? (hexDigit n) = some (n % 16) := by
  have h : ∀ m < 16, hexValue? (Nat.digitChar m) = some m := by decide
  exact h _ (Nat.mod_lt _ (by decide))

theorem readUnicode_control (h : c.toNat < 0x20) (rest : List Char) :
    readUnicode ('0' :: '0' :: hexDigit (c.toNat / 16) :: hexDigit c.toNat :: rest) =
      some (c, rest) := by
  have h₀ : hexValue? '0' = some 0 := by decide
  have hn : c.toNat / 16 % 16 * 16 + c.toNat % 16 = c.toNat := by omega
  have h₁ : ¬ 0xDC00 ≤ c.toNat := by omega
  have h₂ : ¬ 0xD800 ≤ c.toNat := by omega
  simp [readUnicode, readHex4, hexValue?_hexDigit, h₀, hn, h₁, h₂]

/-- An escaped character is read as that character. -/
theorem readStringFrom_escapeChar (fuel : Nat) (done : List Char) (c : Char) (rest : List Char) :
    readStringFrom (fuel + 1) done (escapeChar c ++ rest) =
      readStringFrom fuel (c :: done) rest := by
  unfold escapeChar
  split
  case h_8 h₁ h₂ _ _ _ _ _ =>
    split_ifs with hc
    · simp [readStringFrom, readUnicode_control hc]
    · have hq : c ≠ '"' := h₁
      have hb : c ≠ '\\' := h₂
      simp [readStringFrom, hq, hb, hc]
  all_goals simp [readStringFrom, simpleEscape?]

theorem readStringFrom_quoted (cs : List Char) {fuel : Nat} (h : cs.length < fuel)
    (done rest : List Char) :
    readStringFrom fuel done (cs.flatMap escapeChar ++ '"' :: rest) =
      some (String.ofList (done.reverse ++ cs), rest) := by
  induction cs generalizing fuel done with
  | nil =>
    obtain ⟨fuel, rfl⟩ : ∃ k, fuel = k + 1 := ⟨fuel - 1, by simp at h; omega⟩
    simp [readStringFrom]
  | cons c cs ih =>
    obtain ⟨fuel, rfl⟩ : ∃ k, fuel = k + 1 := ⟨fuel - 1, by simp at h; omega⟩
    rw [flatMap_cons, append_assoc, readStringFrom_escapeChar,
      ih (by simpa using h) (c :: done)]
    simp

theorem length_escapeChar_pos (c : Char) : 0 < (escapeChar c).length := by
  unfold escapeChar
  split
  case h_8 => split_ifs <;> simp
  all_goals simp

theorem length_le_flatMap_escapeChar (cs : List Char) :
    cs.length ≤ (cs.flatMap escapeChar).length := by
  induction cs with
  | nil => simp
  | cons c cs ih =>
    have := length_escapeChar_pos c
    simp only [flatMap_cons, length_cons, length_append]
    omega

theorem readString_quoted (s : String) (rest : List Char) :
    readString (quoted s.toList ++ rest) = some (s, rest) := by
  have hlen := length_le_flatMap_escapeChar s.toList
  rw [quoted, cons_append, append_assoc, readString, skipSpace_cons (by decide)]
  simp only [singleton_append]
  rw [readStringFrom_quoted _ (by simp only [length_append, length_cons]; omega)]
  simp

/-! ## Words and counts -/

theorem isDigit_of_mem_digits (h : c ∈ digits n) : c.isDigit :=
  Nat.isDigit_of_mem_toDigits (by decide) (by decide) h

theorem digits_ne_nil (n : Nat) : digits n ≠ [] := Nat.toDigits_ne_nil

theorem digits_value (n : Nat) : (digits n).foldl (fun n c ↦ n * 10 + (c.toNat - 48)) 0 = n := by
  have h := Nat.ofDigitChars_ten_toDigits (n := n)
  rw [Nat.ofDigitChars_eq_foldl] at h
  simpa only [digits, Nat.mul_comm, show '0'.toNat = 48 from rfl] using h

/-- Only zero is written with a zero in front. -/
theorem head?_digits_ne_zero (h : 0 < n) : (digits n).head? ≠ some '0' := by
  induction n using Nat.strong_induction_on with
  | _ n ih =>
    rcases Nat.lt_or_ge n 10 with hlt | hge
    · have hd : ∀ m < 10, 0 < m → Nat.digitChar m ≠ '0' := by decide
      rw [digits, Nat.toDigits_of_lt_base hlt]
      simpa using hd n hlt h
    · rw [digits, Nat.toDigits_of_base_le (by decide) hge, head?_append_of_ne_nil]
      · exact ih (n / 10) (by omega) (by omega)
      · exact Nat.toDigits_ne_nil

theorem not_leading_zero (n : Nat) :
    ¬ ((digits n).head? = some '0' ∧ 1 < (digits n).length) := by
  rintro ⟨hz, hl⟩
  rcases Nat.eq_zero_or_pos n with rfl | hpos
  · simp [digits] at hl
  · exact head?_digits_ne_zero hpos hz

theorem takeWhile_digits_append (ds rest : List Char) (hd : ∀ c ∈ ds, c.isDigit)
    (hr : ∀ c ∈ rest.head?, c.isDigit = false) :
    (ds ++ rest).takeWhile Char.isDigit = ds ∧ (ds ++ rest).dropWhile Char.isDigit = rest := by
  rw [takeWhile_append_of_pos hd, dropWhile_append_of_pos hd]
  cases rest with
  | nil => simp
  | cons c rest => simp [hr c rfl]

/-- What does not start with space is left as it is. -/
theorem skipSpace_of_head {cs : List Char} (h : ∀ c ∈ cs.head?, isSpace c = false) :
    skipSpace cs = cs := by
  cases cs with
  | nil => rfl
  | cons c cs => exact skipSpace_cons (h c rfl) cs

theorem isSpace_of_isDigit (h : c.isDigit) : isSpace c = false := by
  simp only [Char.isDigit, Bool.and_eq_true, decide_eq_true_eq] at h
  have hd (d : Char) (hd : d.val < 48) : c ≠ d := by
    rintro rfl
    exact absurd h.1 (by simpa using hd)
  simp [isSpace, hd]

theorem readCount_digits (h : n ≤ maxCount) {rest : List Char} (hr : Ends rest) :
    readCount (digits n ++ rest) = some (n, rest) := by
  obtain ⟨ht, hdr⟩ :=
    takeWhile_digits_append (digits n) rest (fun c hc ↦ isDigit_of_mem_digits hc) hr.not_isDigit
  have hs : skipSpace (digits n ++ rest) = digits n ++ rest := by
    apply skipSpace_of_head
    intro c hc
    rw [head?_append_of_ne_nil _ (digits_ne_nil n)] at hc
    exact isSpace_of_isDigit (isDigit_of_mem_digits (mem_of_mem_head? hc))
  have hend : rest.head?.any (fun c ↦ ['.', 'e', 'E'].contains c) = false := by
    rw [Option.any_eq_false]
    intro c hc
    rcases hr c hc with rfl | rfl | rfl <;> decide
  have hlead := not_leading_zero n
  simp only [readCount, hs, ht, hdr, digits_value, hend]
  simp [digits_ne_nil, hlead, Nat.not_lt.2 h]

/-! ## Lists -/

/-- A text that a reader takes for a value, wherever a value has ended after it. -/
structure Reads {α : Type} (read : List Char → Option (α × List Char)) (text : List Char) (a : α) :
    Prop where
  read_eq : ∀ rest, Ends rest → read (text ++ rest) = some (a, rest)
  /-- It starts with neither space nor what could come after a value. -/
  start : ∃ c cs, text = c :: cs ∧ isSpace c = false ∧ c ≠ ',' ∧ c ≠ ']' ∧ c ≠ '\x7d'

theorem separated_cons (t : List Char) (ts : List (List Char)) :
    separated [','] (t :: ts) = t ++ ts.flatMap (',' :: ·) := by
  induction ts generalizing t with
  | nil => simp [separated]
  | cons u ts ih => simp [separated, ih]

section Items

variable {α : Type} {read : List Char → Option (α × List Char)} {close : Char}
variable {text : List Char}

theorem expect_cons {c : Char} (h : isSpace c = false) (cs : List Char) :
    expect c (c :: cs) = some cs := by
  rw [expect, skipSpace_cons h]
  simp

theorem ends_close (hc : close = ']' ∨ close = '\x7d') (rest : List Char) :
    Ends (close :: rest) := by
  rcases hc with rfl | rfl <;> simp

theorem ends_items (hc : close = ']' ∨ close = '\x7d') (items : List (List Char))
    (rest : List Char) : Ends (items.flatMap (',' :: ·) ++ close :: rest) := by
  cases items with
  | nil => exact ends_close hc rest
  | cons t ts => simp

theorem length_le_items (items : List (List Char)) :
    items.length ≤ (items.flatMap (',' :: ·)).length := by
  induction items with
  | nil => simp
  | cons t ts ih =>
    simp only [flatMap_cons, length_append, length_cons]
    omega

theorem readMore_items (hc : close = ']' ∨ close = '\x7d') {items : List (List Char × α)}
    (h : ∀ p ∈ items, Reads read p.1 p.2) {fuel : Nat} (hf : items.length < fuel) (done : List α)
    (rest : List Char) :
    readMore read close fuel done ((items.map (·.1)).flatMap (',' :: ·) ++ close :: rest) =
      some (done.reverse ++ items.map (·.2), rest) := by
  have hs : isSpace close = false := by rcases hc with rfl | rfl <;> decide
  have hcomma : close ≠ ',' := by rcases hc with rfl | rfl <;> decide
  induction items generalizing fuel done with
  | nil =>
    obtain ⟨fuel, rfl⟩ : ∃ k, fuel = k + 1 := ⟨fuel - 1, by simp at hf; omega⟩
    simp [readMore, skipSpace_cons hs]
  | cons p items ih =>
    obtain ⟨fuel, rfl⟩ : ∃ k, fuel = k + 1 := ⟨fuel - 1, by simp at hf; omega⟩
    have hread := (h p mem_cons_self).read_eq _ (ends_items hc (items.map (·.1)) rest)
    simp only [map_cons, flatMap_cons, cons_append, append_assoc, readMore,
      skipSpace_cons (show isSpace ',' = false by decide), if_neg hcomma.symm, if_true, hread]
    rw [ih (fun q hq ↦ h q (mem_cons_of_mem _ hq)) (by simpa using hf)]
    simp

/-- Items with commas between them are read one after the other. -/
theorem readItems_separated (hc : close = ']' ∨ close = '\x7d') {opening : Char}
    (ho : isSpace opening = false) {items : List (List Char × α)}
    (h : ∀ p ∈ items, Reads read p.1 p.2) (rest : List Char) :
    readItems read opening close
        (opening :: (separated [','] (items.map (·.1)) ++ close :: rest)) =
      some (items.map (·.2), rest) := by
  have hs : isSpace close = false := by rcases hc with rfl | rfl <;> decide
  rw [readItems, expect_cons ho]
  cases items with
  | nil => simp [separated, expect_cons hs]
  | cons p items =>
    obtain ⟨c, cs, htext, hc₁, hc₂, hc₃, hc₄⟩ := (h p mem_cons_self).start
    have hne : c ≠ close := by rcases hc with rfl | rfl <;> assumption
    have hread := (h p mem_cons_self).read_eq _ (ends_items hc (items.map (·.1)) rest)
    have hexp : ∀ tail, expect close (p.1 ++ tail) = none := by
      intro tail
      rw [htext, cons_append, expect, skipSpace_cons hc₁]
      simp [hne]
    simp only [map_cons, separated_cons, append_assoc, Option.bind_eq_bind,
      Option.bind_some, hexp, hread]
    rw [readMore_items hc (fun q hq ↦ h q (mem_cons_of_mem _ hq))]
    · simp
    · have := length_le_items (items.map (·.1))
      simp only [length_map, length_append, length_cons] at this ⊢
      omega

theorem Reads.array {l : List (List Char × α)} (h : ∀ p ∈ l, Reads read p.1 p.2) :
    Reads (readArray read) ('[' :: (separated [','] (l.map (·.1)) ++ [']'])) (l.map (·.2)) where
  read_eq rest _ := by
    rw [cons_append, append_assoc]
    exact readItems_separated (.inl rfl) (by decide) h rest
  start := ⟨_, _, rfl, by decide⟩

theorem Reads.field {g : String → List Char → Option (α × List Char)} {name : String} {a : α}
    (h : Reads (g name) text a) : Reads (readField g) (quoted name.toList ++ ':' :: text) a  where
  read_eq rest hr := by
    rw [append_assoc, cons_append, readField, readString_quoted]
    simp only [Option.bind_eq_bind, Option.bind_some,
      expect_cons (show isSpace ':' = false by decide)]
    exact h.read_eq rest hr
  start := ⟨_, _, rfl, by decide⟩

/-- Fields, each with its name, its text and its value, are read as an object. -/
theorem Reads.object {g : String → List Char → Option (α × List Char)}
    {l : List (String × List Char × α)} (h : ∀ f ∈ l, Reads (g f.1) f.2.1 f.2.2) :
    Reads (readObject g)
      ('\x7b' :: (separated [','] (l.map fun f ↦ quoted f.1.toList ++ ':' :: f.2.1) ++ ['\x7d']))
      (l.map (·.2.2)) where
  read_eq rest _ := by
    have hitems : ∀ p ∈ l.map (fun f ↦ (quoted f.1.toList ++ ':' :: f.2.1, f.2.2)),
        Reads (readField g) p.1 p.2 := by
      intro p hp
      obtain ⟨f, hf, rfl⟩ := mem_map.1 hp
      exact (h f hf).field
    have hread := readItems_separated (.inr rfl) (show isSpace '\x7b' = false by decide) hitems rest
    simpa [readObject, Function.comp_def] using hread
  start := ⟨_, _, rfl, by decide⟩

theorem Reads.map {β : Type} {a : α} (h : Reads read text a) (f : α → β) :
    Reads (fun cs ↦ (read cs).map fun (a, rest) ↦ (f a, rest)) text (f a) where
  read_eq rest hr := by rw [h.read_eq rest hr, Option.map_some]
  start := h.start

/-- A value that is there is not taken for `null`. -/
theorem Reads.some {a : α} (h : Reads read text a) (hn : text.head? ≠ some 'n') :
    Reads (readOption read) text (some a)  where
  read_eq rest hr := by
    obtain ⟨c, cs, rfl, hc, -⟩ := h.start
    have hw : readWord "null".toList (skipSpace (c :: cs ++ rest)) = none := by
      rw [cons_append, skipSpace_cons hc]
      simp only [head?_cons, ne_eq, Option.some.injEq] at hn
      simp [readWord, List.isPrefixOf, Ne.symm hn]
    rw [readOption, hw, h.read_eq rest hr, Option.map_some]
  start := h.start

end Items

theorem reads_string (s : String) : Reads readString (quoted s.toList) s where
  read_eq rest _ := readString_quoted s rest
  start := ⟨_, _, rfl, by decide⟩

theorem reads_bool (b : Bool) : Reads readBool (compactChars (bool b)) b where
  read_eq rest _ := by cases b <;> rfl
  start := by cases b <;> exact ⟨_, _, rfl, by decide⟩

theorem reads_count (h : n ≤ maxCount) : Reads readCount (digits n) n  where
  read_eq _ hr := readCount_digits h hr
  start := by
    obtain ⟨c, cs, hcs⟩ := exists_cons_of_ne_nil (digits_ne_nil n)
    have hd : c.isDigit := isDigit_of_mem_digits (n := n) (by rw [hcs]; exact mem_cons_self)
    refine ⟨c, cs, hcs, isSpace_of_isDigit hd, ?_, ?_, ?_⟩ <;> (rintro rfl; revert hd; decide)

end Reader

/-! ## Printed lists -/

theorem compactItems_eq_map (items : List Json) : compactItems items = items.map compactChars := by
  induction items with
  | nil => rfl
  | cons v items ih => rw [compactItems, ih, map_cons]

theorem compactFields_eq_map (fields : List (String × Json)) :
    compactFields fields = fields.map fun f ↦ quoted f.1.toList ++ ':' :: f.2.compactChars := by
  induction fields with
  | nil => rfl
  | cons f fields ih =>
    obtain ⟨k, v⟩ := f
    rw [compactFields, ih, map_cons]

end Steward.Json
