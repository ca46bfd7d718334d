import Steward.Proofs.Json.ReadBack

/-!
# Texts that are cut off

A value whose text ends too early is not read. The exception are numbers: cut off between two digits
they are numbers still, but then nothing follows them. So what can be said of every kind of value is
`Reader.Stops`: of a text that was cut off, nothing is read or all of it. In an array or an object
something has to follow each item, so these are not read at all, `Reader.readItems_cut`.
-/

namespace Steward

open List

variable {α : Type}

/-- A text that was cut off stops within the first of two parts or behind it. -/
theorem isPrefix_append_cases {l a b : List α} (h : l <+: a ++ b) (hne : l ≠ a ++ b) :
    l <+: a ∧ l ≠ a ∨ ∃ k, l = a ++ k ∧ k <+: b ∧ k ≠ b := by
  by_cases hla : l <+: a ∧ l ≠ a
  · exact .inl hla
  · right
    have hal : a <+: l := by
      rcases prefix_or_prefix_of_prefix h (prefix_append a b) with hl | hl
      · rw [not_and, not_not] at hla
        rw [hla hl]
      · exact hl
    obtain ⟨k, rfl⟩ := hal
    rw [prefix_append_right_inj] at h
    exact ⟨k, rfl, h, fun hk ↦ hne (by rw [hk])⟩

/-- A text that was cut off starts as before. -/
theorem mem_head?_of_isPrefix {l text : List α} (h : l <+: text) {c : α} (hc : c ∈ l.head?) :
    c ∈ text.head? := by
  obtain ⟨t, rfl⟩ := h
  cases l with
  | nil => cases hc
  | cons a l => exact hc

/-- A text that was cut off is empty or stops behind the first character. -/
theorem isPrefix_cons_cases {l b : List α} {a : α} (h : l <+: a :: b) (hne : l ≠ a :: b) :
    l = [] ∨ ∃ k, l = a :: k ∧ k <+: b ∧ k ≠ b := by
  rcases isPrefix_append_cases (a := [a]) h hne with ⟨hl, hl'⟩ | hl
  · left
    rcases prefix_cons_iff.1 hl with rfl | ⟨k, rfl, hk⟩
    · rfl
    · rw [prefix_nil.1 hk] at hl'
      exact absurd rfl hl'
  · exact .inr hl

/-- Before a single character there is only the empty text. -/
theorem eq_nil_of_isPrefix_singleton {l : List α} {a : α} (h : l <+: [a]) (hne : l ≠ [a]) :
    l = [] := by
  rcases isPrefix_cons_cases h hne with rfl | ⟨k, -, hk, hk'⟩
  · rfl
  · exact absurd (prefix_nil.1 hk) hk'

namespace Json.Reader

variable {α β : Type} {read : List Char → Option (α × List Char)} {text : List Char}
variable {l : List Char}

/-- Of a text that was cut off, nothing is read or all of it. -/
def Stops (read : List Char → Option (α × List Char)) (text : List Char) : Prop :=
  ∀ l, l <+: text → l ≠ text → ∀ a rest, read l = some (a, rest) → rest = []

theorem stops_of_none (h : ∀ l, l <+: text → l ≠ text → read l = none) : Stops read text := by
  intro l hl hne a rest hread
  rw [h l hl hne] at hread
  cases hread

theorem Stops.map (h : Stops read text) (g : α → β) :
    Stops (fun cs ↦ (read cs).map fun (a, rest) ↦ (g a, rest)) text := by
  intro l hl hne b rest hread
  obtain ⟨⟨a, tail⟩, ha, heq⟩ := Option.map_eq_some_iff.1 hread
  cases heq
  exact h l hl hne a rest ha

/-! ## Strings -/

/-- A character that is escaped is not read without the end of its escape. -/
theorem readStringFrom_escapeChar_cut {c : Char} (hl : l <+: escapeChar c) (hne : l ≠ escapeChar c)
    (fuel : Nat) (done : List Char) : readStringFrom fuel done l = none := by
  rw [prefix_iff_eq_take.1 hl]
  have hlength : l.length < (escapeChar c).length :=
    lt_of_le_of_ne hl.length_le fun h ↦ hne (hl.eq_of_length h)
  generalize l.length = k at hlength
  cases fuel with
  | zero => rfl
  | succ fuel =>
    unfold escapeChar at hlength ⊢
    split at hlength
    case h_8 =>
      split_ifs at hlength ⊢
      all_goals
        simp only [length_cons, length_nil] at hlength
        interval_cases k <;> rfl
    all_goals
      simp only [length_cons, length_nil] at hlength
      interval_cases k <;> rfl

theorem readStringFrom_cut {cs : List Char} (hl : l <+: cs.flatMap escapeChar ++ ['"'])
    (hne : l ≠ cs.flatMap escapeChar ++ ['"']) (fuel : Nat) (done : List Char) :
    readStringFrom fuel done l = none := by
  induction cs generalizing l fuel done with
  | nil =>
    obtain rfl := eq_nil_of_isPrefix_singleton hl hne
    cases fuel <;> rfl
  | cons c cs ih =>
    rw [flatMap_cons, append_assoc] at hl hne
    rcases isPrefix_append_cases hl hne with ⟨hl, hne⟩ | ⟨k, rfl, hk, hk'⟩
    · exact readStringFrom_escapeChar_cut hl hne fuel done
    · cases fuel with
      | zero => rfl
      | succ fuel =>
        rw [readStringFrom_escapeChar]
        exact ih hk hk' fuel (c :: done)

/-- A string is not read without its closing quote. -/
theorem readString_cut {s : String} (hl : l <+: quoted s.toList) (hne : l ≠ quoted s.toList) :
    readString l = none := by
  rcases isPrefix_cons_cases hl hne with rfl | ⟨k, rfl, hk, hk'⟩
  · rfl
  · rw [readString, skipSpace_cons (by decide)]
    exact readStringFrom_cut hk hk' _ _

theorem stops_string (s : String) : Stops readString (quoted s.toList) :=
  stops_of_none fun _ hl hne ↦ readString_cut hl hne

/-! ## Words and counts -/

theorem stops_bool (b : Bool) : Stops readBool (compactChars (bool b)) := by
  have hcut (b : Bool) : ∀ k < (compactChars (bool b)).length,
      readBool ((compactChars (bool b)).take k) = none := by
    cases b <;> decide
  refine stops_of_none fun l hl hne ↦ ?_
  rw [prefix_iff_eq_take.1 hl]
  refine hcut b l.length (lt_of_le_of_ne hl.length_le fun hlen ↦ hne ?_)
  exact hl.eq_of_length hlen

/-- Digits are read up to the last. -/
theorem stops_count (n : Nat) : Stops readCount (digits n) := by
  intro l hl _ a rest hread
  have hdigits : ∀ c ∈ l, c.isDigit := fun c hc ↦ isDigit_of_mem_digits (hl.subset hc)
  have hspace : skipSpace l = l := by
    apply skipSpace_of_head
    intro c hc
    exact isSpace_of_isDigit (hdigits c (mem_of_mem_head? hc))
  rw [readCount, hspace] at hread
  split_ifs at hread
  cases hread
  exact dropWhile_eq_nil_iff.2 hdigits

/-- A value that is there is not taken for `null`, whole or not. -/
theorem Stops.some (h : Stops read text) (hn : text.head? ≠ some 'n')
    (hs : ∀ c ∈ text.head?, isSpace c = false) : Stops (readOption read) text := by
  intro l hl hne o rest hread
  have hword : readWord "null".toList (skipSpace l) = none := by
    rw [skipSpace_of_head fun c hc ↦ hs c (mem_head?_of_isPrefix hl hc)]
    cases l with
    | nil => rfl
    | cons c l =>
      have hc : c ≠ 'n' := by
        rintro rfl
        exact hn (mem_head?_of_isPrefix hl rfl)
      simp [readWord, List.isPrefixOf, Ne.symm hc]
  rw [readOption, hword] at hread
  obtain ⟨⟨a, tail⟩, ha, heq⟩ := Option.map_eq_some_iff.1 hread
  cases heq
  exact h l hl hne a rest ha

/-! ## Lists -/

section Items

variable {close : Char}

/-- Nothing is left to be read after the last item, so that the closing character is missing. -/
theorem readMore_nil (read : List Char → Option (α × List Char)) (close : Char) (fuel : Nat)
    (done : List α) : readMore read close fuel done [] = none := by
  cases fuel <;> rfl

theorem ends_of_isPrefix {l : List Char} (hl : l <+: text) (h : Ends text) : Ends l :=
  fun c hc ↦ h c (mem_head?_of_isPrefix hl hc)

theorem readMore_cut (hc : close = ']' ∨ close = '\x7d') {items : List (List Char × α)}
    (hreads : ∀ p ∈ items, Reads read p.1 p.2) (hstops : ∀ p ∈ items, Stops read p.1)
    {l : List Char} (hl : l <+: (items.map (·.1)).flatMap (',' :: ·) ++ [close])
    (hne : l ≠ (items.map (·.1)).flatMap (',' :: ·) ++ [close]) (fuel : Nat) (done : List α) :
    readMore read close fuel done l = none := by
  have hcomma : close ≠ ',' := by rcases hc with rfl | rfl <;> decide
  induction items generalizing l fuel done with
  | nil =>
    obtain rfl := eq_nil_of_isPrefix_singleton hl hne
    exact readMore_nil read close fuel done
  | cons p items ih =>
    obtain ⟨hp, hreads⟩ := forall_mem_cons.1 hreads
    obtain ⟨hp', hstops⟩ := forall_mem_cons.1 hstops
    rw [map_cons, flatMap_cons, append_assoc, cons_append] at hl hne
    cases fuel with
    | zero => rfl
    | succ fuel =>
      rcases isPrefix_cons_cases hl hne with rfl | ⟨k, rfl, hk, hk'⟩
      · rfl
      rw [readMore, skipSpace_cons (by decide)]
      simp only [if_neg hcomma.symm, if_true]
      rcases isPrefix_append_cases hk hk' with ⟨hk, hk'⟩ | ⟨m, rfl, hm, hm'⟩
      · cases hread : read k with
        | none => rfl
        | some q =>
          obtain ⟨a, rest⟩ := q
          obtain rfl := hp' k hk hk' a rest hread
          exact readMore_nil read close fuel _
      · rw [hp.read_eq m (ends_of_isPrefix hm (ends_items hc _ []))]
        exact ih hreads hstops hm hm' fuel _

/-- What starts with an item does not start with the closing character. -/
theorem expect_close_cut (hc : close = ']' ∨ close = '\x7d') {a : α} (h : Reads read text a)
    {l rest : List Char} (hl : l <+: text ++ rest) : expect close l = none := by
  obtain ⟨c, cs, rfl, hspace, -, hbracket, hbrace⟩ := h.start
  have hne : c ≠ close := by rcases hc with rfl | rfl <;> assumption
  cases l with
  | nil => rfl
  | cons d l =>
    obtain rfl : d = c := (cons_prefix_cons.1 hl).1
    rw [expect, skipSpace_cons hspace]
    exact if_neg hne

/-- Items are not read without the character that closes them. -/
theorem readItems_cut (hc : close = ']' ∨ close = '\x7d') {opening : Char}
    (ho : isSpace opening = false) (hnil : read [] = none) {items : List (List Char × α)}
    (hreads : ∀ p ∈ items, Reads read p.1 p.2) (hstops : ∀ p ∈ items, Stops read p.1)
    {l : List Char} (hl : l <+: opening :: (separated [','] (items.map (·.1)) ++ [close]))
    (hne : l ≠ opening :: (separated [','] (items.map (·.1)) ++ [close])) :
    readItems read opening close l = none := by
  rcases isPrefix_cons_cases hl hne with rfl | ⟨k, rfl, hk, hk'⟩
  · rfl
  rw [readItems, expect_cons ho]
  simp only [Option.bind_eq_bind, Option.bind_some]
  cases items with
  | nil =>
    obtain rfl := eq_nil_of_isPrefix_singleton hk hk'
    simp [expect, skipSpace, hnil]
  | cons p items =>
    obtain ⟨hp, hreads⟩ := forall_mem_cons.1 hreads
    obtain ⟨hp', hstops⟩ := forall_mem_cons.1 hstops
    rw [map_cons, separated_cons, append_assoc] at hk hk'
    have hexpect : expect close k = none := expect_close_cut hc hp hk
    rw [hexpect]
    rcases isPrefix_append_cases hk hk' with ⟨hk, hk'⟩ | ⟨m, rfl, hm, hm'⟩
    · cases hread : read k with
      | none => rfl
      | some q =>
        obtain ⟨a, rest⟩ := q
        obtain rfl := hp' k hk hk' a rest hread
        rfl
    · simp only [hp.read_eq m (ends_of_isPrefix hm (ends_items hc _ [])), Option.bind_some]
      exact readMore_cut hc hreads hstops hm hm' _ _

theorem Stops.array (hnil : read [] = none) {items : List (List Char × α)}
    (hreads : ∀ p ∈ items, Reads read p.1 p.2) (hstops : ∀ p ∈ items, Stops read p.1) :
    Stops (readArray read) ('[' :: (separated [','] (items.map (·.1)) ++ [']'])) :=
  stops_of_none fun _ hl hne ↦ readItems_cut (.inl rfl) (by decide) hnil hreads hstops hl hne

theorem Stops.field {g : String → List Char → Option (α × List Char)} {name : String}
    (h : Stops (g name) text) : Stops (readField g) (quoted name.toList ++ ':' :: text) := by
  intro l hl hne a rest hread
  rw [readField] at hread
  rcases isPrefix_append_cases hl hne with ⟨hl, hne⟩ | ⟨k, rfl, hk, hk'⟩
  · rw [readString_cut hl hne] at hread
    cases hread
  rw [readString_quoted] at hread
  rcases isPrefix_cons_cases hk hk' with rfl | ⟨m, rfl, hm, hm'⟩
  · cases hread
  · simp only [Option.bind_eq_bind, Option.bind_some,
      expect_cons (show isSpace ':' = false by decide)] at hread
    exact h m hm hm' a rest hread

/-- An object is not read without its closing brace. -/
theorem readObject_cut {g : String → List Char → Option (α × List Char)}
    {fields : List (String × List Char × α)} (hreads : ∀ f ∈ fields, Reads (g f.1) f.2.1 f.2.2)
    (hstops : ∀ f ∈ fields, Stops (g f.1) f.2.1) {l : List Char}
    (hl : l <+: '\x7b' ::
      (separated [','] (fields.map fun f ↦ quoted f.1.toList ++ ':' :: f.2.1) ++ ['\x7d']))
    (hne : l ≠ '\x7b' ::
      (separated [','] (fields.map fun f ↦ quoted f.1.toList ++ ':' :: f.2.1) ++ ['\x7d'])) :
    readObject g l = none := by
  let items := fields.map fun f ↦ (quoted f.1.toList ++ ':' :: f.2.1, f.2.2)
  have htexts : items.map (·.1) = fields.map fun f ↦ quoted f.1.toList ++ ':' :: f.2.1 := by
    rw [map_map]
    rfl
  rw [← htexts] at hl hne
  refine readItems_cut (.inr rfl) (by decide) rfl ?_ ?_ hl hne
  · intro p hp
    obtain ⟨f, hf, rfl⟩ := mem_map.1 hp
    exact (hreads f hf).field
  · intro p hp
    obtain ⟨f, hf, rfl⟩ := mem_map.1 hp
    exact (hstops f hf).field

end Items

end Json.Reader

end Steward
