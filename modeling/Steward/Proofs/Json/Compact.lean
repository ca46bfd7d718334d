import Steward.Proofs.Json.ReadBack

/-!
# The compact form

A value on one line holds no control character, so it is one line whatever its texts are. It also
determines the value: `Json.compactChars_injective`. For a value inside another the statement needs
what comes after it, `Json.compactChars_append_inj`.
-/

namespace Steward.Json

open Reader List

/-! ## No control characters -/

/-- A text without control characters. -/
def Printable (cs : List Char) : Prop := ∀ c ∈ cs, 0x20 ≤ c.toNat

@[simp]
theorem printable_nil : Printable [] := by simp [Printable]

@[simp]
theorem printable_cons (c : Char) (cs : List Char) :
    Printable (c :: cs) ↔ 0x20 ≤ c.toNat ∧ Printable cs := by simp [Printable]

@[simp]
theorem printable_append (cs ds : List Char) :
    Printable (cs ++ ds) ↔ Printable cs ∧ Printable ds := by
  simp only [Printable, mem_append, or_imp, forall_and]

theorem printable_hexDigit (n : Nat) : 0x20 ≤ (hexDigit n).toNat := by
  have h : ∀ m < 16, 0x20 ≤ (Nat.digitChar m).toNat := by decide
  exact h _ (Nat.mod_lt _ (by decide))

theorem printable_escapeChar (c : Char) : Printable (escapeChar c) := by
  unfold escapeChar
  split
  case h_8 =>
    split_ifs with h
    · simp [printable_hexDigit]
    · simpa using h
  all_goals simp

theorem printable_quoted (s : List Char) : Printable (quoted s) := by
  have h : Printable (s.flatMap escapeChar) := by
    intro c hc
    obtain ⟨d, -, hd⟩ := mem_flatMap.1 hc
    exact printable_escapeChar d c hd
  simp [quoted, h]

theorem printable_digits (n : Nat) : Printable (digits n) := by
  intro c hc
  have h := isDigit_of_mem_digits hc
  simp only [Char.isDigit, Bool.and_eq_true, decide_eq_true_eq] at h
  have : (48 : UInt32).toNat ≤ c.val.toNat := UInt32.le_iff_toNat_le.1 h.1
  change 48 ≤ c.toNat at this
  omega

theorem printable_separated {ts : List (List Char)} (h : ∀ t ∈ ts, Printable t) :
    Printable (separated [','] ts) := by
  cases ts with
  | nil => simp [separated]
  | cons t ts =>
    rw [separated_cons, printable_append]
    refine ⟨h t mem_cons_self, fun c hc ↦ ?_⟩
    obtain ⟨u, hu, hc⟩ := mem_flatMap.1 hc
    rcases mem_cons.1 hc with rfl | hc
    · decide
    · exact h u (mem_cons_of_mem _ hu) c hc

mutual

theorem printable_compactChars : ∀ j : Json, Printable j.compactChars
  | null => by simp [compactChars]
  | bool true => by simp [compactChars]
  | bool false => by simp [compactChars]
  | int (.ofNat n) => printable_digits n
  | int (.negSucc n) => by
    rw [compactChars, intText, printable_cons]
    exact ⟨by decide, printable_digits _⟩
  | str s => printable_quoted _
  | arr items => by
    simp [compactChars, printable_separated (printable_compactItems items)]
  | obj fields => by
    simp [compactChars, printable_separated (printable_compactFields fields)]

theorem printable_compactItems : ∀ items : List Json, ∀ t ∈ compactItems items, Printable t
  | [] => by simp [compactItems]
  | v :: rest => by
    rw [compactItems]
    exact forall_mem_cons.2 ⟨printable_compactChars v, printable_compactItems rest⟩

theorem printable_compactFields :
    ∀ fields : List (String × Json), ∀ t ∈ compactFields fields, Printable t
  | [] => by simp [compactFields]
  | (k, v) :: rest => by
    rw [compactFields]
    refine forall_mem_cons.2 ⟨?_, printable_compactFields rest⟩
    simp [printable_quoted, printable_compactChars v]

end

/-! ## The text determines the value -/

/-- What kind of value starts with a character. -/
def kindOf (c : Char) : Nat :=
  if c = 'n' then 0 else if c = 't' then 1 else if c = 'f' then 2 else if c = '"' then 3
  else if c = '[' then 4 else if c = '\x7b' then 5 else if c = '-' then 6
  else if c.isDigit then 7 else 8

/-- The kind of a value, as its first character tells. -/
def kind : Json → Nat
  | null => 0
  | bool true => 1
  | bool false => 2
  | str _ => 3
  | arr _ => 4
  | obj _ => 5
  | int (.negSucc _) => 6
  | int (.ofNat _) => 7

theorem kindOf_of_isDigit {c : Char} (h : c.isDigit) : kindOf c = 7 := by
  have hne (d : Char) (hd : d.isDigit = false) : c ≠ d := by
    rintro rfl
    rw [h] at hd
    cases hd
  simp [kindOf, h, hne]

theorem head_compactChars (j : Json) :
    ∃ c cs, j.compactChars = c :: cs ∧ kindOf c = j.kind := by
  match j with
  | null => exact ⟨_, _, rfl, by decide⟩
  | bool true => exact ⟨_, _, rfl, by decide⟩
  | bool false => exact ⟨_, _, rfl, by decide⟩
  | str s => exact ⟨_, _, rfl, by simp [kindOf, kind]⟩
  | arr items => exact ⟨_, _, rfl, by simp [kindOf, kind]⟩
  | obj fields => exact ⟨_, _, rfl, by simp [kindOf, kind]⟩
  | int (.negSucc n) => exact ⟨_, _, rfl, by simp [kindOf, kind]⟩
  | int (.ofNat n) =>
    obtain ⟨c, cs, hcs⟩ := exists_cons_of_ne_nil (digits_ne_nil n)
    refine ⟨c, cs, hcs, kindOf_of_isDigit (isDigit_of_mem_digits (n := n) ?_)⟩
    rw [hcs]
    exact mem_cons_self

theorem kind_lt (j : Json) : j.kind < 8 := by
  fun_cases kind j <;> decide

/-- A value does not start as something that ends one. -/
theorem compactChars_append_ne {j : Json} {c : Char} (h : kindOf c = 8) (x y : List Char) :
    j.compactChars ++ x ≠ c :: y := by
  obtain ⟨d, ds, hd, hk⟩ := head_compactChars j
  rw [hd, cons_append]
  rintro heq
  obtain ⟨rfl, -⟩ := List.cons.inj heq
  have := kind_lt j
  omega

theorem kind_eq_of_append_eq {a b : Json} {x y : List Char}
    (h : a.compactChars ++ x = b.compactChars ++ y) : a.kind = b.kind := by
  obtain ⟨c, cs, hc, hck⟩ := head_compactChars a
  obtain ⟨d, ds, hd, hdk⟩ := head_compactChars b
  rw [hc, hd, cons_append, cons_append] at h
  rw [← hck, ← hdk, (List.cons.inj h).1]

theorem quoted_append_inj {s t : String} {x y : List Char}
    (h : quoted s.toList ++ x = quoted t.toList ++ y) : s = t ∧ x = y := by
  have hr : some (s, x) = some (t, y) := by rw [← readString_quoted s x, h, readString_quoted]
  exact Prod.mk.inj (Option.some.inj hr)

theorem digits_append_inj {m n : Nat} {x y : List Char} (hx : Ends x) (hy : Ends y)
    (h : digits m ++ x = digits n ++ y) : m = n ∧ x = y := by
  obtain ⟨hm, hmx⟩ :=
    takeWhile_digits_append (digits m) x (fun _ ↦ isDigit_of_mem_digits) hx.not_isDigit
  obtain ⟨hn, hny⟩ :=
    takeWhile_digits_append (digits n) y (fun _ ↦ isDigit_of_mem_digits) hy.not_isDigit
  constructor
  · rw [← digits_value m, ← digits_value n, ← hm, ← hn, h]
  · rw [← hmx, ← hny, h]

/-- Lists of texts with commas between them are as good as with a comma before each, unless there
is no text. -/
theorem comma_separated {ts : List (List Char)} (h : ts ≠ []) :
    ',' :: separated [','] ts = ts.flatMap (',' :: ·) := by
  obtain ⟨t, ts, rfl⟩ := exists_cons_of_ne_nil h
  rw [separated_cons, flatMap_cons, cons_append]

mutual

/-- Two values that are written alike, up to where each has ended, are one. -/
theorem compactChars_append_inj : ∀ (a b : Json) {x y : List Char}, Ends x → Ends y →
    a.compactChars ++ x = b.compactChars ++ y → a = b ∧ x = y
  | null, b, x, y, _, _, h => by
    have hk := kind_eq_of_append_eq h
    match b with
    | null => exact ⟨rfl, append_cancel_left h⟩
  | bool true, b, x, y, _, _, h => by
    have hk := kind_eq_of_append_eq h
    match b with
    | bool true => exact ⟨rfl, append_cancel_left h⟩
  | bool false, b, x, y, _, _, h => by
    have hk := kind_eq_of_append_eq h
    match b with
    | bool false => exact ⟨rfl, append_cancel_left h⟩
  | int (.ofNat m), b, x, y, hx, hy, h => by
    have hk := kind_eq_of_append_eq h
    match b with
    | int (.ofNat n) =>
      obtain ⟨rfl, rfl⟩ := digits_append_inj hx hy h
      exact ⟨rfl, rfl⟩
  | int (.negSucc m), b, x, y, hx, hy, h => by
    have hk := kind_eq_of_append_eq h
    match b with
    | int (.negSucc n) =>
      obtain ⟨heq, rfl⟩ := digits_append_inj hx hy (List.cons.inj h).2
      obtain rfl : m = n := by omega
      exact ⟨rfl, rfl⟩
  | str s, b, x, y, _, _, h => by
    have hk := kind_eq_of_append_eq h
    match b with
    | str t =>
      obtain ⟨rfl, rfl⟩ := quoted_append_inj h
      exact ⟨rfl, rfl⟩
  | arr items, b, x, y, _, _, h => by
    have hk := kind_eq_of_append_eq h
    match b with
    | arr others =>
      simp only [compactChars, cons_append, append_assoc, List.cons.injEq, true_and,
        nil_append] at h
      obtain ⟨rfl, rfl⟩ := compactItems_append_inj items others h
      exact ⟨rfl, rfl⟩
  | obj fields, b, x, y, _, _, h => by
    have hk := kind_eq_of_append_eq h
    match b with
    | obj others =>
      simp only [compactChars, cons_append, append_assoc, List.cons.injEq, true_and,
        nil_append] at h
      obtain ⟨rfl, rfl⟩ := compactFields_append_inj fields others h
      exact ⟨rfl, rfl⟩

theorem compactItems_append_inj : ∀ (items others : List Json) {x y : List Char},
    separated [','] (compactItems items) ++ ']' :: x =
      separated [','] (compactItems others) ++ ']' :: y → items = others ∧ x = y
  | [], [], x, y, h => ⟨rfl, (List.cons.inj h).2⟩
  | [], w :: others, x, y, h => by
    rw [compactItems, compactItems, separated_cons, append_assoc] at h
    exact absurd h.symm (compactChars_append_ne (by decide) _ _)
  | v :: items, [], x, y, h => by
    rw [compactItems, compactItems, separated_cons, append_assoc] at h
    exact absurd h (compactChars_append_ne (by decide) _ _)
  | v :: items, w :: others, x, y, h => by
    rw [compactItems, compactItems, separated_cons, separated_cons, append_assoc,
      append_assoc] at h
    obtain ⟨rfl, htail⟩ := compactChars_append_inj v w (ends_items (.inl rfl) _ _)
      (ends_items (.inl rfl) _ _) h
    -- What is left has a comma in front of each item, so both lists go on or both end.
    match items, others with
    | [], [] => exact ⟨rfl, (List.cons.inj htail).2⟩
    | [], w :: others => simp [compactItems] at htail
    | v :: items, [] => simp [compactItems] at htail
    | v :: items, w :: others =>
      rw [← comma_separated (by simp [compactItems]), ← comma_separated (by simp [compactItems])]
        at htail
      obtain ⟨heq, rfl⟩ :=
        compactItems_append_inj (v :: items) (w :: others) (List.cons.inj htail).2
      exact ⟨by rw [heq], rfl⟩

theorem compactFields_append_inj : ∀ (fields others : List (String × Json)) {x y : List Char},
    separated [','] (compactFields fields) ++ '\x7d' :: x =
      separated [','] (compactFields others) ++ '\x7d' :: y → fields = others ∧ x = y
  | [], [], x, y, h => ⟨rfl, (List.cons.inj h).2⟩
  | [], (l, w) :: others, x, y, h => by
    simp [compactFields, separated, separated_cons, quoted] at h
  | (k, v) :: fields, [], x, y, h => by
    simp [compactFields, separated, separated_cons, quoted] at h
  | (k, v) :: fields, (l, w) :: others, x, y, h => by
    rw [compactFields, compactFields, separated_cons, separated_cons, append_assoc,
      append_assoc, append_assoc, append_assoc] at h
    obtain ⟨rfl, hvalue⟩ := quoted_append_inj h
    obtain ⟨rfl, htail⟩ := compactChars_append_inj v w (ends_items (.inr rfl) _ _)
      (ends_items (.inr rfl) _ _) (List.cons.inj hvalue).2
    match fields, others with
    | [], [] => exact ⟨rfl, (List.cons.inj htail).2⟩
    | [], (l, w) :: others => simp [compactFields] at htail
    | (k, v) :: fields, [] => simp [compactFields] at htail
    | (k, v) :: fields, (l, w) :: others =>
      rw [← comma_separated (by simp [compactFields]), ← comma_separated (by simp [compactFields])]
        at htail
      obtain ⟨heq, rfl⟩ :=
        compactFields_append_inj ((k, v) :: fields) ((l, w) :: others) (List.cons.inj htail).2
      exact ⟨by rw [heq], rfl⟩

end

/-- **A value is determined by its compact form.** -/
theorem compactChars_injective : Function.Injective compactChars := by
  intro a b h
  refine (compactChars_append_inj a b ends_nil ends_nil ?_).1
  rw [h]

end Steward.Json
