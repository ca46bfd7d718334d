import Steward.Instant.Rfc3339
import Steward.Proofs.Instant.Calendar

/-!
# Instants as text

The text of an instant up to the second, `Instant.clock`. In the years that have four digits it is as
long as any other, so that texts sort as the times do, `Common.clock_lt_clock_iff`, and it is read
back as the second it was written in with the fraction behind it, `Common.parseChars?_clock`. A year
with a sign comes before all of them, whichever the sign.
-/

namespace Steward

open List

namespace Instant

variable {w n : Nat} {a b : List Char} {s t : Instant}

/-! ## Numbers of a fixed width -/

/-- The last `w` decimal digits of a number. -/
def digitsOf : Nat → Nat → List Char
  | 0, _ => []
  | w + 1, n => digitsOf w (n / 10) ++ [(n % 10).digitChar]

@[simp] theorem length_digitsOf (w n : Nat) : (digitsOf w n).length = w := by
  induction w generalizing n with
  | zero => rfl
  | succ w ih => simp [digitsOf, ih]

theorem digitsOf_zero (w : Nat) : digitsOf w 0 = List.replicate w '0' := by
  induction w with
  | zero => rfl
  | succ w ih => rw [digitsOf, Nat.zero_div, ih, replicate_succ']; rfl

theorem padded_toList (h : n < 10 ^ (w + 1)) : (padded (w + 1) n).toList = digitsOf (w + 1) n := by
  induction w generalizing n with
  | zero =>
    have hn : n < 10 := h
    simp [padded, digitsOf, Nat.toDigits_of_lt_base hn, Nat.mod_eq_of_lt hn]
  | succ w ih =>
    rw [digitsOf]
    rcases Nat.lt_or_ge n 10 with hn | hn
    · rw [Nat.div_eq_of_lt hn, digitsOf_zero, Nat.mod_eq_of_lt hn]
      simp [padded, Nat.toDigits_of_lt_base hn]
    · rw [← ih (Nat.div_lt_of_lt_mul (by rwa [mul_comm, ← pow_succ]))]
      simp [padded, Nat.toDigits_of_base_le (by decide : 1 < 10) hn]

theorem digitChar_lt_iff : ∀ m < 10, ∀ n < 10, m.digitChar < n.digitChar ↔ m < n := by decide

theorem append_lt_append_iff {c d : List Char} (h : a.length = b.length) :
    a ++ c < b ++ d ↔ a < b ∨ a = b ∧ c < d := by
  induction a generalizing b with
  | nil =>
    obtain rfl : b = [] := length_eq_zero_iff.1 h.symm
    simp
  | cons x a ih =>
    cases b with
    | nil => simp at h
    | cons y b =>
      rw [cons_append, cons_append, cons_lt_cons_iff, cons_lt_cons_iff,
        ih (by simpa using h)]
      simp only [List.cons.injEq]
      tauto

theorem eq_iff_of_lt_iff {α β : Type} [LinearOrder α] [LinearOrder β] {a b : α} {m n : β}
    (hlt : a < b ↔ m < n) (hgt : b < a ↔ n < m) : a = b ↔ m = n := by
  rw [le_antisymm_iff, le_antisymm_iff, ← not_lt, ← not_lt, ← not_lt, ← not_lt, hlt, hgt]

/-- Numbers of one width sort as texts do. -/
theorem digitsOf_lt_iff {m : Nat} (hm : m < 10 ^ w) (hn : n < 10 ^ w) :
    digitsOf w m < digitsOf w n ↔ m < n := by
  induction w generalizing m n with
  | zero =>
    rw [pow_zero, Nat.lt_one_iff] at hm hn
    simp [digitsOf, hm, hn]
  | succ w ih =>
    have hlt {n : Nat} (h : n < 10 ^ (w + 1)) : n / 10 < 10 ^ w :=
      Nat.div_lt_of_lt_mul (by rwa [mul_comm, ← pow_succ])
    have heq := eq_iff_of_lt_iff (ih (hlt hm) (hlt hn)) (ih (hlt hn) (hlt hm))
    rw [digitsOf, digitsOf, append_lt_append_iff (by simp), ih (hlt hm) (hlt hn), heq,
      cons_lt_cons_iff, digitChar_lt_iff _ (by omega) _ (by omega)]
    simp only [lt_irrefl, and_false, or_false]
    omega

/-- A number of one width decides first, and what comes after it then. -/
theorem digitsOf_append_lt_iff {m : Nat} (hm : m < 10 ^ w) (hn : n < 10 ^ w) :
    digitsOf w m ++ a < digitsOf w n ++ b ↔ m < n ∨ m = n ∧ a < b := by
  have heq := eq_iff_of_lt_iff (digitsOf_lt_iff hm hn) (digitsOf_lt_iff hn hm)
  rw [append_lt_append_iff (by simp), digitsOf_lt_iff hm hn, heq]

theorem digitChar_reads : ∀ n < 10, n.digitChar.isDigit ∧ n.digitChar.toNat - 48 = n := by decide

theorem readDigits_digitsOf (w : Nat) {acc : Nat} (rest : List Char) (h : n < 10 ^ w) :
    readDigits w acc (digitsOf w n ++ rest) = some (acc * 10 ^ w + n, rest) := by
  -- Digits are written from the last one and read from the first, so a reader is split at its last.
  have hsplit (w : Nat) (acc : Nat) (cs : List Char) :
      readDigits (w + 1) acc cs = (readDigits w acc cs).bind fun p ↦ readDigits 1 p.1 p.2 := by
    induction w generalizing acc cs with
    | zero => simp [readDigits]
    | succ w ih =>
      cases cs with
      | nil => rfl
      | cons c cs =>
        rw [readDigits, readDigits]
        split
        · exact ih _ _
        · rfl
  induction w generalizing n rest with
  | zero =>
    rw [pow_zero, Nat.lt_one_iff] at h
    simp [readDigits, digitsOf, h]
  | succ w ih =>
    have hlt : n / 10 < 10 ^ w := Nat.div_lt_of_lt_mul (by rwa [mul_comm, ← pow_succ])
    obtain ⟨hdigit, hvalue⟩ := digitChar_reads (n % 10) (Nat.mod_lt _ (by decide))
    rw [hsplit, digitsOf, append_assoc, ih _ hlt]
    simp only [Option.bind_some, cons_append, nil_append, readDigits, hdigit, if_true,
      hvalue, Option.some.injEq, Prod.mk.injEq, and_true]
    rw [pow_succ, add_mul, mul_assoc]
    omega

/-! ## The text of a second -/

/-- An instant with a fraction below two seconds, and below one except in the last second of a
minute. -/
structure Proper (t : Instant) : Prop where
  nanos : t.nanos < 2 * nanosPerSecond
  leap : nanosPerSecond ≤ t.nanos → t.seconds % 60 = 59

/-- The second an instant is in. -/
def whole (t : Instant) : Instant := { t with nanos := t.nanos / nanosPerSecond * nanosPerSecond }

/-- An instant of a year with four digits. -/
structure Common (t : Instant) : Prop extends Proper t where
  year : 0 ≤ t.date.year ∧ t.date.year ≤ 9999

theorem le_iff : s.le t ↔ s.seconds < t.seconds ∨ s.seconds = t.seconds ∧ s.nanos ≤ t.nanos := by
  simp [le]

/-- The text of a date and a time of day, with a mark between them and some text behind. -/
def clockText (mark : Char) (year month day hour minute second : Nat) (rest : List Char) : List Char :=
  digitsOf 4 year ++ '-' :: (digitsOf 2 month ++ '-' :: (digitsOf 2 day ++ mark ::
    (digitsOf 2 hour ++ ':' :: (digitsOf 2 minute ++ ':' :: (digitsOf 2 second ++ rest)))))

/-- The seconds of a minute as they are written, where a leap second is the sixtieth. -/
def secondText (t : Instant) : Nat := t.secondOfDay % 60 + t.nanos / nanosPerSecond

theorem secondOfDay_lt (t : Instant) : t.secondOfDay < 86400 := by
  unfold secondOfDay secondsPerDay
  omega

theorem seconds_eq (t : Instant) : t.seconds = 86400 * t.dayNumber + t.secondOfDay := by
  unfold dayNumber secondOfDay secondsPerDay
  omega

theorem Proper.secondText (h : t.Proper) :
    t.nanos / nanosPerSecond ≤ 1 ∧ (t.nanos / nanosPerSecond = 1 → t.secondOfDay % 60 = 59) := by
  obtain ⟨hn, hl⟩ := h
  unfold secondOfDay secondsPerDay
  unfold nanosPerSecond at *
  omega

theorem date_lt (t : Instant) : t.date.month < 10 ^ 2 ∧ t.date.day < 10 ^ 2 := by
  have h := Date.valid_ofDays t.dayNumber
  exact ⟨by have := h.month; simp only [date]; omega,
    by have := h.day.2.trans (Date.daysInMonth_le _ _); simp only [date]; omega⟩

/-- The text of an instant up to its second, with some text behind. -/
def clock (t : Instant) (rest : List Char) : List Char :=
  clockText 'T' t.date.year.toNat t.date.month t.date.day (t.secondOfDay / 3600)
    (t.secondOfDay / 60 % 60) t.secondText rest

theorem Proper.secondText_le (h : t.Proper) : t.secondText ≤ 60 := by
  obtain ⟨hleap, hlast⟩ := h.secondText
  unfold Instant.secondText
  omega

theorem Common.rfc3339_toList (h : t.Common) (f : Fraction) :
    (t.rfc3339 f).toList =
      t.clock ((fractionText f (t.nanos % nanosPerSecond)).toList ++ ['Z']) := by
  have hyear := h.year
  obtain ⟨hmonth, hday⟩ := t.date_lt
  have hsod := t.secondOfDay_lt
  obtain ⟨hleap, hlast⟩ := h.toProper.secondText
  simp only [rfc3339, yearText, hyear.1, hyear.2, decide_true, Bool.and_self, if_true,
    String.toList_append]
  rw [padded_toList (w := 3) (by omega), padded_toList (w := 1) hmonth, padded_toList (w := 1) hday,
    padded_toList (w := 1) (by omega), padded_toList (w := 1) (by omega),
    padded_toList (w := 1) (by omega)]
  simp [clock, clockText, Instant.secondText]

theorem Common.stamp_toList (h : t.Common) : t.stamp.toList = t.clock ['Z'] :=
  h.rfc3339_toList .none

/-! ## The order of texts -/

/-- Instants come in the order of their days and of the times of day. -/
theorem date_lt_iff :
    (s.date.year < t.date.year ∨ s.date.year = t.date.year ∧ (s.date.month < t.date.month ∨
      s.date.month = t.date.month ∧ s.date.day < t.date.day)) ↔ s.dayNumber < t.dayNumber := by
  rw [← Date.key_ofDays_lt_iff (m := s.dayNumber), Date.key, Date.key, Prod.Lex.toLex_lt_toLex,
    Prod.Lex.toLex_lt_toLex]
  exact Iff.rfl

theorem time_lt_iff (hs : s.Proper) (ht : t.Proper) :
    (s.secondOfDay / 3600 < t.secondOfDay / 3600 ∨ s.secondOfDay / 3600 = t.secondOfDay / 3600 ∧
      (s.secondOfDay / 60 % 60 < t.secondOfDay / 60 % 60 ∨
        s.secondOfDay / 60 % 60 = t.secondOfDay / 60 % 60 ∧ s.secondText < t.secondText)) ↔
    s.secondOfDay < t.secondOfDay ∨ s.secondOfDay = t.secondOfDay ∧
      s.nanos / nanosPerSecond < t.nanos / nanosPerSecond := by
  obtain ⟨hleap, hlast⟩ := hs.secondText
  obtain ⟨hleap', hlast'⟩ := ht.secondText
  unfold Instant.secondText
  generalize s.nanos / nanosPerSecond = leap, t.nanos / nanosPerSecond = leap' at *
  omega

theorem not_whole_le_iff :
    ¬t.whole.le s.whole ↔ s.dayNumber < t.dayNumber ∨ s.dayNumber = t.dayNumber ∧
      (s.secondOfDay < t.secondOfDay ∨ s.secondOfDay = t.secondOfDay ∧
        s.nanos / nanosPerSecond < t.nanos / nanosPerSecond) := by
  rw [le_iff]
  simp only [whole, nanosPerSecond, dayNumber, secondOfDay, secondsPerDay]
  omega

theorem date_eq_iff : s.dayNumber = t.dayNumber ↔
    s.date.year = t.date.year ∧ s.date.month = t.date.month ∧ s.date.day = t.date.day := by
  have hlt := date_lt_iff (s := s) (t := t)
  have hgt := date_lt_iff (s := t) (t := s)
  omega

theorem time_eq_iff (hs : s.Proper) (ht : t.Proper) :
    (s.secondOfDay / 3600 = t.secondOfDay / 3600 ∧ s.secondOfDay / 60 % 60 = t.secondOfDay / 60 % 60 ∧
      s.secondText = t.secondText) ↔
    s.secondOfDay = t.secondOfDay ∧ s.nanos / nanosPerSecond = t.nanos / nanosPerSecond := by
  have hlt := time_lt_iff hs ht
  have hgt := time_lt_iff ht hs
  omega

theorem whole_eq_whole_iff : s.whole = t.whole ↔ s.dayNumber = t.dayNumber ∧
    s.secondOfDay = t.secondOfDay ∧ s.nanos / nanosPerSecond = t.nanos / nanosPerSecond := by
  simp only [whole, Instant.mk.injEq, nanosPerSecond, dayNumber, secondOfDay, secondsPerDay]
  omega

/-- Texts of years with four digits sort as the seconds do, and then as what is behind them. -/
theorem Common.clock_lt_clock_iff (hs : s.Common) (ht : t.Common) :
    s.clock a < t.clock b ↔ ¬t.whole.le s.whole ∨ s.whole = t.whole ∧ a < b := by
  have hyear := hs.year
  have hyear' := ht.year
  obtain ⟨hmonth, hday⟩ := s.date_lt
  obtain ⟨hmonth', hday'⟩ := t.date_lt
  have hsod := s.secondOfDay_lt
  have hsod' := t.secondOfDay_lt
  have hsecond := hs.toProper.secondText_le
  have hsecond' := ht.toProper.secondText_le
  have hyears : s.date.year.toNat < t.date.year.toNat ↔ s.date.year < t.date.year := by omega
  have hyears' : s.date.year.toNat = t.date.year.toNat ↔ s.date.year = t.date.year := by omega
  have hmark {c : Char} {a b : List Char} : c :: a < c :: b ↔ a < b := by simp
  rw [clock, clock, clockText, clockText, digitsOf_append_lt_iff (by omega) (by omega), hmark,
    digitsOf_append_lt_iff hmonth hmonth', hmark, digitsOf_append_lt_iff hday hday', hmark,
    digitsOf_append_lt_iff (by omega) (by omega), hmark,
    digitsOf_append_lt_iff (by omega) (by omega), hmark,
    digitsOf_append_lt_iff (by omega) (by omega), hyears, hyears', not_whole_le_iff,
    ← time_lt_iff hs.toProper ht.toProper, whole_eq_whole_iff, ← time_eq_iff hs.toProper ht.toProper,
    date_eq_iff, ← date_lt_iff]
  simp only [and_or_left, or_assoc, and_assoc]

/-- Texts to the second sort as the seconds do. -/
theorem Common.stamp_lt_stamp_iff (hs : s.Common) (ht : t.Common) :
    s.stamp < t.stamp ↔ ¬t.whole.le s.whole := by
  rw [String.lt_iff_toList_lt, hs.stamp_toList, ht.stamp_toList, hs.clock_lt_clock_iff ht]
  simp

theorem le_trans {u : Instant} (hst : s.le t) (htu : t.le u) : s.le u := by
  rw [le_iff] at *
  omega

theorem Common.stamp_eq_iff (hs : s.Common) (ht : t.Common) :
    s.stamp = t.stamp ↔ s.whole = t.whole := by
  rw [le_antisymm_iff, ← not_lt, ← not_lt, ht.stamp_lt_stamp_iff hs, hs.stamp_lt_stamp_iff ht,
    not_not, not_not, le_iff, le_iff]
  simp only [whole, Instant.mk.injEq]
  omega

/-- A year that needs a sign puts its text before those that do not. -/
theorem Common.lt_stamp_of_sign (hs : s.Common) (ht : t.date.year < 0 ∨ 9999 < t.date.year) :
    t.stamp < s.stamp := by
  have hcond : ¬((decide (0 ≤ t.date.year) && decide (t.date.year ≤ 9999)) = true) := by
    simp only [Bool.and_eq_true, decide_eq_true_eq]
    omega
  obtain ⟨c, cs, hc, htext⟩ : ∃ c cs, (c = '-' ∨ c = '+') ∧ t.stamp.toList = c :: cs := by
    simp only [stamp, rfc3339, yearText, if_neg hcond, String.toList_append]
    split_ifs
    · exact ⟨'-', _, .inl rfl, rfl⟩
    · exact ⟨'+', _, .inr rfl, rfl⟩
  have hdigit : ∀ n < 10, '-' < n.digitChar ∧ '+' < n.digitChar := by decide
  obtain ⟨hminus, hplus⟩ := hdigit (s.date.year.toNat / 10 / 10 / 10 % 10) (Nat.mod_lt _ (by decide))
  rw [String.lt_iff_toList_lt, htext, hs.stamp_toList, clock, clockText]
  simp only [digitsOf, nil_append, cons_append, cons_lt_cons_iff]
  rcases hc with rfl | rfl
  · exact .inl hminus
  · exact .inl hplus

theorem Common.dayNumber_lt (hs : s.Common) (ht : t.date.year < 0) : t.dayNumber < s.dayNumber := by
  rw [← date_lt_iff]
  exact .inl (ht.trans_le hs.year.1)

/-- A text of a year up to the last with four digits is before that of a later second. -/
theorem Common.lt_stamp_iff (hs : s.Common) (ht : t.Proper) (hyear : t.date.year ≤ 9999) :
    t.stamp < s.stamp ↔ ¬s.whole.le t.whole := by
  rcases lt_or_ge t.date.year 0 with hneg | hpos
  · rw [iff_true_left (hs.lt_stamp_of_sign (.inl hneg)), not_whole_le_iff]
    exact .inl (hs.dayNumber_lt hneg)
  · exact Common.stamp_lt_stamp_iff ⟨ht, hpos, hyear⟩ hs

theorem Common.stamp_lt_iff (hs : s.Common) (ht : t.Proper) (hyear : t.date.year ≤ 9999) :
    s.stamp < t.stamp ↔ ¬t.whole.le s.whole := by
  rcases lt_or_ge t.date.year 0 with hneg | hpos
  · have hday := hs.dayNumber_lt hneg
    have hlt := hs.lt_stamp_of_sign (t := t) (.inl hneg)
    rw [iff_false_left hlt.asymm, not_whole_le_iff]
    omega
  · exact hs.stamp_lt_stamp_iff ⟨ht, hpos, hyear⟩

theorem Common.le_stamp_iff (hs : s.Common) (ht : t.Proper) (hyear : t.date.year ≤ 9999) :
    t.stamp ≤ s.stamp ↔ t.whole.le s.whole := by
  rw [← not_lt, hs.stamp_lt_iff ht hyear, not_not]

theorem Common.stamp_le_iff (hs : s.Common) (ht : t.Proper) (hyear : t.date.year ≤ 9999) :
    s.stamp ≤ t.stamp ↔ s.whole.le t.whole := by
  rw [← not_lt, hs.lt_stamp_iff ht hyear, not_not]

/-! ## Reading the text back -/

theorem bind_of_eq_some {α β : Type} {x : Option α} {a : α} {f : α → Option β} (h : x = some a) :
    (x >>= f) = f a := by
  rw [h]
  rfl

/-- A date and a time of day are read, and then the fraction and the offset behind them. -/
theorem parseChars?_clockText {mark : Char} (hmark : mark ∈ ['T', 't', ' '])
    {year month day hour minute second : Nat} (hyear : year < 10 ^ 4)
    (hmonth : month < 10 ^ 2) (hday : day < 10 ^ 2) (hhour : hour < 10 ^ 2)
    (hminute : minute < 10 ^ 2) (hsecond : second < 10 ^ 2) {rest rest' rest'' : List Char}
    {nanos : Nat} {offset : Int} (hfraction : readFraction rest = some (nanos, rest'))
    (hoffset : readOffset rest' = some (offset, rest'')) :
    parseChars? (clockText mark year month day hour minute second rest) =
      if rest''.isEmpty then ofParts? ⟨year, month, day⟩ hour minute second nanos offset else none := by
  have hreads {allowed rest : List Char} {c : Char} (hc : c ∈ allowed) :
      readOne allowed (c :: rest) = some rest := by
    simp [readOne, hc]
  refine (bind_of_eq_some (readDigits_digitsOf 4 _ hyear)).trans ?_
  refine (bind_of_eq_some (hreads (by decide))).trans ?_
  refine (bind_of_eq_some (readDigits_digitsOf 2 _ hmonth)).trans ?_
  refine (bind_of_eq_some (hreads (by decide))).trans ?_
  refine (bind_of_eq_some (readDigits_digitsOf 2 _ hday)).trans ?_
  refine (bind_of_eq_some (hreads hmark)).trans ?_
  refine (bind_of_eq_some (readDigits_digitsOf 2 _ hhour)).trans ?_
  refine (bind_of_eq_some (hreads (by decide))).trans ?_
  refine (bind_of_eq_some (readDigits_digitsOf 2 _ hminute)).trans ?_
  refine (bind_of_eq_some (hreads (by decide))).trans ?_
  refine (bind_of_eq_some (readDigits_digitsOf 2 _ hsecond)).trans ?_
  refine (bind_of_eq_some hfraction).trans ?_
  refine (bind_of_eq_some hoffset).trans ?_
  simp only [zero_mul, zero_add]

/-- The parts of an instant make up its second, and a fraction adds to that. -/
theorem Common.ofParts? (h : t.Common) (nanos : Nat) :
    ofParts? ⟨t.date.year.toNat, t.date.month, t.date.day⟩ (t.secondOfDay / 3600)
      (t.secondOfDay / 60 % 60) t.secondText nanos 0 =
        some { t.whole with nanos := nanos + t.whole.nanos } := by
  have hyear := h.year
  have hsod := t.secondOfDay_lt
  obtain ⟨hleap, hlast⟩ := h.toProper.secondText
  have hdate : (⟨t.date.year.toNat, t.date.month, t.date.day⟩ : Date) = t.date := by
    rw [Int.toNat_of_nonneg hyear.1]
  have hvalid : t.date.isValid := Date.isValid_iff.2 (Date.valid_ofDays _)
  have hdays : t.date.toDays = t.dayNumber := Date.toDays_ofDays _
  have hsplit := t.seconds_eq
  rw [hdate, Instant.ofParts?, if_pos]
  · simp only [hdays, Option.some.injEq, whole, Instant.mk.injEq]
    unfold Instant.secondText
    unfold nanosPerSecond secondsPerDay at *
    split_ifs <;> omega
  · simp only [hvalid, Bool.true_and, Bool.and_eq_true, decide_eq_true_eq]
    unfold Instant.secondText
    omega

/-- What is read of an instant's text is its second and the fraction behind it. -/
theorem Common.parseChars?_clock (h : t.Common) {rest : List Char} {nanos : Nat}
    (hfraction : readFraction rest = some (nanos, ['Z'])) :
    parseChars? (t.clock rest) = some { t.whole with nanos := nanos + t.whole.nanos } := by
  have hyear := h.year
  obtain ⟨hmonth, hday⟩ := t.date_lt
  have hsod := t.secondOfDay_lt
  have hsecond := h.toProper.secondText_le
  have hzone : readOffset ['Z'] = some (0, []) := rfl
  rw [clock, parseChars?_clockText (by simp) (by omega) hmonth hday (by omega) (by omega) (by omega)
    hfraction hzone, isEmpty_nil, if_pos rfl, h.ofParts?]

/-- The text of a second is read as that second. -/
theorem Common.parse?_stamp (h : t.Common) : parse? t.stamp = some t.whole := by
  have hfraction : readFraction ['Z'] = some (0, ['Z']) := rfl
  rw [parse?, h.stamp_toList, h.parseChars?_clock hfraction, Nat.zero_add]

end Instant

end Steward
