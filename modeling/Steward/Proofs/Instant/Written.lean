import Steward.Proofs.Instant.Stamp

/-!
# Instants in any form

The forms of RFC 3339 in which an instant may be written: `Written` has the parts of such a text, with
a fraction of any length and any offset from universal time. It is read as the instant that it
denotes, in universal time: `Written.parseChars?_text`.

The second part is about texts to the microsecond. They are read as the instant cut to microseconds,
`Common.parse?_micros`, and sort as these instants do, `Common.micros_le_micros_iff`.
-/

namespace Steward

open List

namespace Instant

variable {s t : Instant}

/-! ## Digits -/

theorem isDigit_of_mem_digitsOf {w n : Nat} : ∀ d ∈ digitsOf w n, d.isDigit := by
  induction w generalizing n with
  | zero => simp [digitsOf]
  | succ w ih =>
    intro d hd
    rcases mem_append.1 hd with hd | hd
    · exact ih d hd
    · rw [mem_singleton.1 hd]
      exact (digitChar_reads _ (Nat.mod_lt _ (by decide))).1

theorem space_le_of_isDigit {c : Char} (h : c.isDigit) : ' ' ≤ c := by
  rw [Char.isDigit, Bool.and_eq_true, decide_eq_true_iff] at h
  exact UInt32.le_trans (by decide : ' '.val ≤ '0'.val) h.1

theorem space_le_of_mem_digitsOf (w n : Nat) : ∀ c ∈ digitsOf w n, ' ' ≤ c :=
  fun c hc ↦ space_le_of_isDigit (isDigit_of_mem_digitsOf c hc)

/-! ## Fractions -/

/-- The number that some digits write. -/
def decimal (ds : List Char) : Nat := ds.foldl (fun n c ↦ n * 10 + (c.toNat - 48)) 0

/-- The nanoseconds that the digits of a fraction write: nine digits count, and those that are missing
are zeros. -/
def nanosOf (ds : List Char) : Nat := decimal ((ds ++ List.replicate 9 '0').take 9)

theorem decimal_append_zeros (ds : List Char) (k : Nat) :
    decimal (ds ++ List.replicate k '0') = decimal ds * 10 ^ k := by
  induction k with
  | zero => simp
  | succ k ih =>
    rw [replicate_succ', ← append_assoc, decimal, foldl_append, ← decimal, ih,
      pow_succ, ← mul_assoc]
    rfl

theorem nanosOf_eq (ds : List Char) :
    nanosOf ds = decimal (ds.take 9) * 10 ^ (9 - (ds.take 9).length) := by
  rw [nanosOf, take_append, take_replicate, decimal_append_zeros, length_take]
  congr 2
  omega

/-- Digits behind a point are read up to what is no digit. -/
theorem readFraction_point {ds rest : List Char} (hne : ds ≠ []) (hds : ∀ d ∈ ds, d.isDigit)
    (hrest : ∀ c ∈ rest.head?, c.isDigit = false) :
    readFraction ('.' :: (ds ++ rest)) = some (nanosOf ds, rest) := by
  have htake : (ds ++ rest).takeWhile Char.isDigit = ds := by
    rw [takeWhile_append_of_pos hds]
    cases rest with
    | nil => simp
    | cons c rest => simp [hrest c rfl]
  have hdrop : (ds ++ rest).dropWhile Char.isDigit = rest := by
    rw [dropWhile_append_of_pos hds]
    cases rest with
    | nil => rfl
    | cons c rest => simp [hrest c rfl]
  rw [readFraction, htake, hdrop, nanosOf_eq]
  simp [hne, decimal]

theorem readFraction_of_ne {cs : List Char} (h : cs.head? ≠ some '.') :
    readFraction cs = some (0, cs) := by
  unfold readFraction
  split
  · simp at h
  · rfl

/-! ## Offsets -/

/-- An offset from universal time as it is written. -/
inductive Zone where
  /-- No offset, as a letter. -/
  | universal (small : Bool)
  /-- Hours and minutes to the east or to the west. -/
  | shifted (east : Bool) (hours minutes : Nat)
deriving DecidableEq, Repr

namespace Zone

def text : Zone → List Char
  | universal small => [if small then 'z' else 'Z']
  | shifted east hours minutes =>
    (if east then '+' else '-') :: (digitsOf 2 hours ++ ':' :: digitsOf 2 minutes)

/-- The seconds by which local time is ahead of universal time. -/
def seconds : Zone → Int
  | universal _ => 0
  | shifted east hours minutes => (if east then 1 else -1) * (hours * 3600 + minutes * 60)

def Valid : Zone → Prop
  | universal _ => True
  | shifted _ hours minutes => hours ≤ 23 ∧ minutes ≤ 59

instance : (z : Zone) → Decidable z.Valid
  | universal _ => isTrue trivial
  | shifted _ hours minutes => inferInstanceAs (Decidable (hours ≤ 23 ∧ minutes ≤ 59))

theorem text_head (z : Zone) : ∃ c rest, z.text = c :: rest ∧ c.isDigit = false ∧ c ≠ '.' := by
  cases z with
  | universal small => cases small <;> exact ⟨_, _, rfl, rfl, by decide⟩
  | shifted east hours minutes => cases east <;> exact ⟨_, _, rfl, rfl, by decide⟩

theorem readOffset_text {z : Zone} (h : z.Valid) : readOffset z.text = some (z.seconds, []) := by
  cases z with
  | universal small => cases small <;> rfl
  | shifted east hours minutes =>
    obtain ⟨hhours, hminutes⟩ := h
    have hnumber : readDigits 2 0 (digitsOf 2 hours ++ ':' :: digitsOf 2 minutes) =
        some (hours, ':' :: digitsOf 2 minutes) := by
      rw [readDigits_digitsOf 2 _ (by omega), Nat.zero_mul, Nat.zero_add]
    have hnumber' : readDigits 2 0 (digitsOf 2 minutes) = some (minutes, []) := by
      rw [← append_nil (digitsOf 2 minutes), readDigits_digitsOf 2 _ (by omega), Nat.zero_mul,
        Nat.zero_add]
    cases east <;>
      simp [text, readOffset, hnumber, hnumber', readOne, hhours, hminutes, seconds]

theorem space_le_of_mem_text (z : Zone) : ∀ c ∈ z.text, ' ' ≤ c := by
  cases z with
  | universal small => cases small <;> simp [text]
  | shifted east hours minutes =>
    simp only [text, forall_mem_cons, forall_mem_append]
    exact ⟨by cases east <;> decide, space_le_of_mem_digitsOf 2 hours, by decide,
      space_le_of_mem_digitsOf 2 minutes⟩

end Zone

/-! ## Dates and times with an offset -/

/-- A date and a time of day as they are written, with an offset from universal time. -/
structure Written where
  year : Nat
  month : Nat
  day : Nat
  /-- What stands between the date and the time. -/
  mark : Char
  hour : Nat
  minute : Nat
  second : Nat
  /-- The digits of a fraction, if there is one. -/
  fraction : Option (List Char)
  zone : Zone

namespace Written

variable {w : Written}

def fractionText (w : Written) : List Char := w.fraction.elim [] ('.' :: ·)

def text (w : Written) : List Char :=
  clockText w.mark w.year w.month w.day w.hour w.minute w.second (w.fractionText ++ w.zone.text)

/-- A date that there is, and a time of day that may be a leap second. -/
@[mk_iff]
structure Valid (w : Written) : Prop where
  year : w.year ≤ 9999
  date : Date.Valid ⟨w.year, w.month, w.day⟩
  mark : w.mark ∈ ['T', 't', ' ']
  hour : w.hour ≤ 23
  minute : w.minute ≤ 59
  second : w.second ≤ 60
  fraction : ∀ ds ∈ w.fraction, ds ≠ [] ∧ ds.all Char.isDigit
  zone : w.zone.Valid

instance (w : Written) : Decidable w.Valid := decidable_of_iff' _ w.valid_iff

/-- The instant in universal time. A leap second counts as the second before it and a fraction of one
second or more. -/
def instant (w : Written) : Instant where
  seconds := (⟨w.year, w.month, w.day⟩ : Date).toDays * 86400 +
    (w.hour * 3600 + w.minute * 60 + min w.second 59 : Nat) - w.zone.seconds
  nanos := w.fraction.elim 0 nanosOf + if w.second = 60 then 1000000000 else 0

theorem readFraction_text (h : w.Valid) :
    readFraction (w.fractionText ++ w.zone.text) =
      some (w.fraction.elim 0 nanosOf, w.zone.text) := by
  obtain ⟨c, rest, hzone, hdigit, hpoint⟩ := w.zone.text_head
  cases hfraction : w.fraction with
  | none =>
    rw [fractionText, hfraction]
    exact readFraction_of_ne (by simpa [hzone] using hpoint)
  | some ds =>
    obtain ⟨hne, hds⟩ := h.fraction ds hfraction
    rw [fractionText, hfraction]
    exact readFraction_point hne (all_eq_true.1 hds) (by simpa [hzone] using hdigit)

/-- The text of a date and a time is read as the instant in universal time. -/
theorem parseChars?_text (h : w.Valid) : parseChars? w.text = some w.instant := by
  have hyear := h.year
  have hmonth := h.date.month
  have hday := h.date.day
  have hhour := h.hour
  have hminute := h.minute
  have hsecond := h.second
  have hdays := Date.daysInMonth_le w.year w.month
  have hvalid : Date.isValid ⟨w.year, w.month, w.day⟩ := Date.isValid_iff.2 h.date
  dsimp only at hmonth hday
  rw [text, parseChars?_clockText h.mark (by omega) (by omega) (by omega) (by omega) (by omega)
    (by omega) (readFraction_text h) (Zone.readOffset_text h.zone), isEmpty_nil, if_pos rfl,
    ofParts?, if_pos (by simp [hvalid, hhour, hminute, hsecond])]
  simp only [instant, secondsPerDay, nanosPerSecond, Option.some.injEq, Instant.mk.injEq]
  split_ifs <;> omega

/-- The text of a date and a time has no control characters. -/
theorem space_le_of_mem_text (h : w.Valid) : ∀ c ∈ w.text, ' ' ≤ c := by
  have hdigits := space_le_of_mem_digitsOf
  have hmark : ' ' ≤ w.mark := by
    have hmarks : ∀ m ∈ ['T', 't', ' '], ' ' ≤ m := by simp
    exact hmarks w.mark h.mark
  have hfraction : ∀ c ∈ w.fractionText, ' ' ≤ c := by
    cases hds : w.fraction with
    | none => simp [fractionText, hds]
    | some ds =>
      rw [fractionText, hds, Option.elim, forall_mem_cons]
      exact ⟨by decide, fun c hc ↦ space_le_of_isDigit (all_eq_true.1 (h.fraction ds hds).2 c hc)⟩
  simp only [text, clockText, forall_mem_cons, forall_mem_append]
  exact ⟨hdigits 4 _, by decide, hdigits 2 _, by decide, hdigits 2 _, hmark, hdigits 2 _, by decide,
    hdigits 2 _, by decide, hdigits 2 _, hfraction, w.zone.space_le_of_mem_text⟩

end Written

/-! ## To the microsecond -/

/-- The instant without what is below a microsecond. -/
def cut (t : Instant) : Instant := { t with nanos := t.nanos / 1000 * 1000 }

theorem cut_cut (t : Instant) : t.cut.cut = t.cut := by
  simp only [cut, Instant.mk.injEq, true_and]
  omega

theorem le_refl (t : Instant) : t.le t := le_iff.2 (.inr ⟨rfl, le_rfl⟩)

theorem cut_le_cut (h : s.le t) : s.cut.le t.cut := by
  rw [le_iff] at h ⊢
  simp only [cut]
  omega

theorem Common.cut (h : t.Common) : t.cut.Common  where
  nanos := by
    have := h.nanos
    simp only [Instant.cut]
    omega
  leap hleap := by
    refine h.leap ?_
    simp only [Instant.cut, nanosPerSecond] at hleap ⊢
    omega
  year := h.year

/-- The digits behind the second. -/
def microsText (t : Instant) : List Char :=
  '.' :: (digitsOf 6 (t.nanos % nanosPerSecond / 1000) ++ ['Z'])

theorem Common.micros_toList (h : t.Common) :
    (t.rfc3339 .micros).toList = t.clock t.microsText := by
  rw [h.rfc3339_toList, fractionText, String.toList_append, padded_toList (w := 5)]
  · rfl
  · unfold nanosPerSecond
    omega

theorem decimal_digitsOf {w n : Nat} (h : n < 10 ^ w) : decimal (digitsOf w n) = n := by
  induction w generalizing n with
  | zero =>
    rw [pow_zero, Nat.lt_one_iff] at h
    rw [h]
    rfl
  | succ w ih =>
    rw [digitsOf, decimal, foldl_append, ← decimal,
      ih (Nat.div_lt_of_lt_mul (by rwa [mul_comm, ← pow_succ])), foldl_cons, foldl_nil,
      (digitChar_reads _ (Nat.mod_lt _ (by decide))).2]
    omega

theorem readFraction_microsText (t : Instant) :
    readFraction t.microsText = some (t.nanos % nanosPerSecond / 1000 * 1000, ['Z']) := by
  have hlt : t.nanos % nanosPerSecond / 1000 < 10 ^ 6 := by
    unfold nanosPerSecond
    omega
  rw [microsText, readFraction_point (ne_nil_of_length_pos (by simp))
    (fun d hd ↦ isDigit_of_mem_digitsOf d hd) (by simp), nanosOf_eq,
    take_of_length_le (by simp), length_digitsOf, decimal_digitsOf hlt]
  rfl

/-- The text of an instant to the microsecond is read as the instant cut to it. -/
theorem Common.parse?_micros (h : t.Common) : parse? (t.rfc3339 .micros) = some t.cut := by
  rw [parse?, h.micros_toList, h.parseChars?_clock t.readFraction_microsText]
  simp only [whole, Instant.cut, nanosPerSecond, Option.some.injEq, Instant.mk.injEq, true_and]
  omega

theorem microsText_lt_iff : s.microsText < t.microsText ↔
    s.nanos % nanosPerSecond / 1000 < t.nanos % nanosPerSecond / 1000 := by
  rw [microsText, microsText, cons_lt_cons_iff, digitsOf_append_lt_iff]
  · simp
  · unfold nanosPerSecond
    omega
  · unfold nanosPerSecond
    omega

/-- Texts to the microsecond sort as the instants cut to it do. -/
theorem Common.micros_le_micros_iff (hs : s.Common) (ht : t.Common) :
    s.rfc3339 .micros ≤ t.rfc3339 .micros ↔ s.cut.le t.cut := by
  rw [← not_lt, String.lt_iff_toList_lt, hs.micros_toList, ht.micros_toList,
    ht.clock_lt_clock_iff hs, microsText_lt_iff, le_iff, le_iff]
  simp only [whole, Instant.cut, nanosPerSecond, Instant.mk.injEq]
  omega

/-- What is cut off is not written. -/
theorem Common.micros_cut (h : t.Common) : t.cut.rfc3339 .micros = t.rfc3339 .micros := by
  refine le_antisymm ((h.cut.micros_le_micros_iff h).2 ?_) ((h.micros_le_micros_iff h.cut).2 ?_)
  · rw [cut_cut]
    exact le_refl _
  · rw [cut_cut]
    exact le_refl _

end Instant

end Steward
