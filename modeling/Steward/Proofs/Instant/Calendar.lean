import Mathlib
import Steward.Instant

/-!
# The calendar

Every day has one date, dates count the days, and they follow one another as the days do. Years are
counted from March here, as in the definitions, so that a leap day is the last day of its year.
-/

namespace Steward

namespace Date

variable {y e c k j r n : Int} {d : Date}

theorem isLeap_iff : isLeap y ↔ y % 4 = 0 ∧ (y % 100 ≠ 0 ∨ y % 400 = 0) := by
  simp [isLeap]

/-- The `e`th day of an era is day `r` of the year `j` of four, the `k`th four of the century `c`. The
last year of four has a day more, unless it ends a century that does not end the era. -/
structure InEra (e c k j r : Int) : Prop where
  day : e = 36524 * c + 1461 * k + 365 * j + r
  century : 0 ≤ c ∧ c ≤ 3
  four : 0 ≤ k ∧ k ≤ 24
  year : 0 ≤ j ∧ j ≤ 3
  dayOfYear : 0 ≤ r ∧ (r ≤ 364 ∨ r = 365 ∧ j = 3 ∧ (k < 24 ∨ c = 3))

theorem exists_inEra (h0 : 0 ≤ e) (h1 : e < 146097) : ∃ c k j r, InEra e c k j r := by
  obtain ⟨c, hc, hce⟩ : ∃ c, (0 ≤ c ∧ c ≤ 3) ∧ 0 ≤ e - 36524 * c ∧
      (e - 36524 * c < 36524 ∨ c = 3 ∧ e - 36524 * c = 36524) := by
    rcases lt_or_ge e (36524 * 3) with h | h
    · exact ⟨e / 36524, by omega, by omega⟩
    · exact ⟨3, by omega, by omega⟩
  generalize hs : e - 36524 * c = s at hce
  obtain ⟨k, hk, hks⟩ : ∃ k, (0 ≤ k ∧ k ≤ 24) ∧ 0 ≤ s - 1461 * k ∧ s - 1461 * k ≤ 1460 :=
    ⟨s / 1461, by omega, by omega⟩
  generalize ht : s - 1461 * k = t at hks
  obtain ⟨j, hj, hjt⟩ : ∃ j, (0 ≤ j ∧ j ≤ 3) ∧ 0 ≤ t - 365 * j ∧
      (t - 365 * j ≤ 364 ∨ j = 3 ∧ t - 365 * j = 365) := by
    rcases lt_or_ge t (365 * 3) with h | h
    · exact ⟨t / 365, by omega, by omega⟩
    · exact ⟨3, by omega, by omega⟩
  exact ⟨c, k, j, t - 365 * j, by omega, hc, hk, hj, by omega⟩

theorem InEra.yearOfEra (h : InEra e c k j r) :
    (e - e / 1460 + e / 36524 - e / 146096) / 365 = 100 * c + 4 * k + j := by
  obtain ⟨he, hc, hk, hj, hr⟩ := h
  have hrest : 0 ≤ e - 36524 * c ∧ (e - 36524 * c ≤ 36523 ∨ e - 36524 * c = 36524 ∧ c = 3) := by
    omega
  have hcentury : e / 36524 - e / 146096 = c := by
    clear he hk hj hr
    omega
  have hfour : ∃ ε, e / 1460 = 25 * c + k + ε ∧ 0 ≤ r - ε ∧ r - ε ≤ 364 := by
    refine ⟨(24 * c + k + 365 * j + r) / 1460, ?_, ?_⟩
    · omega
    · omega
  obtain ⟨ε, hε, hrange⟩ := hfour
  omega

theorem InEra.start (h : InEra e c k j r) :
    e - (365 * (100 * c + 4 * k + j) + (100 * c + 4 * k + j) / 4 - (100 * c + 4 * k + j) / 100) =
      r := by
  obtain ⟨he, hc, hk, hj, hr⟩ := h
  omega

theorem InEra.leap (h : InEra e c k j r) (hr : r = 365) (era : Int) :
    isLeap (100 * c + 4 * k + j + era * 400 + 1) := by
  obtain ⟨he, hc, hk, hj, hr⟩ := h
  rw [isLeap_iff]
  omega

/-! ## Years from March -/

/-- The days before the first of March of a year, from the year zero on. -/
def yearStart (y : Int) : Int := 365 * y + y / 4 - y / 100 + y / 400

/-- The days before the first of a month, counted from March. -/
def monthStart (m : Int) : Int := (153 * m + 2) / 5

def marchYear (d : Date) : Int := if d.month ≤ 2 then d.year - 1 else d.year

def marchMonth (d : Date) : Int := ((d.month + 9) % 12 : Nat)

theorem toDays_eq (d : Date) :
    d.toDays = yearStart d.marchYear + monthStart d.marchMonth + d.day - 1 - 719468 := by
  have hyear (y : Int) : y / 400 * 146097 + ((y - y / 400 * 400) * 365 + (y - y / 400 * 400) / 4 -
      (y - y / 400 * 400) / 100) = yearStart y := by
    unfold yearStart
    omega
  have hdays : d.toDays = d.marchYear / 400 * 146097 +
      ((d.marchYear - d.marchYear / 400 * 400) * 365 + (d.marchYear - d.marchYear / 400 * 400) / 4 -
        (d.marchYear - d.marchYear / 400 * 400) / 100 + (monthStart d.marchMonth + d.day - 1)) -
      719468 := rfl
  rw [hdays, ← hyear]
  ring

/-- The `n`th day is day `r` of the year `y`, both counted from March. -/
structure Falls (n y r : Int) : Prop where
  day : n + 719468 = yearStart y + r
  dayOfYear : 0 ≤ r ∧ (r ≤ 364 ∨ r = 365 ∧ isLeap (y + 1))

/-- The date of a day of a year from March. -/
def ofMarch (y r : Int) : Date :=
  let m := (5 * r + 2) / 153
  ⟨if m < 10 then y else y + 1, (if m < 10 then m + 3 else m - 9).toNat, (r - monthStart m + 1).toNat⟩

theorem exists_falls (n : Int) : ∃ y r, Falls n y r ∧ ofDays n = ofMarch y r := by
  obtain ⟨era, hera⟩ : ∃ era, era = (n + 719468) / 146097 := ⟨_, rfl⟩
  obtain ⟨c, k, j, r, h⟩ := exists_inEra (e := n + 719468 - era * 146097) (by omega) (by omega)
  refine ⟨100 * c + 4 * k + j + era * 400, r, ⟨?_, h.dayOfYear.1, ?_⟩, ?_⟩
  · have hday := h.day
    obtain ⟨-, hc, hk, hj, -⟩ := h
    unfold yearStart
    omega
  · refine h.dayOfYear.2.imp_right fun hr ↦ ⟨hr.1, h.leap hr.1 era⟩
  · have hdate : ofDays n =
        let m := (5 * r + 2) / 153
        let month := if m < 10 then m + 3 else m - 9
        ⟨100 * c + 4 * k + j + era * 400 + (if month ≤ 2 then 1 else 0), month.toNat,
          (r - monthStart m + 1).toNat⟩ := by
      simp only [ofDays, ← hera, h.yearOfEra, h.start]
      rfl
    rw [hdate, ofMarch]
    have hm : 0 ≤ (5 * r + 2) / 153 ∧ (5 * r + 2) / 153 ≤ 11 := by
      have hr := h.dayOfYear
      omega
    dsimp only
    congr 1
    split_ifs <;> omega

/-- A date that there is. -/
structure Valid (d : Date) : Prop where
  month : 1 ≤ d.month ∧ d.month ≤ 12
  day : 1 ≤ d.day ∧ d.day ≤ daysInMonth d.year d.month

theorem isValid_iff : d.isValid ↔ d.Valid := by
  simp only [isValid, Bool.and_eq_true, decide_eq_true_eq]
  exact ⟨fun ⟨⟨⟨h₁, h₂⟩, h₃⟩, h₄⟩ ↦ ⟨⟨h₁, h₂⟩, h₃, h₄⟩, fun h ↦ ⟨⟨h.month, h.day.1⟩, h.day.2⟩⟩

instance (d : Date) : Decidable d.Valid := decidable_of_iff _ isValid_iff

theorem daysInMonth_le (y : Int) (m : Nat) : daysInMonth y m ≤ 31 := by
  unfold daysInMonth
  split <;> try split_ifs
  all_goals decide

/-- The length of a month: up to the next one, and in February up to the end of the year. -/
theorem daysInMonth_eq (h : 1 ≤ d.month ∧ d.month ≤ 12) :
    (daysInMonth d.year d.month : Int) =
      if d.marchMonth = 11 then if isLeap (d.marchYear + 1) then 29 else 28
      else monthStart (d.marchMonth + 1) - monthStart d.marchMonth := by
  obtain ⟨y, m, day⟩ := d
  obtain ⟨hlo, hhi⟩ := h
  dsimp only at hlo hhi
  interval_cases m
  all_goals simp [daysInMonth, marchMonth, marchYear, monthStart]

/-- What the parts of a date come to, counted from March. -/
structure IsMarch (d : Date) (y m day : Int) : Prop where
  month : 1 ≤ d.month ∧ d.month ≤ 12
  marchYear : d.marchYear = y
  marchMonth : d.marchMonth = m
  day : (d.day : Int) = day

theorem Falls.isMarch (h : Falls n y r) :
    IsMarch (ofMarch y r) y ((5 * r + 2) / 153) (r - monthStart ((5 * r + 2) / 153) + 1) := by
  obtain ⟨-, hr⟩ := h
  have hm : 0 ≤ (5 * r + 2) / 153 ∧ (5 * r + 2) / 153 ≤ 11 := by omega
  have hstart : monthStart ((5 * r + 2) / 153) ≤ r := by
    unfold monthStart
    omega
  unfold ofMarch
  refine ⟨?_, ?_, ?_, ?_⟩
  · dsimp only
    split_ifs <;> omega
  · simp only [Date.marchYear]
    split_ifs <;> omega
  · simp only [Date.marchMonth]
    split_ifs <;> omega
  · dsimp only
    omega

theorem Falls.valid (h : Falls n y r) : (ofMarch y r).Valid := by
  obtain ⟨hmonth, hyear, hm, hday⟩ := h.isMarch
  have hlength := daysInMonth_eq hmonth
  obtain ⟨-, hr⟩ := h
  rw [hm, hyear] at hlength
  refine ⟨hmonth, ?_⟩
  unfold monthStart at hlength hday
  split_ifs at hlength with hfeb hleap
  · omega
  · simp only [hleap, Bool.false_eq_true, and_false, or_false] at hr
    omega
  · omega

theorem Falls.toDays (h : Falls n y r) : (ofMarch y r).toDays = n := by
  obtain ⟨-, hyear, hm, hday⟩ := h.isMarch
  rw [toDays_eq, hyear, hm, hday]
  have hn := h.day
  omega

/-- Every day has a date. -/
theorem valid_ofDays (n : Int) : (ofDays n).Valid := by
  obtain ⟨y, r, h, hdate⟩ := exists_falls n
  rw [hdate]
  exact h.valid

theorem toDays_ofDays (n : Int) : (ofDays n).toDays = n := by
  obtain ⟨y, r, h, hdate⟩ := exists_falls n
  rw [hdate]
  exact h.toDays

/-! ## The order of dates -/

/-- The order of dates, by year, month and day. -/
def key (d : Date) : Int ×ₗ (Nat ×ₗ Nat) := toLex (d.year, toLex (d.month, d.day))

theorem key_injective : Function.Injective key := by
  rintro ⟨y, m, d⟩ ⟨y', m', d'⟩ h
  simpa [key] using h

theorem yearStart_add_one (y : Int) :
    yearStart (y + 1) = yearStart y + 365 + if isLeap (y + 1) then 1 else 0 := by
  unfold yearStart
  split_ifs with h
  · rw [isLeap_iff] at h
    omega
  · rw [isLeap_iff] at h
    omega

theorem yearStart_mono {y' : Int} (h : y ≤ y') : yearStart y ≤ yearStart y' := by
  have hcentury (y : Int) : y / 100 = y / 4 / 25 := by omega
  have hfour : y / 4 ≤ y' / 4 := Int.ediv_le_ediv (by decide) h
  have hera : y / 400 ≤ y' / 400 := Int.ediv_le_ediv (by decide) h
  unfold yearStart
  rw [hcentury, hcentury]
  omega

/-- A later month starts after the end of an earlier one. -/
theorem Valid.lt_of_march {d d' : Date} (h : d.Valid) (h' : d'.Valid)
    (hlt : d.marchYear < d'.marchYear ∨
      d.marchYear = d'.marchYear ∧ d.marchMonth < d'.marchMonth) : d.toDays < d'.toDays := by
  have hlength := daysInMonth_eq h.month
  have hmonth (d : Date) : 0 ≤ d.marchMonth ∧ d.marchMonth ≤ 11 := by
    unfold marchMonth
    omega
  have hm := hmonth d
  have hm' := hmonth d'
  obtain ⟨-, hday⟩ := h.day
  obtain ⟨hday', -⟩ := h'.day
  rw [toDays_eq, toDays_eq]
  rcases hlt with hlt | ⟨hyear, hlt⟩
  · have hnext := yearStart_mono (Int.add_one_le_of_lt hlt)
    rw [yearStart_add_one] at hnext
    unfold monthStart at hlength ⊢
    split_ifs at hlength hnext <;> omega
  · rw [hyear]
    unfold monthStart at hlength ⊢
    split_ifs at hlength <;> omega

theorem toDays_lt_toDays {d' : Date} (h : d.Valid) (h' : d'.Valid) (hlt : d.key < d'.key) :
    d.toDays < d'.toDays := by
  rw [key, key, Prod.Lex.toLex_lt_toLex, Prod.Lex.toLex_lt_toLex] at hlt
  have hmonth := h.month
  have hmonth' := h'.month
  rcases hlt with hyear | ⟨hyear, hmo | ⟨hmo, hday⟩⟩
  · refine h.lt_of_march h' ?_
    dsimp only at hyear
    unfold marchYear marchMonth
    split_ifs <;> omega
  · refine h.lt_of_march h' ?_
    dsimp only at hyear hmo
    unfold marchYear marchMonth
    split_ifs <;> omega
  · dsimp only at hyear hmo hday
    have hm : d.marchYear = d'.marchYear ∧ d.marchMonth = d'.marchMonth := by
      rw [marchYear, marchYear, marchMonth, marchMonth, hyear, hmo]
      exact ⟨rfl, rfl⟩
    rw [toDays_eq, toDays_eq, hm.1, hm.2]
    omega

/-- Dates follow one another as the days do. -/
theorem key_ofDays_lt_iff {m : Int} : (ofDays m).key < (ofDays n).key ↔ m < n := by
  have hlt {m n : Int} (h : (ofDays m).key < (ofDays n).key) : m < n := by
    rw [← toDays_ofDays m, ← toDays_ofDays n]
    exact toDays_lt_toDays (valid_ofDays m) (valid_ofDays n) h
  refine ⟨hlt, fun h ↦ ?_⟩
  rcases lt_trichotomy (ofDays m).key (ofDays n).key with hkey | hkey | hkey
  · exact hkey
  · rw [← toDays_ofDays m, key_injective hkey, toDays_ofDays] at h
    exact absurd h (lt_irrefl _)
  · exact absurd (hlt hkey) h.asymm

end Date
end Steward
