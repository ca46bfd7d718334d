import Steward.Proofs.Counts
import Steward.Proofs.Instant.Stamp
import Steward.Proofs.Journal

/-!
# Windows of time

What the index answers about the last days. Its times are texts to the second, and so is the start of
the days that are asked for; both stand for the seconds they were made from.
-/

namespace Steward

open List

namespace Instant

variable {now t seen : Instant} {days : Nat}

/-! ## Some days earlier -/

/-- The instant some days earlier, whether time is kept then or not. -/
def earlier (now : Instant) (days : Nat) : Instant :=
  let base : Instant :=
    if 0 < days && nanosPerSecond ≤ now.nanos then ⟨now.seconds + 1, now.nanos - nanosPerSecond⟩
    else now
  { base with seconds := base.seconds - days * secondsPerDay }

theorem minusDays?_eq (now : Instant) (days : Nat) :
    now.minusDays? days = if (now.earlier days).inRange then some (now.earlier days) else none := rfl

theorem eq_earlier_of_minusDays? {cutoff : Instant} (h : now.minusDays? days = some cutoff) :
    cutoff = now.earlier days ∧ cutoff.inRange := by
  rw [minusDays?_eq] at h
  split_ifs at h with hrange
  cases h
  exact ⟨rfl, hrange⟩

/-- Whether days are taken off a leap second, which then counts as the second after it. -/
def Rolls (now : Instant) (days : Nat) : Prop := 0 < days ∧ nanosPerSecond ≤ now.nanos

theorem earlier_of_rolls (h : now.Rolls days) :
    now.earlier days = ⟨now.seconds + 1 - days * 86400, now.nanos - nanosPerSecond⟩ := by
  obtain ⟨hpos, hleap⟩ := h
  simp [earlier, hpos, hleap, secondsPerDay]

theorem earlier_of_not_rolls (h : ¬now.Rolls days) :
    now.earlier days = ⟨now.seconds - days * 86400, now.nanos⟩ := by
  unfold Rolls at h
  simp only [earlier, Bool.and_eq_true, decide_eq_true_eq, if_neg h, secondsPerDay]

theorem Proper.earlier (h : now.Proper) (days : Nat) : (now.earlier days).Proper := by
  obtain ⟨hnanos, hlast⟩ := h
  by_cases hroll : now.Rolls days
  · rw [earlier_of_rolls hroll]
    refine ⟨?_, ?_⟩ <;> dsimp only [nanosPerSecond] at * <;> omega
  · rw [earlier_of_not_rolls hroll]
    refine ⟨hnanos, fun hleap ↦ ?_⟩
    have hsecond := hlast hleap
    dsimp only
    omega

/-- More days earlier is no later. -/
theorem earlier_le_earlier (now : Instant) {days' : Nat} (h : days' ≤ days) :
    (now.earlier days).whole.le (now.earlier days').whole := by
  rw [le_iff]
  by_cases hroll : now.Rolls days
  · by_cases hroll' : now.Rolls days'
    · rw [earlier_of_rolls hroll, earlier_of_rolls hroll']
      simp only [whole]
      omega
    · rw [earlier_of_rolls hroll, earlier_of_not_rolls hroll']
      obtain ⟨hpos, hleap⟩ := hroll
      simp only [Rolls, hleap, and_true] at hroll'
      simp only [whole]
      omega
  · have hroll' : ¬now.Rolls days' := fun hr ↦ hroll ⟨hr.1.trans_le h, hr.2⟩
    rw [earlier_of_not_rolls hroll, earlier_of_not_rolls hroll']
    simp only [whole]
    omega

theorem dayNumber_mono {s : Instant} (h : s.whole.le t.whole) : s.dayNumber ≤ t.dayNumber := by
  rw [le_iff] at h
  simp only [whole] at h
  unfold dayNumber secondsPerDay
  omega

theorem year_mono {s : Instant} (h : s.dayNumber ≤ t.dayNumber) : s.date.year ≤ t.date.year := by
  by_contra hlt
  exact absurd (date_lt_iff.1 (.inl (not_le.1 hlt))) h.not_gt

theorem earlier_zero (now : Instant) : now.earlier 0 = now := by
  have h : ¬now.Rolls 0 := fun h ↦ absurd h.1 (lt_irrefl 0)
  simp [earlier_of_not_rolls h]

theorem earlier_le (now : Instant) (days : Nat) : (now.earlier days).whole.le now.whole := by
  have h := now.earlier_le_earlier days.zero_le
  rwa [earlier_zero] at h

theorem Common.year_earlier_le (h : now.Common) (days : Nat) :
    (now.earlier days).date.year ≤ 9999 := by
  exact (year_mono (dayNumber_mono (now.earlier_le days))).trans h.year.2

theorem Common.dayNumber_le (h : t.Common) : t.dayNumber ≤ Date.latest.toDays := by
  have hlast : Date.latest.Valid := Date.isValid_iff.1 (by decide)
  have hkey : t.date.key < Date.latest.key := by
    rw [Date.key, Date.key, Prod.Lex.toLex_lt_toLex]
    refine .inl ?_
    have hyear := h.year.2
    simp only [Date.latest]
    omega
  have hdays := Date.toDays_lt_toDays (Date.valid_ofDays _) hlast hkey
  rw [Date.toDays_ofDays] at hdays
  exact hdays.le

theorem le_daysSince {a b : Instant} {n : Nat} (h : n * 86400000000000 ≤ a.nanosSince b) :
    (n : Int) ≤ a.daysSince b := by
  rw [daysSince, Int.tdiv_eq_ediv_of_nonneg (by omega)]
  exact (Int.le_ediv_iff_mul_le (by decide)).2 h

/-- Whether an instant is counted one day short: it is asked for in a leap second before the last
second of a day, and it is in the very second the days start in. -/
def Short (now : Instant) (days : Nat) (cutoff seen : Instant) : Prop :=
  now.Rolls days ∧ now.secondOfDay ≠ 86399 ∧ seen.whole = cutoff.whole

theorem le_age_of_not_rolls (hnow : now.Proper) (hseen : seen.Proper) (hroll : ¬now.Rolls days)
    (hle : seen.whole.le (now.earlier days).whole) : (days : Int) ≤ now.daysSince seen.whole := by
  refine le_daysSince ?_
  obtain ⟨hn, -⟩ := hnow
  obtain ⟨hs, -⟩ := hseen
  rw [le_iff, earlier_of_not_rolls hroll] at hle
  unfold Rolls at hroll
  simp only [nanosSince, whole, secondOfDay, secondsPerDay, nanosPerSecond] at *
  split_ifs <;> omega

theorem le_age_of_rolls (hnow : now.Proper) (hseen : seen.Proper) (hroll : now.Rolls days)
    (hle : seen.whole.le (now.earlier days).whole)
    (hshort : ¬now.Short days (now.earlier days) seen) :
    (days : Int) ≤ now.daysSince seen.whole := by
  refine le_daysSince ?_
  obtain ⟨hn, -⟩ := hnow
  obtain ⟨hs, -⟩ := hseen
  rw [Short, earlier_of_rolls hroll] at hshort
  rw [le_iff, earlier_of_rolls hroll] at hle
  obtain ⟨hpos, hleap⟩ := hroll
  simp only [Rolls, hpos, true_and, nanosSince, whole, secondOfDay, secondsPerDay,
    nanosPerSecond, ne_eq, Instant.mk.injEq] at *
  split_ifs <;> omega

theorem age_of_short (hnow : now.Proper) (hshort : now.Short days (now.earlier days) seen) :
    now.daysSince seen.whole + 1 = days := by
  obtain ⟨hroll, hday, hsame⟩ := hshort
  obtain ⟨hn, -⟩ := hnow
  rw [hsame, earlier_of_rolls hroll]
  obtain ⟨hpos, hleap⟩ := hroll
  have hnanos : now.nanosSince (whole ⟨now.seconds + 1 - days * 86400, now.nanos - nanosPerSecond⟩) =
      (days * 86400 - 2) * 1000000000 + now.nanos := by
    simp only [nanosSince, whole, secondOfDay, secondsPerDay, nanosPerSecond] at *
    split_ifs <;> omega
  rw [daysSince, hnanos, Int.tdiv_eq_ediv_of_nonneg (by omega)]
  simp only [secondsPerDay, nanosPerSecond] at *
  omega

end Instant

/-! ## Sorting a part -/

namespace Index

variable {x : Index} {made : CommitRow → Instant} {seen : Finding → Instant} {now cutoff : Instant}
  {days : Nat}

/-- When the rows of an index were made: the times it holds are the texts of these instants. -/
structure Dated (x : Index) (made : CommitRow → Instant) (seen : Finding → Instant) : Prop where
  commits : ∀ c ∈ x.commits, (made c).Common ∧ c.committedAt = (made c).stamp
  findings : ∀ f ∈ x.findings, (seen f).Common ∧ f.firstSeen = (seen f).stamp

/-- An activity is that of the seconds from a start on. -/
structure Activity.Since (a : Activity) (x : Index) (made : CommitRow → Instant)
    (seen : Finding → Instant) (start : Instant) : Prop where
  commits : a.commits = x.commits.countP fun c ↦ start.le (made c).whole
  pairwise_files : a.filesChanged.Pairwise (· < ·)
  mem_files : ∀ file, file ∈ a.filesChanged ↔
    ∃ c ∈ x.commits, start.le (made c).whole ∧ (c.id, file) ∈ x.commitFiles
  mem_kinds : ∀ kind n, (kind, n) ∈ a.violationsByKind.entries ↔
    0 < n ∧ x.findings.countP (fun f ↦ decide (f.kind = kind) && start.le (seen f).whole) = n

theorem mem_distinct {a : String} {xs : List String} : a ∈ distinct xs ↔ a ∈ xs :=
  ⟨Work.mem_sortedDistinct, Work.mem_sortedDistinct_of_mem⟩

theorem Dated.activity (hx : x.Dated made seen) (hnow : now.Common)
    (hcut : now.minusDays? days = some cutoff) :
    ∃ a, x.activity? days now = some a ∧ a.Since x made seen cutoff.whole := by
  obtain ⟨rfl, -⟩ := Instant.eq_earlier_of_minusDays? hcut
  have hle {t : Instant} (ht : t.Common) :
      (now.earlier days).stamp ≤ t.stamp ↔ (now.earlier days).whole.le t.whole :=
    ht.le_stamp_iff (hnow.toProper.earlier days) (hnow.year_earlier_le days)
  have hcommit {c : CommitRow} (hc : c ∈ x.commits) :
      (now.earlier days).stamp ≤ c.committedAt ↔ (now.earlier days).whole.le (made c).whole := by
    obtain ⟨hcommon, htext⟩ := hx.commits c hc
    rw [htext, hle hcommon]
  refine ⟨_, by rw [activity?, hcut]; rfl, ?_, Work.pairwise_sortedDistinct _, fun file ↦ ?_,
    fun kind n ↦ ?_⟩
  · change (x.commitsFrom _).length = _
    rw [commitsFrom, ← countP_eq_length_filter]
    exact countP_congr fun c hc ↦ by rw [decide_eq_true_iff, hcommit hc]
  · change file ∈ distinct _ ↔ _
    rw [mem_distinct, mem_map]
    constructor
    · rintro ⟨⟨id, file⟩, h, rfl⟩
      obtain ⟨hrow, hid⟩ := mem_filter.1 h
      obtain ⟨c, hc, rfl⟩ := mem_map.1 (contains_iff_mem.1 hid)
      obtain ⟨hc, hsince⟩ := mem_filter.1 hc
      exact ⟨c, hc, (hcommit hc).1 (of_decide_eq_true hsince), hrow⟩
    · rintro ⟨c, hc, hsince, hrow⟩
      refine ⟨(c.id, file), mem_filter.2 ⟨hrow, ?_⟩, rfl⟩
      refine contains_iff_mem.2 (mem_map_of_mem (mem_filter.2 ⟨hc, ?_⟩))
      exact decide_eq_true ((hcommit hc).2 hsince)
  · change (kind, n) ∈ (Counts.tally _).entries ↔ _
    rw [Counts.mem_tally_iff, List.count, countP_map, countP_filter]
    refine and_congr_right fun _ ↦ Eq.congr (countP_congr fun f hf ↦ ?_) rfl
    obtain ⟨hcommon, htext⟩ := hx.findings f hf
    simp only [Function.comp, Bool.and_eq_true, beq_iff_eq, decide_eq_true_eq, htext, hle hcommon]

/-! ## To-do marks -/

/-- What to-do marks are ordered by, as the index keeps it. -/
def todoRank (f : Finding) : String ×ₗ (String ×ₗ Int) :=
  toLex (f.firstSeen, toLex (f.file, signed f.line))

theorem todoLe_iff {a b : Finding} : todoLe a b ↔ todoRank a ≤ todoRank b := by
  rw [todoLe, todoRank, todoRank, Prod.Lex.toLex_le_toLex, Prod.Lex.toLex_le_toLex]
  split_ifs with hseen hfile
  · simp [hseen]
  · rw [not_not] at hseen
    simp [hseen, hfile]
  · rw [not_not] at hseen hfile
    simp [hseen, hfile]

theorem todoLe_trans (a b c : Finding) (hab : todoLe a b) (hbc : todoLe b c) : todoLe a c :=
  todoLe_iff.2 ((todoLe_iff.1 hab).trans (todoLe_iff.1 hbc))

theorem todoLe_total (a b : Finding) : todoLe a b || todoLe b a := by
  rw [Bool.or_eq_true, todoLe_iff, todoLe_iff]
  exact le_total _ _

/-- The order of to-do marks: by the second they were first seen in, by file and by line. -/
def TodoBefore (seen : Finding → Instant) (a b : Finding) : Prop :=
  ¬(seen b).whole.le (seen a).whole ∨ (seen a).whole = (seen b).whole ∧
    (a.file < b.file ∨ a.file = b.file ∧ signed a.line ≤ signed b.line)

/-- To-do marks are those of an index that were first seen by a cutoff some days ago, with their ages
in days. -/
structure Stale (x : Index) (seen : Finding → Instant) (now : Instant) (days : Nat)
    (cutoff : Instant) (fs : List Finding) (todos : List Todo) : Prop where
  perm : fs.Perm (x.todos.filter fun f ↦ (seen f).whole.le cutoff.whole)
  ordered : fs.Pairwise (TodoBefore seen)
  todos_eq : todos = fs.map fun f ↦
    ⟨f.id, f.file, f.line, f.text, f.firstSeen, now.daysSince (seen f).whole⟩
  age : ∀ f ∈ fs, ¬now.Short days cutoff (seen f) → (days : Int) ≤ now.daysSince (seen f).whole
  age_of_short : ∀ f ∈ fs, now.Short days cutoff (seen f) →
    now.daysSince (seen f).whole + 1 = days

theorem todoBefore_of_todoLe {a b : Finding} (ha : (seen a).Common ∧ a.firstSeen = (seen a).stamp)
    (hb : (seen b).Common ∧ b.firstSeen = (seen b).stamp) (h : todoLe a b) :
    TodoBefore seen a b := by
  rw [todoLe_iff, todoRank, todoRank, Prod.Lex.toLex_le_toLex, Prod.Lex.toLex_le_toLex] at h
  dsimp only at h
  rw [ha.2, hb.2, ha.1.stamp_lt_stamp_iff hb.1, ha.1.stamp_eq_iff hb.1] at h
  exact h

theorem staleTodos?_eq_some {x : Index} {now cutoff : Instant} {days : Nat}
    (hcut : now.minusDays? days = some cutoff) : x.staleTodos? days now =
      some (((x.todos.filter fun f ↦ f.firstSeen ≤ cutoff.stamp).mergeSort todoLe).map fun f ↦
        ⟨f.id, f.file, f.line, f.text, f.firstSeen, ageDays now f.firstSeen⟩) := by
  rw [staleTodos?, hcut, Option.map_some]

theorem Dated.stale (hx : x.Dated made seen) (hnow : now.Common)
    (hcut : now.minusDays? days = some cutoff) :
    ∃ fs todos, x.staleTodos? days now = some todos ∧ Stale x seen now days cutoff fs todos := by
  have hearlier := (Instant.eq_earlier_of_minusDays? hcut).1
  have hdated {f : Finding} (hf : f ∈ x.todos) : (seen f).Common ∧ f.firstSeen = (seen f).stamp :=
    hx.findings f (mem_of_mem_filter hf)
  have hle {f : Finding} (hf : f ∈ x.todos) :
      f.firstSeen ≤ cutoff.stamp ↔ (seen f).whole.le cutoff.whole := by
    obtain ⟨hcommon, htext⟩ := hdated hf
    rw [htext, hearlier, hcommon.stamp_le_iff (hnow.toProper.earlier days)
      (hnow.year_earlier_le days)]
  have hfilter : (x.todos.filter fun f ↦ f.firstSeen ≤ cutoff.stamp) =
      x.todos.filter fun f ↦ (seen f).whole.le cutoff.whole :=
    filter_congr fun f hf ↦ Bool.eq_iff_iff.2 (decide_eq_true_iff.trans (hle hf))
  rw [staleTodos?_eq_some hcut, hfilter]
  generalize hfs : (x.todos.filter fun f ↦ (seen f).whole.le cutoff.whole).mergeSort todoLe = fs
  have hmem {f : Finding} (hf : f ∈ fs) : f ∈ x.todos ∧ (seen f).whole.le cutoff.whole := by
    rw [← hfs, mem_mergeSort] at hf
    exact mem_filter.1 hf
  refine ⟨fs, _, rfl, ?_, ?_, ?_, fun f hf hshort ↦ ?_, fun f hf hshort ↦ ?_⟩
  · exact hfs ▸ mergeSort_perm _ _
  · have hsorted := pairwise_mergeSort todoLe_trans todoLe_total
      (x.todos.filter fun f ↦ (seen f).whole.le cutoff.whole)
    rw [hfs] at hsorted
    exact hsorted.imp_of_mem fun ha hb h ↦
      todoBefore_of_todoLe (hdated (hmem ha).1) (hdated (hmem hb).1) h
  · refine map_congr_left fun f hf ↦ ?_
    obtain ⟨hcommon, htext⟩ := hdated (hmem hf).1
    have hage : ageDays now f.firstSeen = now.daysSince (seen f).whole := by
      rw [ageDays, htext, hcommon.parse?_stamp]
      rfl
    rw [hage]
  · obtain ⟨hf, hold⟩ := hmem hf
    rw [hearlier] at hold hshort
    by_cases hroll : now.Rolls days
    · exact Instant.le_age_of_rolls hnow.toProper (hdated hf).1.toProper hroll hold hshort
    · exact Instant.le_age_of_not_rolls hnow.toProper (hdated hf).1.toProper hroll hold
  · exact Instant.age_of_short hnow.toProper (hearlier ▸ hshort)

end Index

end Steward
