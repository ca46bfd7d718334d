import Steward.Proofs.Instant.Written
import Steward.Proofs.Ledger.Run

/-!
# Times in a ledger

A record has the time of the clock, or that of the record before it if the clock is behind. A ledger
that stays open knows the time before to the nanosecond, one that is opened again reads it from the
file to the microsecond. That makes no difference: every record is stamped with the latest reading of
the clock so far, cut to microseconds, `Ledger.times_over_run`, so that times never go back.
-/

namespace Steward

/-! ## The latest so far -/

namespace Instant

variable {s t : Instant} {top : Option Instant}

theorem le_latest_right (s t : Instant) : t.le (s.latest t) := by
  unfold latest
  split_ifs with h
  · exact t.le_refl
  · rw [le_iff] at h ⊢
    omega

theorem cut_latest (s t : Instant) : (s.latest t).cut = s.cut.latest t.cut := by
  unfold latest
  split_ifs with h hcut hcut
  · rfl
  · exact absurd (cut_le_cut h) hcut
  · -- The two differ below the microsecond only.
    rw [le_iff] at h hcut
    simp only [cut, Instant.mk.injEq] at hcut ⊢
    omega
  · rfl

/-- The later of an instant and one before it, if there is one. -/
def peak (top : Option Instant) (t : Instant) : Instant := top.elim t t.latest

/-- For each instant the latest of those up to it, and of one before all of them, if there is one. -/
def peaks (top : Option Instant) : List Instant → List Instant
  | [] => []
  | t :: ts => peak top t :: peaks (some (peak top t)) ts

theorem le_peak (h : t ∈ top) (s : Instant) : t.le (peak top s) := by
  rw [Option.mem_def.1 h]
  exact le_latest_right s t

theorem peak_cases (top : Option Instant) (t : Instant) : peak top t = t ∨ peak top t ∈ top := by
  cases top with
  | none => exact .inl rfl
  | some s =>
    rw [peak, Option.elim_some, latest]
    split_ifs
    · exact .inr rfl
    · exact .inl rfl

theorem cut_peak (top : Option Instant) (t : Instant) :
    (peak top t).cut = peak (top.map cut) t.cut := by
  cases top with
  | none => rfl
  | some s => exact cut_latest t s

theorem le_of_mem_peaks {ts : List Instant} (ht : t ∈ top) (hs : s ∈ peaks top ts) : t.le s := by
  induction ts generalizing top t with
  | nil => cases hs
  | cons u ts ih =>
    rcases List.mem_cons.1 hs with rfl | hs
    · exact le_peak ht u
    · exact le_trans (le_peak ht u) (ih rfl hs)

/-- The latest so far never goes back. -/
theorem pairwise_peaks (top : Option Instant) (ts : List Instant) :
    (peaks top ts).Pairwise fun s t ↦ s.le t := by
  induction ts generalizing top with
  | nil => exact .nil
  | cons t ts ih => exact .cons (fun s hs ↦ le_of_mem_peaks rfl hs) (ih _)

theorem forall_mem_peaks {P : Instant → Prop} {ts : List Instant} (htop : ∀ t ∈ top, P t)
    (hts : ∀ t ∈ ts, P t) : ∀ t ∈ peaks top ts, P t := by
  induction ts generalizing top with
  | nil => simp [peaks]
  | cons t ts ih =>
    obtain ⟨ht, hts⟩ := List.forall_mem_cons.1 hts
    have hpeak : P (peak top t) := by
      rcases peak_cases top t with h | h
      · rwa [h]
      · exact htop _ h
    exact List.forall_mem_cons.2 ⟨hpeak, ih (by simpa using hpeak) hts⟩

end Instant

namespace Ledger

open Instant

/-! ## What a step does to the time -/

/-- The reading of the clock that a step takes. -/
def Step.clock? : Step → Option Instant
  | append now _ => some now
  | reopen => none

theorem Tail.timeAt_eq_peak (tail : Tail) (now : Instant) : tail.timeAt now = peak tail.lastTime now := by
  rw [timeAt]
  cases tail.lastTime <;> rfl

theorem Tail.timestamp?_next {tail : Tail} {now : Instant} (h : (tail.timeAt now).Common)
    (digest : Digest) (e : Entry) :
    (tail.next digest now e).timestamp? = some (tail.timeAt now).cut := by
  rw [Record.timestamp?, Tail.next, Record.sealed, h.parse?_micros]

theorem Tail.lastTime_ofText (text : List Char) :
    (Tail.ofText text).lastTime = (records text).getLast?.bind (·.timestamp?) := rfl

namespace Log

variable {digest : Digest} {log log' : Log} {t t' : FileTree} {text text' : List Char}
  {r : Option Record} {now : Instant} {e : Entry} {top : Option Instant}

theorem step_append_inv (h : log.step digest (.append now e) t = .ok (r, log') t') :
    r = some (log.tail.next digest now e) ∧
      log'.tail = log.tail.after now (log.tail.next digest now e) := by
  simp only [Log.step, Log.append, bind, EStateM.bind] at h
  cases happend : Disk.append now log.path
      (Utf8.encode (log.tail.lineFor (log.tail.next digest now e))) t with
  | error err t₁ =>
    rw [happend] at h
    cases h
  | ok u t₁ =>
    rw [happend] at h
    cases h
    exact ⟨rfl, rfl⟩

theorem step_reopen_inv (h : log.step digest .reopen t = .ok (r, log') t') :
    r = none ∧ openAt log.path t = .ok log' t' := by
  simp only [Log.step, bind, EStateM.bind] at h
  cases hopen : openAt log.path t with
  | error err t₁ =>
    rw [hopen] at h
    cases h
  | ok log₁ t₁ =>
    rw [hopen] at h
    cases h
    exact ⟨rfl, rfl⟩

/-- The last time that a ledger knows, and the one in its text, agree to the microsecond. -/
structure Timed (log : Log) (text : List Char) (top : Option Instant) : Prop where
  common : ∀ t ∈ log.tail.lastTime, t.Common
  tail : log.tail.lastTime.map cut = top
  last : (records text).getLast?.bind (·.timestamp?) = top

theorem Timed.common_top (h : log.Timed text top) : ∀ t ∈ top, t.Common := by
  intro t ht
  rw [← h.tail] at ht
  obtain ⟨s, hs, rfl⟩ := Option.mem_map.1 ht
  exact (h.common s hs).cut

/-- An entry is stamped with the latest reading so far. -/
theorem Timed.append (h : log.Timed text top) (hnow : now.Common)
    (hstep : log.step digest (.append now e) t = .ok (r, log') t')
    (hrecords : records text' = records text ++ r.toList) :
    log'.Timed text' (some (peak top now.cut)) ∧
      r.map (·.ts) = some ((peak top now.cut).rfc3339 .micros) := by
  obtain ⟨rfl, htail⟩ := step_append_inv hstep
  have hcommon : (log.tail.timeAt now).Common := by
    rw [Tail.timeAt_eq_peak]
    rcases peak_cases log.tail.lastTime now with heq | hmem
    · rwa [heq]
    · exact h.common _ hmem
  have hcut : (log.tail.timeAt now).cut = peak top now.cut := by
    rw [Tail.timeAt_eq_peak, cut_peak, h.tail]
  refine ⟨⟨?_, ?_, ?_⟩, ?_⟩
  · rw [htail]
    rintro _ ⟨⟩
    exact hcommon
  · rw [htail, ← hcut]
    rfl
  · rw [hrecords, Option.toList_some, List.getLast?_concat, Option.bind_some,
      Tail.timestamp?_next hcommon, hcut]
  · rw [← hcut, hcommon.micros_cut]
    rfl

/-- What is read when a ledger is opened again is the time that it knew, to the microsecond. -/
theorem Timed.reopen (h : log.Timed text top)
    (hstep : log.step digest .reopen t = .ok (r, log') t') (hread : readText t' log.path = .ok text')
    (hrecords : records text' = records text ++ r.toList) : log'.Timed text' top ∧ r = none := by
  obtain ⟨rfl, hopen⟩ := step_reopen_inv hstep
  obtain ⟨-, text₁, hread₁, rfl⟩ := openAt_eq_ok hopen
  obtain rfl : text' = text₁ := Except.ok.inj (hread.symm.trans hread₁)
  have hlast : (records text').getLast?.bind (·.timestamp?) = top := by
    rw [hrecords, Option.toList_none, List.append_nil]
    exact h.last
  have hcut : top.map cut = top := by
    rw [← h.tail, Option.map_map]
    exact congrArg (Option.map · _) (funext cut_cut)
  refine ⟨⟨?_, ?_, hlast⟩, rfl⟩
  · rw [Tail.lastTime_ofText, hlast]
    exact h.common_top
  · rw [Tail.lastTime_ofText, hlast, hcut]

/-- What a step keeps: a record is stamped with the latest reading so far, and the rest of the run
goes on from there. -/
theorem Timed.step (h : log.Timed text top) {s : Step} (hclock : ∀ now ∈ s.clock?, now.Common)
    (hstep : log.step digest s t = .ok (r, log') t') (hread : readText t' log.path = .ok text')
    (hrecords : records text' = records text ++ r.toList) :
    ∃ top', log'.Timed text' top' ∧ ∀ ts,
      (peaks top ((s.clock?.toList ++ ts).map cut)).map (·.rfc3339 .micros) =
        r.toList.map (·.ts) ++ (peaks top' (ts.map cut)).map (·.rfc3339 .micros) := by
  cases s with
  | append now e =>
    obtain ⟨htimed, hts⟩ := h.append (hclock now rfl) hstep hrecords
    obtain ⟨r, rfl, hstamp⟩ := Option.map_eq_some_iff.1 hts
    exact ⟨_, htimed, fun ts ↦ by simp [Step.clock?, peaks, hstamp]⟩
  | reopen =>
    obtain ⟨htimed, rfl⟩ := h.reopen hstep hread hrecords
    exact ⟨top, htimed, fun ts ↦ rfl⟩

/-- What a run keeps: the records are stamped with the latest readings so far. -/
theorem Timed.steps (h : log.Timed text top) (hopen : log.Open t text)
    (hchain : Chained digest genesisHash (records text)) (ss : List Step)
    (hfits : ∀ s ∈ ss, ∀ e ∈ s.entry?, e.Fits) (hclock : ∀ s ∈ ss, ∀ now ∈ s.clock?, now.Common) :
    ∃ rs log' t', log.steps digest ss t = .ok (rs, log') t' ∧ rs.map (·.ts) =
      (peaks top ((ss.filterMap Step.clock?).map cut)).map (·.rfc3339 .micros) := by
  induction ss generalizing log t text top with
  | nil => exact ⟨[], log, t, rfl, rfl⟩
  | cons s ss ih =>
    obtain ⟨hs, hfits⟩ := List.forall_mem_cons.1 hfits
    obtain ⟨hnow, hclock⟩ := List.forall_mem_cons.1 hclock
    obtain ⟨r, log₁, t₁, text₁, hstep, hpath, hopen₁, -, hchain₁, hrecords, -, -⟩ :=
      hopen.step hchain s hs
    obtain ⟨top₁, htimed, hts⟩ := h.step hnow hstep (hpath ▸ hopen₁.read) hrecords
    obtain ⟨rs, log₂, t₂, hsteps, hts₂⟩ := ih htimed hopen₁ hchain₁ hfits hclock
    have hclocks : (s :: ss).filterMap Step.clock? =
        s.clock?.toList ++ ss.filterMap Step.clock? := by
      rw [List.filterMap_cons]
      cases s.clock? <;> rfl
    refine ⟨r.toList ++ rs, log₂, t₂, ?_, ?_⟩
    · simp only [Log.steps, bind, EStateM.bind, hstep, hsteps]
      rfl
    · rw [List.map_append, hts₂, hclocks, hts]

end Log

/-- A ledger without records is opened, and no one else writes to it. However it is then added to and
opened again, and whatever the clock shows in the years from 0000 to 9999, every record has a time:
the latest reading of the clock so far, cut to microseconds. So the times of the records do not go
back, and neither do their texts. -/
theorem times_over_run {digest : Digest} {p : Path} {t₀ t : FileTree} {log : Log}
    (hopen : Log.openAt p t₀ = .ok log t) (hwritable : Writable t p)
    (hempty : readRecords t p = .ok []) (ss : List Step)
    (hfits : ∀ s ∈ ss, ∀ e ∈ s.entry?, e.Fits) (hclock : ∀ s ∈ ss, ∀ now ∈ s.clock?, now.Common) :
    ∃ rs log' t' times, log.steps digest ss t = .ok (rs, log') t' ∧ readRecords t' p = .ok rs ∧
      rs.map (·.entry) = ss.filterMap Step.entry? ∧
      rs.map (·.timestamp?) = times.map some ∧
      times = peaks none ((ss.filterMap Step.clock?).map cut) ∧
      times.Pairwise (fun s t ↦ s.le t) ∧ (rs.map (·.ts)).Pairwise (· ≤ ·) := by
  obtain ⟨hparents, text, hread, rfl⟩ := Log.openAt_eq_ok hopen
  have hnone : records text = [] := Except.ok.inj ((readRecords_of_readText hread).symm.trans hempty)
  have hchain : Chained digest genesisHash (records text) := by
    rw [hnone]
    trivial
  have hfirst : Log.Open ⟨p, .ofText text⟩ t text :=
    ⟨hwritable, hread, hparents, Tail.follows_ofText text⟩
  have htimed : Log.Timed ⟨p, .ofText text⟩ text none := by
    refine ⟨?_, ?_, ?_⟩ <;> simp [Tail.lastTime_ofText, hnone]
  obtain ⟨rs, log', t', text', hsteps, hpath, hopen', -, -, hrecords, -, hentries⟩ :=
    hfirst.steps hchain ss hfits
  obtain ⟨_, _, _, hsteps', hts⟩ := htimed.steps hfirst hchain ss hfits hclock
  cases hsteps.symm.trans hsteps'
  have hcut : ∀ t ∈ peaks none ((ss.filterMap Step.clock?).map cut), t.Common ∧ t.cut = t := by
    refine forall_mem_peaks (by simp) fun t ht ↦ ?_
    obtain ⟨now, hnow, rfl⟩ := List.mem_map.1 ht
    obtain ⟨s, hs, hnow⟩ := List.mem_filterMap.1 hnow
    exact ⟨(hclock s hs now hnow).cut, now.cut_cut⟩
  refine ⟨rs, log', t', _, hsteps, ?_, hentries, ?_, rfl, pairwise_peaks _ _, ?_⟩
  · have hread' : readText t' p = .ok text' := by simpa [hpath] using hopen'.read
    rw [readRecords_of_readText hread', hrecords, hnone, List.nil_append]
  · calc rs.map (·.timestamp?)
      _ = (rs.map (·.ts)).map parse? := by rw [List.map_map]; rfl
      _ = _ := by
        rw [hts, List.map_map]
        refine List.map_congr_left fun t ht ↦ ?_
        rw [Function.comp_apply, (hcut t ht).1.parse?_micros, (hcut t ht).2]
  · rw [hts, List.pairwise_map]
    refine (pairwise_peaks _ _).imp_of_mem fun hs ht hle ↦ ?_
    rwa [(hcut _ hs).1.micros_le_micros_iff (hcut _ ht).1, (hcut _ hs).2, (hcut _ ht).2]

/-- The clock goes back by less than a microsecond while the ledger is opened again, then by seconds,
and then forward. -/
def backwardSteps : List Step :=
  [.append ⟨10, 1500⟩ { action := "scan", target := "", allowed := true }, .reopen,
    .append ⟨10, 1200⟩ { action := "heal", target := "", allowed := true },
    .append ⟨3, 0⟩ { action := "scan", target := "", allowed := false },
    .append ⟨10, 2999⟩ { action := "heal", target := "", allowed := true }]

theorem times_over_run_backward :
    ∃ rs log' t', Log.steps (fun _ ↦ "digest") backwardSteps
        ⟨⟨"/log/a"⟩, ⟨genesisHash, none, true⟩⟩ tornTree = .ok (rs, log') t' ∧
      rs.map (·.timestamp?) =
        [some ⟨10, 1000⟩, some ⟨10, 1000⟩, some ⟨10, 1000⟩, some ⟨10, 2000⟩] ∧
      (rs.map (·.ts)).Pairwise (· ≤ ·) := by
  have hopen : Log.openAt ⟨"/log/a"⟩ tornTree =
      .ok ⟨⟨"/log/a"⟩, ⟨genesisHash, none, true⟩⟩ tornTree := by rfl
  have hwritable : Writable tornTree ⟨"/log/a"⟩ := ⟨["log", "a"], .inr ⟨by rfl, _, rfl, rfl⟩⟩
  have hempty : readRecords tornTree ⟨"/log/a"⟩ = .ok [] := by rfl
  have hfits : ∀ s ∈ backwardSteps, ∀ e ∈ s.entry?, e.Fits := by
    simp only [backwardSteps, List.forall_mem_cons, Step.entry?, Option.mem_def, Option.some.injEq,
      forall_eq', reduceCtorEq, false_imp_iff, implies_true, List.not_mem_nil, and_true, true_and]
    refine ⟨?_, ?_, ?_, ?_⟩ <;>
      exact ⟨Counts.fits_empty, Counts.fits_empty, Counts.fits_empty, by simp⟩
  have hclock : ∀ s ∈ backwardSteps, ∀ now ∈ s.clock?, now.Common := by
    simp only [backwardSteps, List.forall_mem_cons, Step.clock?, Option.mem_def, Option.some.injEq,
      forall_eq', reduceCtorEq, false_imp_iff, implies_true, List.not_mem_nil, and_true, true_and]
    refine ⟨?_, ?_, ?_, ?_⟩ <;> exact ⟨⟨by decide, by decide⟩, by decide⟩
  obtain ⟨rs, log', t', times, hsteps, -, -, htimes, rfl, -, htexts⟩ :=
    times_over_run hopen hwritable hempty backwardSteps hfits hclock
  exact ⟨rs, log', t', hsteps, htimes, htexts⟩

end Ledger

end Steward
