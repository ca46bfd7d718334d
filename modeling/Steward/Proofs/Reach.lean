import Steward.Proofs.Index.Freshness
import Steward.Proofs.Index.Window
import Steward.Proofs.Remnant

/-!
# How far back a clock reaches

Time is kept from a first day on. Some days before now may be before it, and then there is no date to
work with: whatever needs one ends there and then. Which calls come to that is settled by the days
they ask for, by the index they find, and for a run by how far it gets. A run that comes to it has
healed its files by then, and its last record is missing; any other run ends with that record, or
because the ledger fails.
-/

set_option mvcgen.warning false

namespace Steward

open Std.Do

namespace Instant

/-- The number of days since the first day on which time is kept. A leap second is taken for the
second after it. -/
def reach (now : Instant) : Int :=
  (if nanosPerSecond ≤ now.nanos then now.seconds + 1 else now.seconds) / secondsPerDay -
    Date.earliest.toDays

variable {now : Instant}

theorem Common.dayNumber_bounds (h : now.Common) :
    -719528 ≤ now.dayNumber ∧ now.dayNumber ≤ 2932896 := by
  obtain ⟨hfirst, hlast⟩ := h.year
  constructor
  · by_contra hlt
    have hyear := year_mono (t := ⟨-719529 * 86400, 0⟩)
      (show now.dayNumber ≤ -719529 by omega)
    have hbefore : (⟨-719529 * 86400, 0⟩ : Instant).date.year = -1 := by decide
    omega
  · by_contra hlt
    have hday : (⟨2932897 * 86400, 0⟩ : Instant).dayNumber = 2932897 := by decide
    have hyear := year_mono (hday.trans_le (show 2932897 ≤ now.dayNumber by omega))
    have hafter : (⟨2932897 * 86400, 0⟩ : Instant).date.year = 10000 := by decide
    omega

theorem toDays_earliest : Date.earliest.toDays = -96465292 := by decide

theorem Common.reach_bounds (h : now.Common) : 95745764 ≤ now.reach ∧ now.reach ≤ 99398189 := by
  obtain ⟨hfirst, hlast⟩ := h.dayNumber_bounds
  rw [reach, toDays_earliest]
  simp only [dayNumber, secondsPerDay] at *
  split_ifs <;> omega

theorem Common.minusDays?_eq_none_iff (h : now.Common) (days : Nat) :
    now.minusDays? days = none ↔ now.reach < days := by
  have hreach := h.reach_bounds.1
  have hfirst := h.dayNumber_bounds.1
  have hlast := (dayNumber_mono (now.earlier_le days)).trans h.dayNumber_le
  rw [minusDays?_eq, ite_eq_right_iff]
  simp only [reduceCtorEq, imp_false, inRange, Bool.and_eq_true, decide_eq_true_iff, hlast,
    and_true, not_le, toDays_earliest]
  by_cases hroll : now.Rolls days
  · rw [earlier_of_rolls hroll, reach, if_pos hroll.2, toDays_earliest]
    simp only [dayNumber, secondsPerDay]
    omega
  · rw [earlier_of_not_rolls hroll]
    rw [reach, toDays_earliest] at hreach ⊢
    simp only [dayNumber, secondsPerDay, Rolls, not_and, not_le] at *
    split_ifs at * with hleap <;> omega

end Instant

/-! ## Faults -/

/-- The ledger could not be written. -/
def Fault.OfLedger (x : Fault) : Prop := ∃ y : Error, x = .error y ∧ y.kind = "AuditWriteFailure"

theorem Fault.OfLedger.ne_calendar {x : Fault} (h : x.OfLedger) : x ≠ .calendar := by
  obtain ⟨y, rfl, -⟩ := h
  simp

namespace Desk

/-- From `d` to `e` at most the ledger was added to. -/
def Logged (d e : Desk) : Prop :=
  e.basis = d.basis ∧ Relation.ReflTransGen
    (fun t t' ↦ ∃ bytes, Disk.append d.host.now d.session.log.path bytes t = .ok () t')
    d.host.tree e.host.tree

variable {d e f : Desk}

theorem Logged.trans (h : d.Logged e) (h' : e.Logged f) : d.Logged f := by
  refine ⟨h'.1.trans h.1, h.2.trans ?_⟩
  have hnow : e.host.now = d.host.now := congrArg Basis.now h.1
  rw [← hnow, ← (akin_of_basis h.1).logPath]
  exact h'.2

/-- Work that began at `d` ended with a fault at `e`: the ledger failed, or there was an error and
nothing but the ledger was written. -/
def Stops (d : Desk) (x : Fault) (e : Desk) : Prop :=
  x.OfLedger ∨ (∃ y : Error, x = .error y) ∧ d.Logged e

theorem Stops.ne_calendar {x : Fault} (h : d.Stops x e) : x ≠ .calendar := by
  rcases h with h | ⟨⟨y, rfl⟩, -⟩
  · exact h.ne_calendar
  · simp

/-- Commits are kept for more days than the clock reaches back. -/
def Overdrawn (d : Desk) : Prop := d.host.now.reach < d.session.config.memory.historyDays

theorem overdrawn_iff (h : d.host.now.Common) :
    d.Overdrawn ↔ d.host.now.minusDays? d.session.config.memory.historyDays = none :=
  (h.minusDays?_eq_none_iff _).symm

/-- At `d` and `e` the clock and the settings are the same. -/
def Timed (d e : Desk) : Prop := e.host.now = d.host.now ∧ e.session.config = d.session.config

theorem dated_iff (h : d.host.now.Common) :
    d.Dated ↔ ¬(d.session.indexStale = false ∧ d.Overdrawn) := by
  rw [overdrawn_iff h, Dated, Option.isSome_iff_ne_none]
  cases d.session.indexStale <;> simp

theorem dated_congr (h : e.basis = d.basis) : e.Dated ↔ d.Dated := by
  have hnow : e.host.now = d.host.now := congrArg Basis.now h
  have hconfig : e.session.config = d.session.config := congrArg Basis.config h
  have hstale : e.session.indexStale = d.session.indexStale := congrArg Basis.indexStale h
  rw [Dated, Dated, hnow, hconfig, hstale]

/-- The index is open, and the days are counted as at `d`. -/
def Answerable (d e : Desk) : Prop := d.Timed e ∧ e.session.index.isSome

theorem Answerable.logged (h : d.Answerable e) (h' : e.Logged f) : d.Answerable f := by
  have hnow : f.host.now = e.host.now := congrArg Basis.now h'.1
  have hconfig : f.session.config = e.session.config := congrArg Basis.config h'.1
  have hindex : f.session.index = e.session.index := congrArg Basis.index h'.1
  exact ⟨⟨hnow.trans h.1.1, hconfig.trans h.1.2⟩, hindex ▸ h.2⟩

/-- The index has to be rebuilt before it answers. -/
def Unready (d : Desk) : Prop := d.session.indexStale || d.session.index.isNone

/-- A rebuild of the index comes to a date before time. -/
def RebuildOverreaches (d : Desk) : Prop :=
  (d.decision ⟨.scan, d.session.root⟩).allowed ∧ d.Overdrawn

/-- A question about some days comes to a date before time: on the way to the index, or with it. -/
def Overasked (d : Desk) (days : Nat) : Prop :=
  d.Unready ∧ d.RebuildOverreaches ∨
    d.host.now.reach < days ∧ ∃ x e, Work.freshIndex d = .ok x e

end Desk

open Desk

/-- A run ends with its last record, unless the ledger fails. -/
def Stage.Closes (g : Stage) (mode : RunMode) : EStateM.Result Fault Desk RunReport → Prop
  | .ok report e => report = g.report mode e.session.indexStale ∧
    e.host.records.getLast?.map (·.entry) = some (g.entry mode e.session.indexStale)
  | .error x _ => x.OfLedger

namespace Work

variable {d : Desk} {α : Type}

/-! ## Runs -/

theorem record_logged (entry : Ledger.Entry) (Q : PostCond Unit (.except Fault (.arg Desk .pure))) :
    ⦃fun e => ⌜(∀ f, e.Noted [] [entry] f → e.Logged f → (Q.1 () f).down) ∧
      ∀ x f, x.OfLedger → (Q.2.1 x f).down⌝⦄ record entry ⦃Q⦄ := by
  rintro e ⟨hok, herror⟩
  simp only [wp, EStateM.run, PredTrans.apply, record_apply, Ledger.Log.append, bind, EStateM.bind]
  cases happend : Disk.append e.host.now e.session.log.path _ e.host.tree with
  | ok _ tree =>
    refine hok _ ⟨rfl, (List.append_nil _).symm, ?_⟩ ⟨rfl, .single ⟨_, happend⟩⟩
    exact ⟨[e.session.log.tail.next e.host.digest e.host.now entry], rfl, rfl⟩
  | error x tree => exact herror _ _ ⟨_, rfl, rfl⟩

/-- Healing ends early for the ledger alone. -/
theorem treat_ofLedger (mode : RunMode) (id target : String) (made : Option Decision)
    (vs : List Violation) :
    PreservesElse (fun _ => True) (fun x _ => x.OfLedger) (treat mode id target made vs) := by
  have hrecord (entry : Ledger.Entry) :
      PreservesElse (fun _ => True) (fun x _ => x.OfLedger) (record entry) :=
    fun e _ ↦ record_logged entry _ e ⟨fun _ _ _ ↦ trivial, fun _ _ hx ↦ hx⟩
  have hfile (made : Option Decision) (h : Healing) (file : String) :
      PreservesElse (fun _ => True) (fun x _ => x.OfLedger) (healFile id made h file) := by
    mvcgen [healFile, writeDecision, fixFile, hrecord]
  mvcgen [treat, healFiles, hfile]
  invariants
  · post⟨fun _ _ => ⌜True⌝, fun x _ => ⌜x.OfLedger⌝⟩
  case vc2.step.except.handle => exact fun _ hx ↦ hx

section Logged

theorem record_stops (entry : Ledger.Entry) : PreservesElse d.Logged d.Stops (record entry) :=
  fun e he ↦ record_logged entry _ e ⟨fun _ _ hf ↦ he.trans hf, fun _ _ hx ↦ .inl hx⟩

theorem fail_stops (y : Error) : PreservesElse d.Logged d.Stops (fail y : Work α) := by
  mvcgen [fail]
  case vc1 he => exact .inr ⟨⟨y, rfl⟩, he⟩

theorem runTarget_stops (id raw : String) : PreservesElse d.Logged d.Stops (runTarget id raw) := by
  have hrecord := @record_stops d
  have hfail := @fail_stops d
  mvcgen [runTarget, resolve, workspace, hfail, hrecord]

theorem clearance_stops (mode : RunMode) (id target : String) (p : Path) :
    PreservesElse d.Logged d.Stops (clearance mode id target p) := by
  have hrecord := @record_stops d
  have hfail := @fail_stops d
  mvcgen [clearance, preflight, hfail, hrecord]

theorem runSurvey_stops (id target : String) (p : Path) :
    PreservesElse d.Logged d.Stops (runSurvey id target p) := by
  have hrecord := @record_stops d
  have hfail := @fail_stops d
  mvcgen [runSurvey, survey, hfail, hrecord]

/-- A run that does not come to the index was recorded as such, or the ledger failed. -/
theorem stage_stops (mode : RunMode) (raw : String) :
    ⦃fun e => ⌜d.Logged e⌝⦄ stage mode raw
      ⦃post⟨fun _ _ => ⌜True⌝, fun x e => ⌜d.Stops x e⌝⟩⦄ := by
  have hrecord := @record_stops d
  have hfail := @fail_stops d
  have htarget := @runTarget_stops d
  have hclear := @clearance_stops d
  have hsurvey := @runSurvey_stops d
  -- Healing comes last, so whatever it wrote, its faults are those of the ledger.
  mvcgen [stage, drawRun_spec, htarget, workspace, deny, hfail, hrecord, hclear, hsurvey,
    treat_ofLedger]
  case vc4 | vc9 => exact .inl

end Logged

/-- Without a date the index cannot be refreshed, and nothing more is done. -/
theorem refreshIndex_of_not_dated (h : ¬d.Dated) (files : List String) (vs : List Violation) :
    ⦃fun e => ⌜e = d⌝⦄ refreshIndex files vs
      ⦃post⟨fun _ _ => ⌜False⌝, fun x e => ⌜x = .calendar ∧ e = d⌝⟩⦄ := by
  rw [Dated, not_or, Option.not_isSome_iff_eq_none] at h
  obtain ⟨hfresh, hnone⟩ := h
  mvcgen [refreshIndex, updateIndex, horizon, Job.daysAgo]
  case vc1 he hstale => exact hfresh (he ▸ hstale)
  case vc2 he _ _ hsome => cases (he ▸ hsome).symm.trans hnone

theorem close_closes (mode : RunMode) (g : Stage) :
    ⦃fun _ => ⌜True⌝⦄ close mode g
      ⦃post⟨fun report e => ⌜g.Closes mode (.ok report e)⌝,
        fun x e => ⌜g.Closes mode (.error x e)⌝⟩⦄ := by
  mvcgen [close, record_logged]
  case vc1 e stale =>
    refine ⟨fun f hnoted hlogged ↦ ?_, fun _ _ hx ↦ hx⟩
    have hstale : f.session.indexStale = stale := congrArg Basis.indexStale hlogged.1
    obtain ⟨rs, hrs, hrecords⟩ := hnoted.records
    obtain ⟨r, rfl, hr⟩ := List.map_eq_singleton_iff.1 hrs
    refine ⟨by rw [hstale], ?_⟩
    rw [hrecords, hstale, List.getLast?_concat]
    exact congrArg some hr

/-- A run from the index on. -/
def finish (mode : RunMode) (g : Stage) : Work RunReport := do
  refreshIndex g.survey.examined (← openAfter g.healing)
  close mode g

theorem run_apply (mode : RunMode) (raw : String) (d : Desk) :
    run mode raw d =
      match stage mode raw d with
      | .ok g mid => finish mode g mid
      | .error x e => .error x e := by
  rw [run_eq]
  simp only [bind, EStateM.bind]
  cases stage mode raw d <;> rfl

theorem finish_closes (hdate : d.Dated) (mode : RunMode) (g : Stage) :
    g.Closes mode (finish mode g d) := by
  have hrefresh := @refreshIndex_returns d hdate
  have hclose := @close_closes mode g
  have hfinish : ⦃fun e => ⌜e = d⌝⦄ finish mode g
      ⦃post⟨fun report e => ⌜g.Closes mode (.ok report e)⌝,
        fun x e => ⌜g.Closes mode (.error x e)⌝⟩⦄ := by
    mvcgen [finish, openAfter, hrefresh, hclose]
    case vc1 e he _ => exact he ▸ ⟨rfl, rfl⟩
  have hend := triple_iff.1 hfinish d rfl
  cases hrun : finish mode g d with
  | ok report e | error x e =>
    rw [hrun] at hend
    exact hend

theorem finish_of_not_dated (hdate : ¬d.Dated) (mode : RunMode) (g : Stage) :
    finish mode g d = .error .calendar d := by
  have hrefresh := @refreshIndex_of_not_dated d hdate
  have hfinish : ⦃fun e => ⌜e = d⌝⦄ finish mode g
      ⦃post⟨fun _ _ => ⌜False⌝, fun x e => ⌜x = .calendar ∧ e = d⌝⟩⦄ := by
    mvcgen [finish, openAfter, hrefresh]
    case vc2 => exact fun _ ↦ False.elim
  obtain ⟨_, _, _, ⟨⟩⟩ | ⟨x, e, hrun, rfl, rfl⟩ := cases_of_triple hfinish rfl
  exact hrun

/-- What becomes of a run that has come to the index. -/
theorem run_of_stage {mode : RunMode} {raw : String} {g : Stage} {mid : Desk}
    (h : stage mode raw d = .ok g mid) :
    (d.Dated → g.Closes mode (run mode raw d)) ∧
      (¬d.Dated → run mode raw d = .error .calendar mid) := by
  have hbasis : mid.basis = d.basis := ok_of_triple (stage_basis mode raw) rfl h
  rw [run_apply, h, ← dated_congr hbasis]
  exact ⟨fun hdate ↦ finish_closes hdate mode g, fun hdate ↦ finish_of_not_dated hdate mode g⟩

/-! ## Rebuilds and questions -/

theorem openAt_now (p : Path) (t : Instant) :
    ⦃fun h => ⌜h.now = t⌝⦄ IndexHandle.openAt p
      ⦃post⟨fun _ h => ⌜h.now = t⌝, fun x _ => ⌜x ≠ .calendar⌝⟩⦄ := by
  have hdisk {α : Type} (wrap : IoError → Error) (x : Disk α) :
      PreservesElse (·.now = t) (fun x _ => x ≠ .calendar) (Job.disk wrap x) := by
    refine triple_iff.2 fun h hh ↦ ?_
    rw [Job.disk]
    cases x h.tree with
    | ok a tree => exact hh
    | error e tree => simp
  mvcgen [IndexHandle.openAt, Job.fail, IndexHandle.create, hdisk]
  case vc2 | vc3 => simp

theorem horizon_timed (hnow : d.host.now.Common) :
    ⦃fun e => ⌜d.Timed e⌝⦄ horizon
      ⦃post⟨fun _ e => ⌜d.Timed e ∧ ¬d.Overdrawn⌝, fun x _ => ⌜x = .calendar ↔ d.Overdrawn⌝⟩⦄ := by
  rw [overdrawn_iff hnow]
  mvcgen [horizon, Job.daysAgo]
  case vc1 he _ hsome =>
    rw [he.1, he.2] at hsome
    exact ⟨he, by simp [hsome]⟩
  case vc2 he hnone =>
    rw [he.1, he.2] at hnone
    simp [hnone]

theorem refillIndex_timed (hnow : d.host.now.Common) :
    ⦃fun e => ⌜d.Timed e⌝⦄ refillIndex
      ⦃post⟨fun _ e => ⌜d.Answerable e ∧ ¬d.Overdrawn⌝,
        fun x _ => ⌜x = .calendar ↔ d.Overdrawn⌝⟩⦄ := by
  have hhorizon := horizon_timed hnow
  mvcgen [refillIndex, hhorizon, survey, Job.ofExcept, Job.fail, commitsSince, askHistory, fail,
    findings, openedIndex, openAt_now, IndexHandle.modify]
  case vc2 he s _ root cs _ session x hindex now _ _ =>
    exact ⟨⟨he.1, Option.isSome_iff_exists.2 ⟨x, hindex⟩⟩, he.2⟩
  case vc3 he _ _ _ _ _ _ _ _ h hh _ _ _ _ => exact ⟨⟨⟨hh.trans he.1.1, he.1.2⟩, rfl⟩, he.2⟩
  case vc4 he _ _ _ _ _ _ _ _ _ => exact fun hx ↦ iff_of_false hx he.2
  case vc5 he _ _ _ _ _ => exact iff_of_false (by simp) he.2
  case vc6 he _ _ => exact iff_of_false (by simp) he.2

theorem deny_ne_calendar (kind : ActionKind) (target : String) (run : Option String) (y : Decision) :
    ⦃fun _ => ⌜True⌝⦄ (deny kind target run y : Work α)
      ⦃post⟨fun _ _ => ⌜False⌝, fun x _ => ⌜x ≠ .calendar⌝⟩⦄ := by
  mvcgen [deny, fail, record_logged]
  case vc1 => exact ⟨fun _ _ _ ↦ by simp, fun _ _ hx ↦ hx.ne_calendar⟩

theorem refilled_timed (hnow : d.host.now.Common) :
    ⦃fun e => ⌜e = d⌝⦄ refilled
      ⦃post⟨fun r e => ⌜(r.2.isOk → d.Answerable e) ∧
          (r.2 = .error .calendar ↔ d.RebuildOverreaches)⌝,
        fun x _ => ⌜x = .calendar ↔ d.RebuildOverreaches⌝⟩⦄ := by
  have hrefill := refillIndex_timed hnow
  mvcgen [refilled, drawRun_spec, hrefill, deny_ne_calendar]
  case vc1 he _ _ => exact he ▸ ⟨rfl, rfl⟩
  case vc2 he => exact ⟨fun _ ↦ he.1, iff_of_false (by simp) fun h ↦ he.2 h.2⟩
  case vc3 he _ _ hallowed _ _ hx =>
    subst he
    refine ⟨by simp [Except.isOk, Except.toBool], ?_⟩
    rw [Except.error.injEq, hx]
    exact (and_iff_right hallowed).symm
  case vc7 he _ hdenied _ _ =>
    subst he
    exact fun hx ↦ iff_of_false hx fun h ↦ hdenied h.1

theorem closeRebuild_timed (run : String) (r : Except Fault (RebuildSummary × Counts)) :
    ⦃fun e => ⌜r.isOk → d.Answerable e⌝⦄ closeRebuild run r
      ⦃post⟨fun _ e => ⌜d.Answerable e ∧ r ≠ .error .calendar⌝,
        fun x _ => ⌜x = .calendar ↔ r = .error .calendar⌝⟩⦄ := by
  have herror (e : Error) (x : Fault) (hx : x ≠ .calendar) :
      x = .calendar ↔ (.error (.error e) : Except Fault (RebuildSummary × Counts)) =
        .error .calendar := iff_of_false hx (by simp)
  mvcgen [closeRebuild, record_logged, markStale, IndexHandle.modify, fail]
  case vc1 e he =>
    exact ⟨fun _ _ hf ↦ ⟨(he rfl).logged hf, by simp⟩,
      fun _ _ hx ↦ iff_of_false hx.ne_calendar (by simp)⟩
  case vc2 | vc3 =>
    exact ⟨fun _ _ _ ↦ herror _ _ (by simp), fun _ _ hx ↦ herror _ _ hx.ne_calendar⟩

theorem rebuildIndex_timed (hnow : d.host.now.Common) :
    ⦃fun e => ⌜e = d⌝⦄ rebuildIndex
      ⦃post⟨fun _ e => ⌜d.Answerable e ∧ ¬d.RebuildOverreaches⌝,
        fun x _ => ⌜x = .calendar ↔ d.RebuildOverreaches⌝⟩⦄ := by
  have hrefilled := refilled_timed hnow
  have hclose := @closeRebuild_timed d
  rw [rebuildIndex_eq]
  mvcgen [hrefilled, hclose]
  case vc2 he => exact he.1
  case vc3 he _ _ => exact fun hanswerable hr ↦ ⟨hanswerable, fun h ↦ hr (he.2.2 h)⟩
  case vc4 he _ _ => exact fun hx ↦ hx.trans he.2

/-- The index comes to a date before time if it has to be rebuilt and that does. -/
theorem freshIndex_timed (hnow : d.host.now.Common) :
    ⦃fun e => ⌜e = d⌝⦄ freshIndex
      ⦃post⟨fun _ e => ⌜d.Timed e ∧ ¬(d.Unready ∧ d.RebuildOverreaches)⌝,
        fun x _ => ⌜x = .calendar ↔ d.Unready ∧ d.RebuildOverreaches⌝⟩⦄ := by
  have hrebuild := rebuildIndex_timed hnow
  mvcgen [freshIndex, hrebuild, IndexHandle.tables, fail]
  case vc2 he _ _ => exact ⟨he.1.1, fun h ↦ he.2 h.2⟩
  case vc3 he _ => exact iff_of_false (by simp) fun h ↦ he.2 h.2
  case vc4 he _ _ hunready _ _ =>
    subst he
    exact fun hx ↦ hx.trans (and_iff_right hunready).symm
  case vc5 he _ _ hready _ _ =>
    subst he
    exact ⟨⟨rfl, rfl⟩, fun h ↦ hready h.1⟩
  case vc6 he _ _ hready _ =>
    subst he
    exact iff_of_false (by simp) fun h ↦ hready h.1

theorem query_calendar_iff (hnow : d.host.now.Common) {f : Index → Desk → Option α} {days : Nat}
    (hf : ∀ x e, d.Timed e → (f x e = none ↔ d.host.now.reach < days)) :
    (∃ e, query f d = .error .calendar e) ↔ d.Overasked days := by
  obtain ⟨x, e, hrun, hfresh⟩ | ⟨x, e, hrun, hfresh⟩ := cases_of_triple (freshIndex_timed hnow) rfl
  · have hquery : query f d = job (Job.dated (f x e)) e := by
      simp only [query, bind, EStateM.bind, hrun, get, getThe, MonadStateOf.get, EStateM.get]
    have hdays : (∃ e', query f d = .error .calendar e') ↔ d.host.now.reach < days := by
      rw [← hf x e hfresh.1, hquery]
      cases f x e with
      | none => exact iff_of_true ⟨_, rfl⟩ rfl
      | some a => simp [job, Job.dated, pure, EStateM.pure]
    rw [hdays, Overasked, hrun]
    simp [hfresh.2]
  · have hcalendar : x = .calendar ↔ d.Unready ∧ d.RebuildOverreaches := hfresh
    have hquery : query f d = .error x e := by
      simp only [query, bind, EStateM.bind, hrun]
    rw [hquery, Overasked, hrun, ← hcalendar]
    simp

theorem authorize_ne_calendar (kind : ActionKind) (raw : String) :
    PreservesElse (fun _ => True) (fun x _ => x ≠ .calendar) (authorize kind raw) := by
  mvcgen [authorize, resolve, workspace, fail, record_logged]
  case vc1 => exact ⟨fun _ _ _ ↦ by simp, fun _ _ hx ↦ hx.ne_calendar⟩
  case vc2 => exact ⟨fun _ _ _ ↦ trivial, fun _ _ hx ↦ hx.ne_calendar⟩

/-- Whether work comes to a date before time can be read off its triple. -/
theorem calendar_iff_of_triple {w : Work α} {P : Prop}
    (h : ⦃fun e => ⌜e = d⌝⦄ w ⦃post⟨fun _ _ => ⌜¬P⌝, fun x _ => ⌜x = .calendar ↔ P⌝⟩⦄) :
    (∃ e, w d = .error .calendar e) ↔ P := by
  obtain ⟨a, e, hrun, hw⟩ | ⟨x, e, hrun, hw⟩ := cases_of_triple h rfl
  · simpa [hrun] using hw
  · simpa [hrun] using hw

end Work

namespace Errand

variable {d : Desk}

/-- A call comes to a date before the days on which time is kept. -/
def Overreaches (c : Errand) (d : Desk) : Prop :=
  match c with
  | run mode raw =>
    (d.session.indexStale = false ∧ d.Overdrawn) ∧ ∃ g e, Work.stage mode raw d = .ok g e
  | authorize _ _ => False
  | rebuildIndex => d.RebuildOverreaches
  | activity days => d.Overasked days
  | staleTodos days => d.Overasked (days.getD d.session.config.memory.staleTodoDays)
  | opportunities => d.Overasked d.session.config.memory.staleTodoDays

theorem run_calendar_iff (hnow : d.host.now.Common) (mode : RunMode) (raw : String) :
    (∃ e, Work.run mode raw d = .error .calendar e) ↔ (run mode raw).Overreaches d := by
  cases hstage : Work.stage mode raw d with
  | ok g mid =>
    obtain ⟨hcloses, hends⟩ := Work.run_of_stage hstage
    by_cases hdate : d.Dated
    · refine iff_of_false ?_ fun h ↦ (dated_iff hnow).1 hdate h.1
      rintro ⟨e, he⟩
      have hclosed := hcloses hdate
      rw [he] at hclosed
      exact hclosed.ne_calendar rfl
    · refine iff_of_true ⟨mid, hends hdate⟩ ⟨?_, g, mid, hstage⟩
      rwa [dated_iff hnow, not_not] at hdate
  | error x e =>
    have hstops := error_of_triple (Work.stage_stops mode raw) ⟨rfl, .refl⟩ hstage
    rw [Work.run_apply, hstage, Overreaches, hstage]
    simpa using hstops.ne_calendar

theorem unit_error_iff {α : Type} (w : Work α) :
    (∃ e, (do let _ ← w : Work Unit) d = .error .calendar e) ↔ ∃ e, w d = .error .calendar e := by
  simp only [bind, EStateM.bind]
  cases w d <;> simp [pure, EStateM.pure]

theorem work_calendar_iff (hnow : d.host.now.Common) (c : Errand) :
    (∃ e, c.work d = .error .calendar e) ↔ c.Overreaches d := by
  have hdays (days : Nat) : d.host.now.minusDays? days = none ↔ d.host.now.reach < days :=
    hnow.minusDays?_eq_none_iff days
  cases c with
  | run mode raw => exact (unit_error_iff _).trans (run_calendar_iff hnow mode raw)
  | authorize kind raw =>
    refine (unit_error_iff _).trans (Work.calendar_iff_of_triple ?_)
    have hauthorize := Work.authorize_ne_calendar kind raw
    mvcgen [hauthorize]
    case vc1 => exact id
    case vc2 => exact fun hx ↦ iff_of_false hx id
  | rebuildIndex =>
    refine (unit_error_iff _).trans (Work.calendar_iff_of_triple ?_)
    have hrebuild := Work.rebuildIndex_timed hnow
    mvcgen [hrebuild]
    case vc2 => exact fun _ h ↦ h
  | activity days =>
    refine (unit_error_iff _).trans (Work.query_calendar_iff hnow fun x e he ↦ ?_)
    rw [Index.activity?, Option.map_eq_none_iff, he.1, hdays]
  | staleTodos days =>
    refine (unit_error_iff _).trans (Work.query_calendar_iff hnow fun x e he ↦ ?_)
    rw [Index.staleTodos?, Option.map_eq_none_iff, he.1, he.2, hdays]
  | opportunities =>
    refine (unit_error_iff _).trans (Work.query_calendar_iff hnow fun x e he ↦ ?_)
    rw [Index.opportunities?, Index.staleTodos?, Option.map_eq_none_iff, Option.map_eq_none_iff,
      he.1, he.2, hdays]

theorem reads_ne_calendar (d e : Desk) (n : Nat) :
    Work.snapshot d ≠ .error .calendar e ∧ Work.tail n d ≠ .error .calendar e ∧
      Work.verify d ≠ .error .calendar e := by
  have hne {α : Type} {w : Work α}
      (h : ⦃fun _ => ⌜True⌝⦄ w ⦃post⟨fun _ _ => ⌜True⌝, fun x _ => ⌜x ≠ .calendar⌝⟩⦄) :
      w d ≠ .error .calendar e := by
    intro hrun
    exact error_of_triple h trivial hrun rfl
  refine ⟨hne ?_, hne ?_, hne ?_⟩
  · mvcgen [Work.snapshot, IndexHandle.tables, Work.fail]
  · mvcgen [Work.tail, Job.ofExcept, Job.fail]
    case vc1 => simp
  · mvcgen [Work.verify, Job.ofExcept, Job.fail]
    case vc1 => simp

/-- The calls that end for want of a date are those that overreach. A run that does has come to the
index, and stays there; one that does not ends with its last record, unless the ledger fails; and a
run that does not come to the index has healed nothing, unless the ledger failed meanwhile. -/
theorem calendar_iff_overreaches (hnow : d.host.now.Common) :
    (95745764 ≤ d.host.now.reach ∧ d.host.now.reach ≤ 99398189) ∧
    (∀ c : Errand, (∃ e, c.work d = .error .calendar e) ↔ c.Overreaches d) ∧
    (∀ n e, Work.snapshot d ≠ .error .calendar e ∧ Work.tail n d ≠ .error .calendar e ∧
      Work.verify d ≠ .error .calendar e) ∧
    (∀ mode raw g mid, Work.stage mode raw d = .ok g mid →
      ((run mode raw).Overreaches d → Work.run mode raw d = .error .calendar mid) ∧
      (¬(run mode raw).Overreaches d → g.Closes mode (Work.run mode raw d))) ∧
    ∀ mode raw x e, Work.stage mode raw d = .error x e →
      Work.run mode raw d = .error x e ∧ d.Stops x e := by
  refine ⟨hnow.reach_bounds, work_calendar_iff hnow, fun n e ↦ reads_ne_calendar d e n, ?_, ?_⟩
  · intro mode raw g mid hstage
    obtain ⟨hcloses, hends⟩ := Work.run_of_stage hstage
    have hover : (run mode raw).Overreaches d ↔ ¬d.Dated := by
      rw [dated_iff hnow, not_not]
      exact and_iff_left ⟨g, mid, hstage⟩
    rw [hover, not_not]
    exact ⟨hends, hcloses⟩
  · intro mode raw x e hstage
    have hstops := error_of_triple (Work.stage_stops mode raw) ⟨rfl, .refl⟩ hstage
    exact ⟨by rw [Work.run_apply, hstage], hstops⟩

/-- A workspace with one file to be healed, whose settings ask for more days than there are. -/
def overdrawnDesk : Desk :=
  { bareExceptDesk with session.config.memory.historyDays := 4294967295 }

/-- Settings that are accepted when they are loaded; the file is healed, and the run is not in the
ledger. -/
theorem calendar_iff_overreaches_heal :
    overdrawnDesk.host.now.Common ∧
    (Config.load
      { entries := [(["w"], .dir), (["w", ".jarvis"], .dir), (["w", ".jarvis", "config.toml"],
        .file (Utf8.encode "[memory]\nhistory_days = 4294967295\n".toList) ⟨0, 0⟩)] }
      ⟨"/w/.jarvis"⟩).toOption = some overdrawnDesk.session.config ∧
    ∃ e, Work.heal "." overdrawnDesk = .error .calendar e ∧
      e.host.tree.get? ["w", "a.py"] ≠ overdrawnDesk.host.tree.get? ["w", "a.py"] ∧
      e.host.records.map (·.entry.action) = ["Write"] := by
  have hnow : overdrawnDesk.host.now.Common := ⟨⟨by decide, by decide⟩, by decide⟩
  obtain ⟨g, hstage⟩ := Work.exists_ok_of_run'
    (w := Work.stage .heal ".") (d := overdrawnDesk) (by decide +kernel)
  have hover : (run .heal ".").Overreaches overdrawnDesk :=
    ⟨⟨rfl, by rw [Desk.Overdrawn]; decide +kernel⟩, g, _, hstage⟩
  obtain ⟨-, -, -, hrun, -⟩ := calendar_iff_overreaches hnow
  exact ⟨hnow, by decide +kernel, _, (hrun .heal "." g _ hstage).1 hover, by decide +kernel,
    by decide +kernel⟩

end Errand

end Steward
