import Steward.Proofs.Index.Healing

/-!
# What a run leaves of the index

-/

namespace Steward

set_option mvcgen.warning false

open Location FileTree Std.Do

namespace Desk

/-- A path that leads into the workspace leads to a target that the survey of the root comes by. -/
def InScope (r : Location) (d : Desk) (raw : String) : Prop :=
  ∀ p, d.workspace.resolve d.host.tree raw = .ok p →
    ∃ ms, p = (r ++ ms).path ∧ Survey.Descended d.session.config.scanner r d.host.tree ms

/-- A run that started at `d` and was about the target at `ms` ended at `e`. -/
def Ran (r place : Location) (mode : RunMode) (ms : Location) (d e : Desk) : Prop :=
  ∃ s h ws mid next, d.Surveyed r place ms s ∧ Healed r place mode s d h ws mid ∧
    mid.Refreshed s.examined (mid.present r s ws) next ∧ Passed (· = place) next e

/-- What the report of a run says of the files that it went over. -/
structure Reports (report : RunReport) (mode : RunMode) (h : Healing) : Prop where
  mode : report.mode = mode
  violations : report.violations = h.violations
  failures : report.failures = h.failures

/-- A run that started at `d` and was about the target at `ms` ended at `e` with a report. -/
def Reported (r place : Location) (mode : RunMode) (ms : Location) (d : Desk) (report : RunReport)
    (e : Desk) : Prop :=
  ∃ s h ws mid next, d.Surveyed r place ms s ∧ Healed r place mode s d h ws mid ∧
    mid.Refreshed s.examined (mid.present r s ws) next ∧ Passed (· = place) next e ∧
      Reports report mode h

section Ran

variable {r place ms : Location} {mode : RunMode} {s : Survey} {d e : Desk}

theorem Reported.ran {report : RunReport} (h : Reported r place mode ms d report e) :
    Ran r place mode ms d e := by
  obtain ⟨s, h, ws, mid, next, hs, hh, hnext, he, -⟩ := h
  exact ⟨s, h, ws, mid, next, hs, hh, hnext, he⟩

theorem InScope.exists_surveyed {raw : String} (h : d.InScope r raw) (hd : d.Orderly r place)
    {p : Path} (hp : d.workspace.resolve d.host.tree raw = .ok p)
    (hs : Survey.of d.session.config.scanner d.session.root d.host.tree p = .ok s) :
    ∃ ms, p = (r ++ ms).path ∧ d.Surveyed r place ms s := by
  obtain ⟨ms, rfl, hms⟩ := h p hp
  exact ⟨ms, rfl, hd, hms, hs⟩

/-- The root is no file. -/
theorem Surveyed.ne_nil (hs : d.Surveyed r place ms s) (h : d.host.tree.isFile (r ++ ms).path) :
    ms ≠ [] := by
  rintro rfl
  have hroot := hs.orderly.surveyable
  rw [FileTree.isFile, List.append_nil] at h
  cases hfind : d.host.tree.find r.path with
  | error x => simp [hfind, Except.toOption] at h
  | ok y =>
    have hget := ((find_path_eq_ok_iff hroot.real.clear hroot.real.proper).1 hfind).2.2.2
    cases hroot.dir.symm.trans hget
    simp [hfind, Except.toOption, Entry.isFile] at h

theorem Ready.of_basis (h : d.Ready) (he : e.basis = d.basis) : e.Ready := by
  obtain ⟨hopen, since, cs, hanswers⟩ := h
  rw [← show e.session.index = d.session.index from congrArg Basis.index he] at hopen
  exact ⟨hopen, since, cs, hanswers.of_akin (akin_of_basis he) (congrArg Basis.now he)⟩

theorem Refreshed.orderly {files : List String} {vs : List Violation} (h : d.Refreshed files vs e)
    (hd : d.Orderly r place) : e.Orderly r place := hd.of_akin h.akin h.tree

/-- What is left to do once the index was refreshed. -/
theorem InScope.reported {raw : String} (hscope : d.InScope r raw) (hd : d.Orderly r place)
    (hguard : mode = .heal → d.Guarded r) {p : Path}
    (hp : d.workspace.resolve d.host.tree raw = .ok p)
    (hallowed : (d.decision ⟨.scan, p⟩).allowed)
    (hs : Survey.of d.session.config.scanner d.session.root d.host.tree p = .ok s) {h : Healing}
    {vs : List Violation} {mid next : Desk}
    (hmid : ∃ ws, Healed r place mode s d h ws mid ∧ vs = mid.present r s ws)
    (hnext : mid.Refreshed s.examined vs next) {report : RunReport} (hreport : Reports report mode h) :
    next.Orderly r place ∧ ∀ e, Passed (· = place) next e →
      ∃ ms, d.workspace.resolve d.host.tree raw = .ok (r ++ ms).path ∧
        (d.decision ⟨.scan, (r ++ ms).path⟩).allowed ∧ Reported r place mode ms d report e := by
  obtain ⟨ms, rfl, hsurveyed⟩ := hscope.exists_surveyed hd hp hs
  obtain ⟨ws, hh, rfl⟩ := hmid
  exact ⟨hnext.orderly (hh.orderly hsurveyed hguard), fun e he ↦
    ⟨ms, hp, hallowed, s, h, ws, mid, next, hsurveyed, hh, hnext, he, hreport⟩⟩

theorem Ran.orderly (h : Ran r place mode ms d e) (hguard : mode = .heal → d.Guarded r) :
    e.Orderly r place := by
  obtain ⟨s, h, ws, mid, next, hs, hh, hnext, he⟩ := h
  have hnext := hnext.orderly (hh.orderly hs hguard)
  exact hnext.of_passed hnext.mild he

theorem Ran.akin (h : Ran r place mode ms d e) : d.Akin e := by
  obtain ⟨s, h, ws, mid, next, hs, hh, hnext, he⟩ := h
  exact (hh.passed.akin.trans hnext.akin).trans he.akin

theorem Guarded.of_akin (hd : d.Guarded r) (h : d.Akin e) (htree : e.host.tree = d.host.tree) :
    e.Guarded r :=
  ⟨h.config ▸ hd.extensions, htree ▸ hd.links⟩

/-- No work makes a link. -/
theorem Guarded.of_passed {S : Location → Prop} (hd : d.Guarded r) (h : Passed S d e) :
    e.Guarded r :=
  ⟨h.akin.config ▸ hd.extensions, fun q hq target ↦ h.changes.link (hd.links q hq target)⟩

theorem Ran.guarded (h : Ran r place mode ms d e) (hd : d.Guarded r) : e.Guarded r := by
  obtain ⟨s, h, ws, mid, next, hs, hh, hnext, he⟩ := h
  exact ((hd.of_passed hh.passed).of_akin hnext.akin hnext.tree).of_passed he

end Ran

/-! ## The tables afterwards -/

section Tables

variable {d e : Desk} {files : List String} {vs : List Violation} {x : Index}

theorem Refreshed.fresh (h : d.Refreshed files vs e) (hd : d.session.indexStale = false)
    (hready : d.Ready) : e.session.indexStale = false := by
  rcases h.index with ⟨-, hstale | hready'⟩ | ⟨-, since, cs, -, hbasis⟩
  · cases hd.symm.trans hstale
  · exact absurd hready hready'
  · exact (congrArg Basis.indexStale hbasis).trans hd

theorem Refreshed.exists_tables (h : d.Refreshed files vs e) (he : e.session.indexStale = false)
    (hx : d.basis.tables? = some x) : ∃ since cs, d.Answers since cs ∧
      e.basis = d.basis.modified (d.refreshed since cs files vs) ∧
      e.basis.tables? = some (d.refreshed since cs files vs x) := by
  rcases h.index with ⟨hstale, -⟩ | ⟨-, since, cs, hanswers, hbasis⟩
  · cases he.symm.trans hstale
  · refine ⟨since, cs, hanswers, hbasis, ?_⟩
    rw [hbasis, Basis.tables?_modified, hx]
    rfl

theorem Refilled.exists_tables (h : d.Refilled e) (hx : d.basis.tables? = some x) :
    ∃ cs s, d.survey = .ok s ∧ e.session.indexStale = false ∧
      e.basis.tables? = some (Index.rebuild d.host.now cs (d.rows s.violations)) := by
  obtain ⟨since, cs, s, -, hs, hbasis⟩ := h.exists_basis
  refine ⟨cs, s, hs, congrArg Basis.indexStale hbasis, ?_⟩
  have htables := d.basis.tables?_modified fun _ => Index.rebuild d.host.now cs (d.rows s.violations)
  rw [hx] at htables
  rw [hbasis]
  exact htables

theorem Passed.tables? {S : Location → Prop} (h : Passed S d e) :
    e.basis.tables? = d.basis.tables? := congrArg Basis.tables? h.basis

variable {r place ms : Location} {mode : RunMode}

/-- While the history answers, a run keeps an index from getting stale. -/
theorem Ran.fresh (h : Ran r place mode ms d e) (hd : d.session.indexStale = false)
    (hready : d.Ready) : e.session.indexStale = false := by
  obtain ⟨s, h, ws, mid, next, -, hh, hnext, he⟩ := h
  have hmid := (congrArg Basis.indexStale hh.passed.basis).trans hd
  exact (congrArg Basis.indexStale he.basis).trans
    (hnext.fresh hmid (hready.of_basis hh.passed.basis))

/-- Nothing that is read changes with the ledger. -/
theorem Orderly.get?_eq (hd : d.Orderly r place) (h : Passed (· = place) d e) {ns : Location}
    (hreads : Survey.reads d.session.config.scanner ns) :
    e.host.tree.get? (r ++ ns) = d.host.tree.get? (r ++ ns) := by
  refine h.changes.others _ fun hplace ↦ ?_
  rw [hd.unread ns hplace.symm] at hreads
  cases hreads

/-- The index after a run that did not find it stale: what is open in the files at hand was put in
place of the findings of those that were examined. -/
theorem Ran.exists_tables (h : Ran r place mode ms d e) (hguard : mode = .heal → d.Guarded r)
    (he : e.session.indexStale = false) (hx : d.basis.tables? = some x) :
    ∃ s h ws mid since cs, d.Surveyed r place ms s ∧ Healed r place mode s d h ws mid ∧
      mid.Akin e ∧ (∀ ns, Survey.reads mid.session.config.scanner ns →
        e.host.tree.get? (r ++ ns) = mid.host.tree.get? (r ++ ns)) ∧ e.Answers since cs ∧
      e.basis.tables? = some (mid.refreshed since cs s.examined (mid.present r s ws) x) := by
  obtain ⟨s, h, ws, mid, next, hs, hh, hnext, hpassed⟩ := h
  have horderly := hnext.orderly (hh.orderly hs hguard)
  obtain ⟨since, cs, hanswers, hbasis, htables⟩ := hnext.exists_tables
    ((congrArg Basis.indexStale hpassed.basis).symm.trans he) (hh.passed.tables?.trans hx)
  have hakin := hnext.akin.trans hpassed.akin
  refine ⟨s, h, ws, mid, since, cs, hs, hh, hakin, fun ns hns ↦ ?_, ?_, ?_⟩
  · rw [← hnext.akin.config] at hns
    rw [horderly.get?_eq hpassed hns, hnext.tree]
  · refine hanswers.of_akin hakin ?_
    exact (congrArg Basis.now hpassed.basis).trans (congrArg Basis.now hbasis)
  · rw [hpassed.tables?, htables]

end Tables

end Desk

open Desk

namespace Work

variable {r place : Location} {mode : RunMode} {d : Desk}
variable {raw : String} {e : Desk}

/-! ## Parts of a run -/

theorem record_keeps (hd : d.Orderly r place) (entry : Ledger.Entry) :
    ⦃fun e => ⌜Passed (· = place) d e⌝⦄ record entry
      ⦃⇓ _ e => ⌜Passed (· = place) d e⌝⦄ := by
  have hrecord := @record_spec r place
  mvcgen [hrecord]
  case vc1 e he => exact ⟨hd.of_passed hd.mild he, fun e' he' ↦ he.trans he'⟩

theorem deny_spec {α : Type} (hd : d.Orderly r place) (kind : ActionKind) (target : String)
    (id : Option String) (x : Decision) :
    ⦃fun e => ⌜Passed (· = place) d e⌝⦄ (deny kind target id x : Work α)
      ⦃post⟨fun _ _ => ⌜False⌝, fun _ e => ⌜Passed (· = place) d e⌝⟩⦄ := by
  have hrecord := record_keeps hd
  mvcgen [deny, fail, hrecord]

theorem runTarget_spec (hd : d.Orderly r place) (id raw : String) :
    ⦃fun e => ⌜d.Still e⌝⦄ runTarget id raw
      ⦃post⟨fun p e => ⌜d.Still e ∧ d.workspace.resolve d.host.tree raw = .ok p⌝,
        fun _ e => ⌜Passed (· = place) d e⌝⟩⦄ := by
  have hrecord := record_keeps hd
  mvcgen [runTarget, resolve, workspace, fail, hrecord]
  case vc1 he p hp =>
    rw [← he.workspace, ← he.tree]
    exact ⟨he, hp⟩
  case vc2 he _ _ _ => exact (Passed.refl _ d).still he

theorem preflight_spec (hd : d.Orderly r place) (id target : String) (p : Path) :
    ⦃fun e => ⌜d.Still e⌝⦄ preflight id target p
      ⦃post⟨fun made e => ⌜d.Still e ∧ (made.isSome → d.host.tree.isFile p)⌝,
        fun _ e => ⌜Passed (· = place) d e⌝⟩⦄ := by
  have hrecord := record_keeps hd
  mvcgen [preflight, fail, hrecord]
  case vc1 he hfile _ => exact ⟨he.trans (still_judged _ _), fun _ ↦ he.tree ▸ hfile⟩
  case vc2 he _ _ => exact (Passed.refl _ d).still (he.trans (still_judged _ _))
  case vc5 he _ => exact ⟨he, by simp⟩

theorem runSurvey_spec (hd : d.Orderly r place) (id target : String) (p : Path) :
    ⦃fun e => ⌜d.Still e⌝⦄ runSurvey id target p
      ⦃post⟨fun s e => ⌜d.Still e ∧
          Survey.of d.session.config.scanner d.session.root d.host.tree p = .ok s⌝,
        fun _ e => ⌜Passed (· = place) d e⌝⟩⦄ := by
  have hrecord := record_keeps hd
  mvcgen [runSurvey, survey, fail, hrecord]
  case vc1 he s hs =>
    rw [he.akin.config, he.akin.root, he.tree] at hs
    exact ⟨he, hs⟩
  case vc2 he _ _ => exact (Passed.refl _ d).still he

/-! ## Runs -/

theorem run_spec (hd : d.Orderly r place) (hguard : mode = .heal → d.Guarded r)
    (hscope : d.InScope r raw) :
    ⦃fun e => ⌜d.Still e⌝⦄ run mode raw
      ⦃post⟨fun report e => ⌜∃ ms, d.workspace.resolve d.host.tree raw = .ok (r ++ ms).path ∧
          (d.decision ⟨.scan, (r ++ ms).path⟩).allowed ∧ Reported r place mode ms d report e⌝,
        fun _ e => ⌜Passed (· = place) d e ∨ ¬d.Ready⌝⟩⦄ := by
  have htarget := runTarget_spec hd
  have hdeny := @deny_spec r place d Unit hd
  have hpreflight := preflight_spec hd
  have hsurvey := runSurvey_spec hd
  have hfiles {target : String} {made : Option Decision} {s : Survey} (h : mode = .heal ∧
      ∃ ms, target = relative ms ∧ d.Surveyed r place ms s ∧ (made.isSome → ms ≠ [])) (id : String) :
      ⦃fun e => ⌜d.Still e⌝⦄ healFiles id target made s.violations
        ⦃⇓ h e => ⌜∃ ws, Healed r place mode s d h ws e⌝⦄ := by
    obtain ⟨rfl, ms, rfl, hs, hmade⟩ := h
    exact healFiles_healed hs (hguard rfl) id hmade
  have hopen {s : Survey} (hs : ∃ ms, d.Surveyed r place ms s) (h : Healing) :=
    hs.elim fun _ hs ↦ openAfter_spec (h := h) hs hguard
  have hrefresh {mid : Desk} (files : List String) (vs : List Violation) :=
    refreshIndex_spec (d := mid) files vs
  have hrecord := @record_spec r place
  mvcgen [run, drawRun_spec, htarget, workspace, hdeny, hpreflight, hsurvey, hfiles, hopen, hrefresh,
    hrecord]
  case vc1 he => exact he.trans (still_drawn _)
  case vc2 | vc20 => exact (And.left ‹d.Still _ ∧ _›).trans (still_judged _ _)
  case vc3 he => exact he.1
  case vc4 =>
    have hp := ‹d.Still _ ∧ d.workspace.resolve _ _ = _›
    have hmade := ‹d.Still _ ∧ (Option.isSome _ = true → d.host.tree.isFile _ = true)›
    obtain ⟨ms, rfl, hs⟩ :=
      hscope.exists_surveyed hd hp.2 (And.right ‹d.Still _ ∧ Survey.of _ _ _ _ = _›)
    refine ⟨‹_›, ms, ?_, hs, fun h ↦ hs.ne_nil (hmade.2 h)⟩
    change (r ++ ms).path.relativeTo _ = _
    rw [hp.1.akin.root, hd.root, relativeTo_path hs.descended.proper]
  case vc5 => exact And.left ‹d.Still _ ∧ Survey.of _ _ _ _ = _›
  case vc7 | vc30 =>
    exact (hscope.exists_surveyed hd (And.right ‹d.Still _ ∧ d.workspace.resolve _ _ = _›)
      (And.right ‹d.Still _ ∧ Survey.of _ _ _ _ = _›)).imp fun _ ↦ And.right
  case vc9 | vc32 => exact ⟨rfl, rfl⟩
  case vc10 | vc33 =>
    have hp := ‹d.Still _ ∧ d.workspace.resolve _ _ = _›
    have hallowed := ‹Decision.allowed _ = true›
    rw [hp.1.decision] at hallowed
    exact hscope.reported hd hguard hp.2 hallowed
      (And.right ‹d.Still _ ∧ Survey.of _ _ _ _ = _›) ‹_› ‹_› ⟨rfl, rfl, rfl⟩
  case vc11 | vc34 =>
    obtain ⟨ws, hh, -⟩ := ‹∃ ws, Healed r place _ _ _ _ ws _ ∧ _›
    exact fun hmid ↦ .inr fun hready ↦ hmid (hready.of_basis hh.passed.basis)
  case vc31 he => exact ⟨[], he.1.healed⟩
  case vc18 | vc19 | vc35 | vc71 | vc72 => exact .inl
  case vc36 => exact ((Passed.refl _ d).still (And.left ‹d.Still _ ∧ _›)).still (still_judged _ _)

/-! ## Targets that are found -/

theorem runTarget_found {p : Path} (hp : d.workspace.resolve d.host.tree raw = .ok p)
    (id : String) :
    ⦃fun e => ⌜d.Still e⌝⦄ runTarget id raw
      ⦃⇓ q e => ⌜d.Still e ∧ q = p⌝⦄ := by
  mvcgen [runTarget, resolve, workspace, fail]
  case vc1 e he q hq =>
    rw [← he.workspace, ← he.tree] at hp
    exact ⟨he, Except.ok.inj (hq.symm.trans hp)⟩
  case vc2 e he x hx _ =>
    rw [← he.workspace, ← he.tree] at hp
    cases hx.symm.trans hp

theorem runSurvey_found {p : Path} {s : Survey}
    (hs : Survey.of d.session.config.scanner d.session.root d.host.tree p = .ok s)
    (id target : String) :
    ⦃fun e => ⌜d.Still e⌝⦄ runSurvey id target p
      ⦃⇓ s' e => ⌜d.Still e ∧ s' = s⌝⦄ := by
  mvcgen [runSurvey, survey, fail]
  case vc1 e he s' hs' =>
    rw [he.akin.config, he.akin.root, he.tree] at hs'
    exact ⟨he, Except.ok.inj (hs'.symm.trans hs)⟩
  case vc2 e he x hx =>
    rw [he.akin.config, he.akin.root, he.tree] at hx
    cases hx.symm.trans hs

/-! ## Ends of runs -/

section Ends

variable (hd : d.Orderly r place) (hguard : mode = .heal → d.Guarded r) (hscope : d.InScope r raw)
include hd hguard hscope

/-- What a run that ends with a report did. -/
theorem reported_of_run {report : RunReport} (h : run mode raw d = .ok report e) :
    ∃ ms, d.workspace.resolve d.host.tree raw = .ok (r ++ ms).path ∧
      (d.decision ⟨.scan, (r ++ ms).path⟩).allowed ∧ Reported r place mode ms d report e := by
  exact ok_of_triple (run_spec hd hguard hscope) ⟨rfl, rfl⟩ h

theorem ran_of_run {report : RunReport} (h : run mode raw d = .ok report e) :
    ∃ ms, d.workspace.resolve d.host.tree raw = .ok (r ++ ms).path ∧
      (d.decision ⟨.scan, (r ++ ms).path⟩).allowed ∧ Ran r place mode ms d e := by
  obtain ⟨ms, hms, hallowed, hreported⟩ := reported_of_run hd hguard hscope h
  exact ⟨ms, hms, hallowed, hreported.ran⟩

/-- A run that ends with an error leaves everything but the ledger as it is, as long as the history
answers. -/
theorem passed_of_run (hready : d.Ready) {x : Fault} (h : run mode raw d = .error x e) :
    Passed (· = place) d e := by
  have hrun := error_of_triple (run_spec hd hguard hscope) ⟨rfl, rfl⟩ h
  exact hrun.resolve_right (not_not.2 hready)

end Ends

/-- What a rebuild did. -/
theorem refilled_of_rebuildIndex (hd : d.Orderly r place) (hindex : d.session.index.isSome)
    {summary : RebuildSummary} (h : rebuildIndex d = .ok summary e) :
    (d.decision ⟨.scan, d.session.root⟩).allowed ∧
      ∃ mid, d.Refilled mid ∧ Passed (· = place) mid e := by
  exact ok_of_triple (rebuildIndex_spec hd hindex) ⟨rfl, rfl⟩ h

/-- If the rules allow it and the history answers, a rebuild succeeds. -/
theorem exists_rebuildIndex (hd : d.Orderly r place) (hready : d.Ready)
    (hallowed : (d.decision ⟨.scan, d.session.root⟩).allowed) :
    ∃ summary mid e, rebuildIndex d = .ok summary e ∧ d.Refilled mid ∧
      Passed (· = place) mid e := by
  obtain ⟨summary, e, h, -, mid, hmid, he⟩ | ⟨_, _, -, hrun⟩ :=
    cases_of_triple (rebuildIndex_spec hd hready.1) ⟨rfl, rfl⟩
  · exact ⟨summary, mid, e, h, hmid, he⟩
  · exact absurd ⟨hallowed, hready⟩ hrun

theorem snapshot_eq {x : Index} (hx : d.basis.tables? = some x) :
    snapshot d = .ok x.snapshot d := by
  obtain ⟨handle, hindex, hstore⟩ := Option.bind_eq_some_iff.1 hx
  have hindex' : d.session.index = some handle := hindex
  have hstore' : d.host.stores[handle.store]? = some x := hstore
  simp only [snapshot, bind, EStateM.bind, get, getThe, MonadStateOf.get, EStateM.get, hindex', job,
    IndexHandle.tables, pure, EStateM.pure, List.getD_eq_getElem?_getD, hstore', Option.getD_some]

end Work

/-- The desk of a workspace at `/w` with one file, all of which is tracked. -/
def Desk.sole (file text : String) (log : Path) (x : Index) : Desk where
  host :=
    { tree := { entries := [(["w"], .dir),
        (["w", file], .file (Utf8.encode text.toList) ⟨0, 0⟩)] }
      now := ⟨1000000000, 0⟩
      digest := fun _ => ""
      git := fun _ => .error "no git"
      given := { History.unavailable "no history" with
        repoRoot := .ok ⟨"/w"⟩
        isTracked := fun _ => .ok true
        commitsSince := fun _ _ => .ok [] }
      stores := [x] }
  session :=
    { root := ⟨"/w"⟩
      adapter := .given
      config := {}
      constitution := .standard
      log := ⟨log, ⟨"", none, false⟩⟩
      index := some ⟨⟨"/d"⟩, 0⟩
      indexPath := ⟨"/d"⟩
      indexStale := false
      init := { root := ⟨"/w/.jarvis"⟩ } }

end Steward
