import Steward.Proofs.Fix.Convergence
import Steward.Proofs.Journal

/-!
# What a healed target still holds

Healing goes over a file once. A line may hold more hazards than the one that is reported first, so
a run that calls every violation fixed may leave others behind. They are what one pass leaves in the
text, `Desk.remnant`, and a scan that follows finds them and nothing else:
`Work.scan_finds_remnants`.
-/

namespace Steward

set_option mvcgen.warning false

open Location FileTree Std.Do

theorem Language.ofPath_relative {r ns : Location} (h : Proper (r ++ ns)) (hns : ns ≠ []) :
    ofPath ⟨relative ns⟩ = ofPath (r ++ ns).path := by
  have hsame : (r ++ ns).path.same r.path = false := by
    refine Bool.eq_false_iff.2 fun hsame ↦ hns ?_
    have heq := eq_of_components_path_eq h ((proper_append r ns).1 h).1 (of_decide_eq_true hsame)
    simpa using heq
  rw [ofPath, ofPath, Path.extension?, Path.extension?, ← relativeTo_path h,
    Path.fileName?_relativeTo hsame]

theorem FileTree.read_of_real {t : FileTree} {l : Location} (h : Real t l)
    (hzero : '\x00' ∉ l.path.text.toList) (hlong : isOverlong l.path = false) {bytes : List UInt8}
    (hbytes : (t.get? l).bind (·.bytes?) = some bytes) : t.read l.path = .ok bytes := by
  obtain ⟨e, hget, he⟩ := Option.bind_eq_some_iff.1 hbytes
  rw [read, (find_path_eq_ok_iff h.clear h.proper).2 ⟨h, hzero, hlong, hget⟩]
  simp only [he]

/-- A file that was examined has the violations of its text. -/
theorem Survey.violations_ofFile {cfg : Config.Scanner} {file : String} {bytes : List UInt8}
    (hexamined : file ∈ (ofFile cfg file bytes).examined) {source : List Char} {encoding : Encoding}
    (hsource : Encoding.detect bytes = some (source, encoding)) :
    (ofFile cfg file bytes).violations = Violation.ofText file cfg.snippetLen source := by
  rw [ofFile] at hexamined ⊢
  split_ifs at hexamined ⊢
  · cases hexamined
  · rw [hsource]

namespace Desk

/-- What a survey finds in a file of the workspace once one pass of fixes went over it. -/
def remnant (d : Desk) (file : String) : List Violation :=
  match d.host.tree.read (d.session.root.join file) with
  | .error _ => []
  | .ok bytes =>
    match Encoding.detect bytes with
    | none => []
    | some (source, _) =>
      (Survey.ofFile d.session.config.scanner file
        (Utf8.encode (Fix.healPass file d.session.config.scanner.snippetLen source))).violations

section Remnant

variable {r place ms ns : Location} {mode : RunMode} {s : Survey} {d e : Desk} {h : Healing}
  {ws : List Location}

/-- The survey of a file that was examined. -/
theorem Surveyed.found_eq (hs : d.Surveyed r place ms s) (hproper : Proper (r ++ ns))
    (hexamined : relative ns ∈ s.examined) {bytes : List UInt8}
    (hbytes : (d.host.tree.get? (r ++ ns)).bind (·.bytes?) = some bytes) :
    isOverlong (r ++ ns).path = false ∧ relative ns ∈ (d.found r ns).examined ∧
      d.found r ns = Survey.ofFile d.session.config.scanner (relative ns) bytes := by
  obtain ⟨ks, -, hks⟩ :=
    (Survey.mem_examined_iff hs.orderly.surveyable hs.descended hs.survey_path).1 hexamined
  obtain hnone | ⟨y, bytes', hget, hfile, hbytes', hreads, hlong, heq⟩ :=
    Survey.ofPlace_cases d.session.config.scanner d.host.tree r ks
  · simp [hnone] at hks
  have hreal := (hs.orderly.surveyable.readable ks y hget hfile hreads).1
  obtain rfl : ks = ns := relative_inj ((proper_append r ks).1 hreal.proper).2
    ((proper_append r ns).1 hproper).2 (Survey.of_mem_examined_ofPlace hks).1.symm
  rw [hget, Option.bind_some, hbytes'] at hbytes
  cases hbytes
  exact ⟨hlong, hks, heq⟩

/-- What is found in a file that was written is what one pass leaves in it. -/
theorem Healed.found_of_mem (hh : Healed r place mode s d h ws e) (hs : d.Surveyed r place ms s)
    (hns : ns ∈ ws) : (e.found r ns).violations = d.remnant (relative ns) := by
  obtain ⟨hproper, hexamined⟩ := hh.examined ns hns
  obtain ⟨-, hreal, hreads, hfile⟩ := hs.of_examined hproper hexamined
  obtain ⟨bytes, source, encoding, new, at_, hbytes, hsource, hnew, hget⟩ := hh.texts ns hns
  obtain ⟨hlong, hfound, heq⟩ := hs.found_eq hproper hexamined hbytes
  have hne : ns ≠ [] := by
    rintro rfl
    rw [List.append_nil] at hfile
    exact hfile.not_dirAt hs.orderly.surveyable.dir
  obtain ⟨y, hy, hyfile⟩ := hfile
  have hzero := (hs.orderly.surveyable.readable ns y hy hyfile hreads).2
  have hpass : Fix.healPass (relative ns) d.session.config.scanner.snippetLen source = new := by
    rw [heq] at hfound hnew
    rw [Survey.violations_ofFile hfound hsource, ← Language.ofPath_relative hproper hne] at hnew
    rw [Fix.healPass, hnew, Option.getD_some]
  have hread := read_of_real hreal hzero hlong hbytes
  rw [← join_relative hproper hne, ← hs.orderly.root] at hread
  have hwritten : e.found r ns =
      Survey.ofFile d.session.config.scanner (relative ns) (Utf8.encode new) := by
    rw [Desk.found, Survey.ofPlace, hget, hh.passed.akin.config]
    simp [Entry.bytes?, hreads, hlong]
  simp only [remnant, hread, hsource, hpass, hwritten]

/-- A file is written if there is something to be fixed in it. -/
theorem Rewritten.violations_ne_nil (h : Rewritten r ns d e) : (d.found r ns).violations ≠ [] := by
  obtain ⟨bytes, source, encoding, new, at_, -, -, hnew, -⟩ := h
  intro hnone
  simp [hnone, Fix.text, Fix.ordered] at hnew

/-- Nothing was left open, as far as the report goes. -/
def Settled (h : Healing) : Prop := ∀ v ∈ h.violations, v.fixed

/-- If all is said to be fixed, every file with a violation was written. -/
theorem Healed.mem_of_settled (hh : Healed r place mode s d h ws e) (hs : d.Surveyed r place ms s)
    (hsettled : Settled h) (hms : ms <+: ns) {v : Violation}
    (hv : v ∈ (d.found r ns).violations) : ns ∈ ws := by
  have hmem : v ∈ s.violations :=
    (Survey.mem_violations_iff hs.orderly.surveyable hs.descended hs.survey_path).2 ⟨ns, hms, hv⟩
  obtain ⟨hfile, hfixed, -⟩ := Survey.of_mem_ofPlace hv
  have hwritten : v.file ∈ h.written := by
    by_contra hnot
    have hopen : v ∈ s.violations.filter (·.file ∉ h.written) :=
      List.mem_filter.2 ⟨hmem, decide_eq_true hnot⟩
    rw [← hh.others] at hopen
    have hfixed' := hsettled v (List.mem_filter.1 hopen).1
    rw [hfixed] at hfixed'
    cases hfixed'
  rw [hh.written, hfile] at hwritten
  obtain ⟨ks, hks, heq⟩ := List.mem_map.1 hwritten
  have hproper := Survey.proper_of_mem_ofPlace hs.orderly.surveyable hv
  exact relative_inj ((proper_append r ks).1 (hh.examined ks hks).1).2 hproper heq ▸ hks

/-- The files with violations are those that were written, if all is said to be fixed. -/
theorem Healed.exists_file_iff (hh : Healed r place mode s d h ws e) (hs : d.Surveyed r place ms s)
    (hsettled : Settled h) {x : String} :
    (∃ v ∈ h.violations, v.file = x) ↔ ∃ ns ∈ ws, x = relative ns := by
  have hfiles : (∃ v ∈ h.violations, v.file = x) ↔ ∃ v ∈ s.violations, v.file = x := by
    rw [← List.mem_map, ← List.mem_map, hh.files]
  rw [hfiles]
  constructor
  · rintro ⟨v, hv, rfl⟩
    obtain ⟨ns, hms, hv⟩ :=
      (Survey.mem_violations_iff hs.orderly.surveyable hs.descended hs.survey_path).1 hv
    exact ⟨ns, hh.mem_of_settled hs hsettled hms hv, (Survey.of_mem_ofPlace hv).1⟩
  · rintro ⟨ns, hns, rfl⟩
    obtain ⟨hms, -⟩ := hs.of_examined (hh.examined ns hns).1 (hh.examined ns hns).2
    obtain ⟨v, hv⟩ := List.exists_mem_of_ne_nil _ (hh.texts ns hns).violations_ne_nil
    exact ⟨v, (Survey.mem_violations_iff hs.orderly.surveyable hs.descended hs.survey_path).2
      ⟨ns, hms, hv⟩, (Survey.of_mem_ofPlace hv).1⟩

end Remnant

/-- The index can be refreshed without a date before the days on which time is kept. -/
def Dated (d : Desk) : Prop :=
  d.session.indexStale ∨ (d.host.now.minusDays? d.session.config.memory.historyDays).isSome

/-- A refresh leaves the index stale, or the date was there. -/
theorem Refreshed.dated {files : List String} {vs : List Violation} {mid next e : Desk}
    {place : Location} (h : mid.Refreshed files vs next) (he : Passed (· = place) next e) :
    e.Dated := by
  have hstale : e.session.indexStale = next.session.indexStale := congrArg Basis.indexStale he.basis
  rcases h.index with ⟨hnext, -⟩ | ⟨-, since, cs, hanswers, hbasis⟩
  · exact .inl (hstale.trans hnext)
  · have hnow : e.host.now = mid.host.now :=
      (congrArg Basis.now he.basis).trans (congrArg Basis.now hbasis)
    have hconfig : e.session.config = mid.session.config := (h.akin.trans he.akin).config
    refine .inr ?_
    rw [hnow, hconfig, hanswers.horizon]
    rfl

/-- A path leads to a directory or a source file that the survey of the root comes by. -/
structure Aims (r : Location) (d : Desk) (raw : String) (ms : Location) : Prop where
  resolves : d.workspace.resolve d.host.tree raw = .ok (r ++ ms).path
  descended : Survey.Descended d.session.config.scanner r d.host.tree ms
  source : d.host.tree.DirAt (r ++ ms) ∨ Survey.reads d.session.config.scanner ms

theorem Aims.inScope {r ms : Location} {d : Desk} {raw : String} (h : d.Aims r raw ms) :
    d.InScope r raw := by
  intro p hp
  cases h.resolves.symm.trans hp
  exact ⟨ms, rfl, h.descended⟩

section Afterwards

variable {r place ms : Location} {s : Survey} {d mid next e : Desk} {h : Healing}
  {ws : List Location} {files : List String} {vs : List Violation}

/-- What came of the files from the start of a run to its end. -/
theorem Healed.changes_after (hh : Healed r place .heal s d h ws mid)
    (hnext : mid.Refreshed files vs next) (he : Passed (· = place) next e) :
    ChangesOnly (Touched r place .heal ws) d.host.tree e.host.tree := by
  refine hh.passed.changes.trans ?_
  rw [← hnext.tree]
  exact he.changes.mono fun q hq _ ↦ .inl hq

/-- The target is still there after it was healed. -/
theorem Healed.real_after (hh : Healed r place .heal s d h ws mid) (hs : d.Surveyed r place ms s)
    (hguard : d.Guarded r)
    (hsource : d.host.tree.DirAt (r ++ ms) ∨ Survey.reads d.session.config.scanner ms)
    (hchanges : ChangesOnly (Touched r place .heal ws) d.host.tree e.host.tree)
    (hsame : ∀ ns, Survey.reads d.session.config.scanner ns →
      e.host.tree.get? (r ++ ns) = mid.host.tree.get? (r ++ ns)) : Real e.host.tree (r ++ ms) := by
  obtain ⟨-, hreal, -⟩ := Survey.real_of_ok hs.descended.proper hs.descended.clear hs.survey
  by_cases hdir : d.host.tree.DirAt (r ++ ms)
  · exact hchanges.real_dir hreal hdir
  have hreads := hsource.resolve_left hdir
  refine hchanges.real_file hreal ?_
  rw [FileAt, hsame ms hreads]
  by_cases hmem : ms ∈ ws
  · obtain ⟨-, -, -, new, at_, -, -, -, hget⟩ := hh.texts ms hmem
    exact ⟨_, hget, rfl⟩
  · obtain ⟨y, hy⟩ := Option.isSome_iff_exists.1 hreal.isSome
    rw [hh.get?_eq hs (fun _ ↦ hguard) hreads hmem]
    exact ⟨y, hy, isFile_of_clear hs.descended.clear hy hdir⟩

/-- The target can be surveyed again. -/
theorem Surveyed.exists_after (hs : d.Surveyed r place ms s) (he : e.Orderly r place)
    (hakin : d.Akin e) {S : Location → Prop} (hchanges : ChangesOnly S d.host.tree e.host.tree)
    (hreal : Real e.host.tree (r ++ ms)) : ∃ s', e.Surveyed r place ms s' := by
  obtain ⟨-, -, hzero, hlong⟩ := Survey.real_of_ok hs.descended.proper hs.descended.clear hs.survey
  have hdescended : Survey.Descended e.session.config.scanner r e.host.tree ms := by
    rw [hakin.config]
    refine ⟨hs.descended.proper, hreal.clear, hs.descended.plain, hs.descended.above, ?_⟩
    intro hdir
    refine hs.descended.dir ?_
    rcases hchanges.files _ _ hdir with hget | ⟨-, hfile⟩
    · exact hget
    · cases hfile
  have hsurvey : ∃ s', Survey.of e.session.config.scanner e.session.root e.host.tree
      (r ++ ms).path = .ok s' := by
    rw [Survey.of, Survey.ofTarget, locate_of_real hreal hzero hlong]
    dsimp only
    split
    · split_ifs
      · exact ⟨_, rfl⟩
      · exact ⟨_, rfl⟩
    · exact ⟨_, rfl⟩
  exact hsurvey.imp fun s' hs' ↦ ⟨he, hdescended, hs'⟩

/-- What a survey finds in the target after it was healed. -/
theorem Healed.mem_violations_after (hh : Healed r place .heal s d h ws mid)
    (hs : d.Surveyed r place ms s) (hguard : d.Guarded r) (hsettled : Settled h)
    (hfound : ∀ ns, e.found r ns = mid.found r ns) {s' : Survey} (hs' : e.Surveyed r place ms s')
    {v : Violation} : v ∈ s'.violations ↔ ∃ u ∈ h.violations, v ∈ d.remnant u.file := by
  rw [Survey.mem_violations_iff hs'.orderly.surveyable hs'.descended hs'.survey_path]
  constructor
  · rintro ⟨ns, hms, hv⟩
    rw [← Desk.found, hfound] at hv
    have hmem : ns ∈ ws := by
      by_contra hnot
      rw [hh.found hs (fun _ ↦ hguard) hnot] at hv
      exact hnot (hh.mem_of_settled hs hsettled hms hv)
    obtain ⟨u, hu, hfile⟩ := (hh.exists_file_iff hs hsettled).2 ⟨ns, hmem, rfl⟩
    refine ⟨u, hu, ?_⟩
    rwa [hfile, ← hh.found_of_mem hs hmem]
  · rintro ⟨u, hu, hv⟩
    obtain ⟨ns, hmem, hfile⟩ := (hh.exists_file_iff hs hsettled).1 ⟨u, hu, rfl⟩
    obtain ⟨hms, -⟩ := hs.of_examined (hh.examined ns hmem).1 (hh.examined ns hmem).2
    rw [hfile, ← hh.found_of_mem hs hmem, ← hfound] at hv
    exact ⟨ns, hms, hv⟩

end Afterwards

end Desk

namespace RunReport

variable {report : RunReport}

/-- A run that healed all or found nothing says that every violation is fixed. -/
theorem fixed_of_status (h : report.status = .healed ∨ report.status = .clean) {v : Violation}
    (hv : v ∈ report.violations) : v.fixed := by
  rw [status] at h
  split_ifs at h with hfailures hnone hall
  · simp at h
  · rw [List.isEmpty_iff.1 hnone] at hv
    cases hv
  · rw [Bool.and_eq_true, List.all_eq_true] at hall
    exact hall.2 v hv
  · simp at h

theorem status_eq_clean_iff (hmode : report.mode = .scan) (hfailures : report.failures = []) :
    report.status = .clean ↔ report.violations = [] := by
  rw [status, hfailures, hmode, ← List.isEmpty_iff]
  cases report.violations.isEmpty <;> simp

end RunReport

open Desk

namespace Work

variable {r place : Location} {d : Desk}

/-! ## A scan that returns -/

theorem updateIndex_dated (hdate : (d.host.now.minusDays? d.session.config.memory.historyDays).isSome)
    (files : List String) (vs : List Violation) :
    ⦃fun e => ⌜d.Still e⌝⦄ updateIndex files vs
      ⦃post⟨fun _ _ => ⌜True⌝, fun x e => ⌜d.Still e ∧ x ≠ .calendar⌝⟩⦄ := by
  have hhorizon := horizon_spec (d := d)
  have hfindings := findings_spec (d := d)
  mvcgen [updateIndex, hhorizon, commitsSince, askHistory, hfindings, fail, IndexHandle.modify]
  case vc2 he _ _ _ => exact he.1.trans ⟨rfl, rfl⟩
  case vc3 he _ => exact ⟨he.1, by simp⟩
  case vc4 he _ _ _ => exact ⟨he.1.trans ⟨rfl, rfl⟩, by simp⟩
  case vc5 =>
    intro _ hnone
    rw [hnone] at hdate
    cases hdate

theorem refreshIndex_returns (hdate : d.Dated) (files : List String) (vs : List Violation) :
    ⦃fun e => ⌜d.Still e⌝⦄ refreshIndex files vs
      ⦃⇓ _ e => ⌜d.Refreshed files vs e⌝⦄ := by
  have hreturns : ⦃fun e => ⌜d.Still e⌝⦄ refreshIndex files vs
      ⦃⇓ _ _ => ⌜True⌝⦄ := by
    have hupdate := @updateIndex_dated d
    have hstale := markStale_spec (d := d)
    mvcgen [refreshIndex, hupdate, hstale]
    case vc1 he hfresh => exact hdate.resolve_left fun h ↦ hfresh (he.indexStale.trans h)
    case vc3 he => exact he.1
    case vc5 hx _ he => exact he.2 (Except.error.inj hx)
  refine triple_iff.2 fun e he ↦ ?_
  have hrefreshed := triple_iff.1 (refreshIndex_spec files vs) e he
  have hreturned := triple_iff.1 hreturns e he
  cases hrun : refreshIndex files vs e with
  | ok a f =>
    rw [hrun] at hrefreshed
    exact hrefreshed
  | error x f =>
    rw [hrun] at hreturned
    exact hreturned

/-- A scan that is allowed and finds its target returns what the survey says. -/
theorem scan_spec (hd : d.Orderly r place) (hdate : d.Dated) {raw : String} {p : Path}
    (hp : d.workspace.resolve d.host.tree raw = .ok p)
    (hallowed : (d.decision ⟨.scan, p⟩).allowed) {s : Survey}
    (hs : Survey.of d.session.config.scanner d.session.root d.host.tree p = .ok s) :
    ⦃fun e => ⌜d.Still e⌝⦄ scan raw
      ⦃⇓ report _ => ⌜Reports report .scan { violations := s.violations }⌝⦄ := by
  have htarget := runTarget_found hp
  have hdeny (kind : ActionKind) (target : String) (id : Option String) (x : Decision) :
      ⦃fun _ => ⌜False⌝⦄ (deny kind target id x : Work Unit)
        ⦃⇓ _ _ => ⌜False⌝⦄ := triple_iff.2 fun _ h ↦ h.elim
  have hsurvey {q : Path} (hq : q = p) (id target : String) :
      ⦃fun e => ⌜d.Still e⌝⦄ runSurvey id target q
        ⦃⇓ s' e => ⌜d.Still e ∧ s' = s⌝⦄ :=
    hq ▸ runSurvey_found hs id target
  have hrefresh := refreshIndex_returns hdate
  have hrecord := @record_spec r place
  mvcgen [scan, run, drawRun_spec, htarget, workspace, hdeny, hsurvey, openAfter, hrefresh, hrecord]
  case vc1 he => exact he.trans (still_drawn _)
  case vc2 he _ _ _ _ => exact he.2
  case vc3 he _ _ _ _ => exact he.1.trans (still_judged _ _)
  case vc4 he _ => exact he.1
  case vc5 he _ _ _ hnext _ =>
    obtain ⟨-, rfl⟩ := he
    exact ⟨hnext.orderly hd, fun e' _ ↦ ⟨rfl, rfl, rfl⟩⟩
  case vc6 he _ _ hdenied =>
    obtain ⟨he, rfl⟩ := he
    rw [he.decision] at hdenied
    exact hdenied hallowed

/-! ## The scan after -/

/-- **What is left of a healed target.** If the heal of a directory or a source file of a workspace
in order ends with all violations fixed, or with none, then a scan of the same path succeeds. It
finds just what one pass of fixes leaves in the files that had violations, and it is clean only if
that is nothing. -/
theorem scan_finds_remnants (hd : d.Orderly r place) (hguard : d.Guarded r) {raw : String}
    {ms : Location} (haims : d.Aims r raw ms) {report : RunReport} {e : Desk}
    (hheal : heal raw d = .ok report e)
    (hstatus : report.status = .healed ∨ report.status = .clean)
    (hhistory : e.workspace = d.workspace)
    (hraw : e.workspace.resolve e.host.tree raw = d.workspace.resolve d.host.tree raw) :
    ∃ again e', scan raw e = .ok again e' ∧
      (∀ v, v ∈ again.violations ↔ ∃ u ∈ report.violations, v ∈ d.remnant u.file) ∧
      (again.status = .clean ↔ ∀ u ∈ report.violations, d.remnant u.file = []) := by
  obtain ⟨ms', hms, hallowed, s, h, ws, mid, next, hs, hh, hnext, hpassed, hreports⟩ :=
    reported_of_run hd (fun _ ↦ hguard) haims.inScope hheal
  obtain rfl : ms' = ms := by
    have hpath := Except.ok.inj (hms.symm.trans haims.resolves)
    exact List.append_cancel_left (eq_of_components_path_eq hs.descended.proper
      haims.descended.proper (congrArg Path.components hpath))
  have hchanges := hh.changes_after hnext hpassed
  have hakin : d.Akin e := (hh.passed.akin.trans hnext.akin).trans hpassed.akin
  have hmid : next.Orderly r place := hnext.orderly (hh.orderly hs fun _ ↦ hguard)
  have he : e.Orderly r place := hmid.of_passed hmid.mild hpassed
  have hsame (ns : Location) (hns : Survey.reads d.session.config.scanner ns) :
      e.host.tree.get? (r ++ ns) = mid.host.tree.get? (r ++ ns) := by
    rw [← (hh.passed.akin.trans hnext.akin).config] at hns
    rw [hmid.get?_eq hpassed hns, hnext.tree]
  have hfound (ns : Location) : e.found r ns = mid.found r ns := by
    by_cases hns : Survey.reads d.session.config.scanner ns
    · exact (hnext.akin.trans hpassed.akin).found (hsame ns hns)
    · rw [Bool.not_eq_true] at hns
      rw [Desk.found, Desk.found, hakin.config, hh.passed.akin.config,
        Survey.ofPlace_of_not_reads hns, Survey.ofPlace_of_not_reads hns]
  have hsettled : Settled h := fun v hv ↦
    RunReport.fixed_of_status hstatus (hreports.violations ▸ hv)
  obtain ⟨s', hs'⟩ := hs.exists_after he hakin hchanges
    (hh.real_after hs hguard haims.source hchanges hsame)
  have hp : e.workspace.resolve e.host.tree raw = .ok (r ++ ms').path := hraw.trans hms
  rw [← hakin.decision hhistory] at hallowed
  obtain ⟨again, e', hrun, hscan⟩ | ⟨_, _, _, ⟨⟩⟩ :=
    cases_of_triple (scan_spec he (hnext.dated hpassed) hp hallowed hs'.survey) ⟨rfl, rfl⟩
  · have hreports' : Reports again .scan { violations := s'.violations } := hscan
    have hmem (v : Violation) :
        v ∈ again.violations ↔ ∃ u ∈ report.violations, v ∈ d.remnant u.file := by
      rw [hreports'.violations, hreports.violations]
      exact hh.mem_violations_after hs hguard hsettled hfound hs'
    refine ⟨again, e', hrun, hmem, ?_⟩
    rw [RunReport.status_eq_clean_iff hreports'.mode hreports'.failures,
      List.eq_nil_iff_forall_not_mem]
    simp only [hmem, List.eq_nil_iff_forall_not_mem]
    constructor
    · intro hnone u hu v hv
      exact hnone v ⟨u, hu, hv⟩
    · rintro hnone v ⟨u, hu, hv⟩
      exact hnone u hu v hv

/-- A workspace with a line that holds a credential, and behind it another hazard. -/
def maskedDesk : Desk := .sole "a.py" "password = 'x'; eval(y)\n" ⟨"/l"⟩ {}

theorem maskedDesk_orderly : maskedDesk.Orderly ["w"] ["l"] where
  root := rfl
  surveyable := Survey.surveyable_of_entries (by decide) (by decide) (by decide) (by decide)
  absolute := by decide
  ledger := .inl (by decide +kernel)
  unread ns hns := by simp at hns

theorem maskedDesk_guarded : maskedDesk.Guarded ["w"] where
  extensions := by decide
  links q _ := get?_ne_link_of_entries (by decide) q

/-- The run says that all is healed, and the scan that follows finds what stood behind. -/
theorem scan_finds_remnants_masked :
    maskedDesk.Orderly ["w"] ["l"] ∧ maskedDesk.Guarded ["w"] ∧ maskedDesk.Aims ["w"] "." [] ∧
      ∃ report e, heal "." maskedDesk = .ok report e ∧ report.status = .healed ∧
        e.workspace = maskedDesk.workspace ∧ e.workspace.resolve e.host.tree "." =
          maskedDesk.workspace.resolve maskedDesk.host.tree "." ∧
        ∃ again e', scan "." e = .ok again e' ∧ again.status ≠ .clean := by
  have haims : maskedDesk.Aims ["w"] "." [] :=
    ⟨by decide +kernel, maskedDesk_orderly.surveyable.descended, .inl (by decide)⟩
  obtain ⟨report, hheal⟩ := exists_ok_of_run' (w := heal ".") (d := maskedDesk) (by decide +kernel)
  have hanswer : ((heal ".").run' maskedDesk).map
      (fun report ↦ (report.status, report.violations.map (·.file))) = some (.healed, ["a.py"]) := by
    decide +kernel
  rw [EStateM.run', EStateM.run, hheal] at hanswer
  obtain ⟨hstatus, hfiles⟩ := Prod.mk.inj (Option.some.inj hanswer)
  have hworkspace : ((heal ".").after maskedDesk).workspace = maskedDesk.workspace := by
    obtain ⟨ms, -, -, hran⟩ :=
      ran_of_run maskedDesk_orderly (fun _ ↦ maskedDesk_guarded) haims.inScope hheal
    exact hran.akin.workspace (by rintro ⟨⟩)
  have hraw : ((heal ".").after maskedDesk).workspace.resolve
      ((heal ".").after maskedDesk).host.tree "." =
        maskedDesk.workspace.resolve maskedDesk.host.tree "." := by
    decide +kernel
  obtain ⟨again, e', hscan, -, hclean⟩ := scan_finds_remnants maskedDesk_orderly maskedDesk_guarded
    haims hheal (.inl hstatus) hworkspace hraw
  refine ⟨maskedDesk_orderly, maskedDesk_guarded, haims, report, _, hheal, hstatus, hworkspace, hraw,
    again, e', hscan, fun h ↦ ?_⟩
  obtain ⟨u, hu, hfile⟩ : ∃ u ∈ report.violations, u.file = "a.py" := by
    rw [← List.mem_map, hfiles]
    exact List.mem_cons_self
  have hnone := hclean.1 h u hu
  rw [hfile] at hnone
  exact absurd hnone (by decide +kernel)

end Work

end Steward
