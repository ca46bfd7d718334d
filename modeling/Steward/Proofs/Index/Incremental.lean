import Steward.Proofs.Index.Run

/-!
# An index that is kept up to date

While nobody else changes the files, the index holds just the findings in them: a rebuild sees to it
once, and each scan or healing keeps it so, `Desk.Ran.mirrored`. So after any number of them nothing
is gained by a rebuild, `Work.findings_served_eq_rebuild`. It does not hold if a run changes a file
that it did not examine: a ledger that is read itself, `Work.findings_ne_rebuild_of_ledger_read`, or
what a link leads to that stands where a file is written on the way.
-/

namespace Steward

open Location FileTree

namespace Desk

/-- A finding in a file at or below `ms`. -/
def Finds (r ms : Location) (d : Desk) (f : Finding) : Prop :=
  ∃ ns : Location, ns.Proper ∧ f.file = relative ns ∧ ms <+: ns ∧
    f ∈ d.rows (d.found r ns).violations

/-- The findings in the workspace have identities of their own. -/
def TellsApart (d : Desk) : Prop :=
  ∀ s, d.survey = .ok s → Finding.Apart d.host.digest s.violations

instance (d : Desk) : Decidable d.TellsApart :=
  match hs : d.survey with
  | .ok s => decidable_of_iff (Finding.Apart d.host.digest s.violations) (by simp [TellsApart, hs])
  | .error _ => .isTrue (by simp [TellsApart, hs])

section Finds

variable {r place ms ns : Location} {mode : RunMode} {s : Survey} {d e : Desk} {h : Healing}
  {ws : List Location} {f g : Finding}

/-- Violations that are those of the files at and below `ms` give the findings there. -/
theorem mem_rows_iff_finds {vs : List Violation}
    (hvs : ∀ v ∈ vs, ∃ ns : Location, ns.Proper ∧ v.file = relative ns)
    (hfilter : ∀ ns : Location, ns.Proper → vs.filter (·.file = relative ns) =
      if ms <+: ns then (d.found r ns).violations else []) :
    f ∈ d.rows vs ↔ d.Finds r ms f := by
  constructor
  · intro hf
    obtain ⟨v, hv, hfile⟩ := Finding.exists_file_of_mem_ofViolations hf
    obtain ⟨ns, hns, hvfile⟩ := hvs v hv
    have hffile : f.file = relative ns := hfile.symm.trans hvfile
    have hmem := Finding.mem_ofViolations_filter.2 hf
    rw [hffile, hfilter ns hns] at hmem
    split_ifs at hmem with hms
    · exact ⟨ns, hns, hffile, hms, hmem⟩
    · cases hmem
  · rintro ⟨ns, hns, hffile, hms, hf⟩
    refine Finding.mem_ofViolations_filter.1 ?_
    rw [hffile, hfilter ns hns, if_pos hms]
    exact hf

/-- The findings of a survey of the whole workspace. -/
theorem Orderly.mem_rows_iff (hd : d.Orderly r place) (hs : d.survey = .ok s) :
    f ∈ d.rows s.violations ↔ d.Finds r [] f := by
  refine mem_rows_iff_finds (fun v hv ↦ ?_) fun ns hns ↦ ?_
  · obtain ⟨ns, hv⟩ := (hd.mem_violations_iff hs).1 hv
    exact ⟨ns, Survey.proper_of_mem_ofPlace hd.surveyable hv, (Survey.of_mem_ofPlace hv).1⟩
  · rw [Desk.survey, hd.root] at hs
    exact Survey.filter_violations hd.surveyable hd.surveyable.descended
      (by rwa [List.append_nil]) hns

/-- What a run puts into the index are the findings at and below its target. -/
theorem Healed.mem_rows_iff (hh : Healed r place mode s d h ws e) (hs : d.Surveyed r place ms s)
    (hd : mode = .heal → d.Guarded r) : f ∈ e.rows (e.present r s ws) ↔ e.Finds r ms f := by
  refine mem_rows_iff_finds (fun v hv ↦ ?_) fun ns ↦ hh.filter_present hs hd
  rw [present, List.mem_append, List.mem_filter, List.mem_flatMap] at hv
  rcases hv with ⟨hv, -⟩ | ⟨ns, -, hv⟩
  · obtain ⟨ns, -, hv⟩ :=
      (Survey.mem_violations_iff hs.orderly.surveyable hs.descended hs.survey_path).1 hv
    exact ⟨ns, Survey.proper_of_mem_ofPlace hs.orderly.surveyable hv, (Survey.of_mem_ofPlace hv).1⟩
  · exact ⟨ns, Survey.proper_of_mem_ofPlace (hh.orderly hs hd).surveyable hv,
      (Survey.of_mem_ofPlace hv).1⟩

theorem Orderly.eq_of_id_eq (hd : d.Orderly r place) (hapart : d.TellsApart)
    (hf : d.Finds r [] f) (hg : d.Finds r [] g) (hid : f.id = g.id) : f = g := by
  obtain ⟨s, hs⟩ := hd.exists_survey
  have hopen (v : Violation) (hv : v ∈ s.violations) : v.fixed = false := by
    obtain ⟨ns, hv⟩ := (hd.mem_violations_iff hs).1 hv
    exact (Survey.of_mem_ofPlace hv).2.1
  exact List.inj_on_of_nodup_map (Finding.nodup_ids_ofViolations hopen (hapart s hs))
    ((hd.mem_rows_iff hs).2 hf) ((hd.mem_rows_iff hs).2 hg) hid

/-- There is nothing to be told apart where no file has a violation. -/
theorem Orderly.tellsApart_of_entries (hd : d.Orderly r place)
    (h : ∀ x ∈ d.host.tree.entries, (d.found r (x.1.drop r.length)).violations = []) :
    d.TellsApart := by
  intro s hs
  have hnone : s.violations = [] := by
    refine List.eq_nil_iff_forall_not_mem.2 fun v hv ↦ ?_
    obtain ⟨ns, hv⟩ := (hd.mem_violations_iff hs).1 hv
    obtain hnone | ⟨x, -, hx, hfile, -⟩ :=
      Survey.ofPlace_cases d.session.config.scanner d.host.tree r ns
    · simp [Desk.found, hnone] at hv
    obtain ⟨-, rfl⟩ | hmem := mem_of_get? hx
    · cases hfile
    · have hns := h _ hmem
      rw [List.drop_left] at hns
      simp [hns] at hv
  rw [hnone]
  rintro x ⟨⟩

/-- The findings are the same while nothing that is read changes. -/
theorem Akin.finds_iff (h : d.Akin e) (hd : d.Orderly r place) (he : e.Orderly r place)
    (hsame : ∀ ns, Survey.reads d.session.config.scanner ns →
      e.host.tree.get? (r ++ ns) = d.host.tree.get? (r ++ ns)) :
    e.Finds r [] f ↔ d.Finds r [] f := by
  obtain ⟨s, hs⟩ := hd.exists_survey
  rw [← hd.mem_rows_iff hs, ← h.rows_survey hd he hsame hs]
  exact (he.mem_rows_iff ((h.survey hd he hsame).trans hs)).symm

theorem Akin.tellsApart_iff (h : d.Akin e) (hd : d.Orderly r place) (he : e.Orderly r place)
    (hsame : ∀ ns, Survey.reads d.session.config.scanner ns →
      e.host.tree.get? (r ++ ns) = d.host.tree.get? (r ++ ns)) :
    e.TellsApart ↔ d.TellsApart := by
  rw [TellsApart, TellsApart, h.survey hd he hsame, h.digest]

/-- The findings in a file stay as they are, unless it is written. -/
theorem Healed.rows_found (hh : Healed r place mode s d h ws e) (hs : d.Surveyed r place ms s)
    (hd : mode = .heal → d.Guarded r) (hns : ns ∉ ws) :
    e.rows (e.found r ns).violations = d.rows (d.found r ns).violations := by
  rw [hh.found hs hd hns]
  refine hh.passed.akin.rows hs.orderly (hh.orderly hs hd) fun v hv ↦ ⟨ns, hv, ?_⟩
  obtain hnone | ⟨-, -, -, -, -, hreads, -⟩ :=
    Survey.ofPlace_cases d.session.config.scanner d.host.tree r ns
  · simp [Desk.found, hnone] at hv
  · exact hh.get?_eq hs hd hreads hns

/-- The findings after a run: those from before in files that were not examined, and what the run
puts into the index. -/
theorem Healed.finds_iff (hh : Healed r place mode s d h ws e) (hs : d.Surveyed r place ms s)
    (hd : mode = .heal → d.Guarded r) :
    e.Finds r [] f ↔ d.Finds r [] f ∧ f.file ∉ s.examined ∨ f ∈ e.rows (e.present r s ws) := by
  have hproper {ns : Location} (hns : ns.Proper) : Proper (r ++ ns) :=
    (proper_append r ns).2 ⟨hs.orderly.surveyable.real.proper, hns⟩
  rw [hh.mem_rows_iff hs hd]
  constructor
  · rintro ⟨ns, hns, hfile, -, hf⟩
    by_cases hms : ms <+: ns
    · exact .inr ⟨ns, hns, hfile, hms, hf⟩
    have hnot : relative ns ∉ s.examined := fun hx ↦ hms (hs.of_examined (hproper hns) hx).1
    rw [hh.rows_found hs hd fun hmem ↦ hnot (hh.examined ns hmem).2] at hf
    exact .inl ⟨⟨ns, hns, hfile, List.nil_prefix, hf⟩, hfile ▸ hnot⟩
  · rintro (⟨⟨ns, hns, hfile, -, hf⟩, hnot⟩ | ⟨ns, hns, hfile, -, hf⟩)
    · rw [hfile] at hnot
      rw [← hh.rows_found hs hd fun hmem ↦ hnot (hh.examined ns hmem).2] at hf
      exact ⟨ns, hns, hfile, List.nil_prefix, hf⟩
    · exact ⟨ns, hns, hfile, List.nil_prefix, hf⟩

end Finds

/-! ## An index that mirrors the workspace -/

/-- The tables hold just the findings in the workspace. -/
structure Mirrors (r : Location) (d : Desk) (x : Index) : Prop where
  nodup : (x.findings.map (·.id)).Nodup
  mem_iff : ∀ f, f ∈ x.findings ↔ d.Finds r [] f

/-- The workspace is in order and the index is up to date. -/
structure Mirrored (r place : Location) (d : Desk) : Prop where
  orderly : d.Orderly r place
  guarded : d.Guarded r
  apart : d.TellsApart
  fresh : d.session.indexStale = false
  exists_tables : ∃ x, d.basis.tables? = some x ∧ d.Mirrors r x

section Mirrored

variable {r place ms : Location} {mode : RunMode} {s : Survey} {d e : Desk}

/-- A rebuild makes a mirror. -/
theorem Orderly.mirrors_rebuild (hd : d.Orderly r place) (hapart : d.TellsApart)
    (hs : d.survey = .ok s) (now : Instant) (cs : List Commit) :
    d.Mirrors r (Index.rebuild now cs (d.rows s.violations)) := by
  refine ⟨Index.nodup_ids_rebuild _ _ _, fun f ↦ ?_⟩
  rw [Index.mem_rebuild_iff, hd.mem_rows_iff hs]
  intro f hf g hg
  exact hd.eq_of_id_eq hapart ((hd.mem_rows_iff hs).1 hf) ((hd.mem_rows_iff hs).1 hg)

/-- Work that changes nothing of what is read keeps the mirror. -/
theorem Mirrored.of_akin (h : d.Mirrored r place) (hakin : d.Akin e) (he : e.Orderly r place)
    (hguard : e.Guarded r) (hsame : ∀ ns, Survey.reads d.session.config.scanner ns →
      e.host.tree.get? (r ++ ns) = d.host.tree.get? (r ++ ns))
    (hfresh : e.session.indexStale = d.session.indexStale)
    (htables : e.basis.tables? = d.basis.tables?) : e.Mirrored r place := by
  obtain ⟨x, hx, hmirrors⟩ := h.exists_tables
  refine ⟨he, hguard, (hakin.tellsApart_iff h.orderly he hsame).2 h.apart, hfresh.trans h.fresh, x,
    htables.trans hx, hmirrors.nodup, fun f ↦ ?_⟩
  rw [hakin.finds_iff h.orderly he hsame, hmirrors.mem_iff]

theorem Mirrored.of_passed (hd : d.Mirrored r place) (h : Passed (· = place) d e) :
    e.Mirrored r place :=
  hd.of_akin h.akin (hd.orderly.of_passed hd.orderly.mild h) (hd.guarded.of_passed h)
    (fun _ ↦ hd.orderly.get?_eq h) (congrArg Basis.indexStale h.basis) h.tables?

/-- **A run keeps the mirror.** -/
theorem Ran.mirrored (h : Ran r place mode ms d e) (hd : d.Mirrored r place)
    (hanswers : ∃ since cs, d.Answers since cs) (hapart : e.TellsApart) : e.Mirrored r place := by
  have hguard : mode = .heal → d.Guarded r := fun _ ↦ hd.guarded
  obtain ⟨x, hx, hmirrors⟩ := hd.exists_tables
  have hfresh := h.fresh hd.fresh ⟨Basis.isSome_index hx, hanswers⟩
  have he := h.orderly hguard
  refine ⟨he, h.guarded hd.guarded, hapart, hfresh, ?_⟩
  obtain ⟨s, h, ws, mid, since, cs, hs, hh, hakin, hsame, -, htables⟩ :=
    h.exists_tables hguard hfresh hx
  have hmid := hh.orderly hs hguard
  have hmidApart := (hakin.tellsApart_iff hmid he hsame).1 hapart
  -- What stays and what is put in place of the rest are the findings there are now.
  have hall (f : Finding) : f ∈ (x.recordCommits cs since).findings ∧ f.file ∉ s.examined ∨
      f ∈ mid.rows (mid.present r s ws) ↔ mid.Finds r [] f := by
    rw [hh.finds_iff hs hguard, Index.findings_recordCommits, hmirrors.mem_iff]
  refine ⟨_, htables, Index.nodup_ids_replaceFindings ?_ _ _, fun f ↦ ?_⟩
  · rw [Index.findings_recordCommits]
    exact hmirrors.nodup
  · rw [refreshed, Index.mem_replaceFindings_iff, hall, hakin.finds_iff hmid he hsame]
    intro f g hf hg
    exact hmid.eq_of_id_eq hmidApart ((hall f).1 hf) ((hall g).1 hg)

/-- A rebuild in a workspace in order makes a mirror of the index. -/
theorem Refilled.mirrored {mid : Desk} (h : d.Refilled mid) (hd : d.Orderly r place)
    (hguard : d.Guarded r) (he : Passed (· = place) mid e) (hopen : d.basis.tables?.isSome)
    (hapart : e.TellsApart) : e.Mirrored r place := by
  obtain ⟨x, hx⟩ := Option.isSome_iff_exists.1 hopen
  obtain ⟨cs, s, hs, hfresh, htables⟩ := h.exists_tables hx
  have hmid := hd.of_akin h.akin h.tree
  have hsame (ns : Location) (_ : Survey.reads d.session.config.scanner ns) :
      mid.host.tree.get? (r ++ ns) = d.host.tree.get? (r ++ ns) := by
    rw [h.tree]
  have hmidApart := (he.akin.tellsApart_iff hmid (hmid.of_passed hmid.mild he)
    fun _ ↦ hmid.get?_eq he).1 hapart
  have hmirrors := hmid.mirrors_rebuild hmidApart ((h.akin.survey hd hmid hsame).trans hs)
    d.host.now cs
  rw [h.akin.rows_survey hd hmid hsame hs] at hmirrors
  exact Mirrored.of_passed ⟨hmid, hguard.of_akin h.akin h.tree, hmidApart, hfresh, _, htables, hmirrors⟩ he

end Mirrored

/-! ## Serving requests -/

/-- The desk at another time. -/
def atTime (d : Desk) (now : Instant) : Desk := { d with host.now := now }

/-- From `d` on scans and healings were asked for while time went by, and nothing else happened: each
was about a target that the survey of the root comes by, at a time at which the history answered, and
left findings with identities of their own. -/
inductive Served (r : Location) (d : Desk) : Desk → Prop
  | start : Served r d d
  | wait {e : Desk} (h : Served r d e) (now : Instant) : Served r d (e.atTime now)
  | run {e : Desk} (h : Served r d e) (mode : RunMode) (raw : String) (hscope : e.InScope r raw)
    (hanswers : ∃ since cs, e.Answers since cs)
    (hapart : ((Work.run mode raw).after e).TellsApart) :
    Served r d ((Work.run mode raw).after e)

variable {r place : Location} {d e : Desk}

theorem Mirrored.atTime (hd : d.Mirrored r place) (now : Instant) :
    (d.atTime now).Mirrored r place :=
  have hakin : d.Akin (d.atTime now) := ⟨rfl, rfl, rfl⟩
  hd.of_akin hakin (hd.orderly.of_akin hakin rfl) ⟨hd.guarded.extensions, hd.guarded.links⟩
    (fun _ _ ↦ rfl) rfl rfl

theorem Mirrored.run (hd : d.Mirrored r place) {mode : RunMode} {raw : String}
    (hscope : d.InScope r raw) (hanswers : ∃ since cs, d.Answers since cs)
    (hapart : ((Work.run mode raw).after d).TellsApart) :
    ((Work.run mode raw).after d).Mirrored r place ∧ d.Akin ((Work.run mode raw).after d) := by
  have hguard : mode = .heal → d.Guarded r := fun _ ↦ hd.guarded
  obtain ⟨x, hx, -⟩ := hd.exists_tables
  cases hrun : Work.run mode raw d with
  | ok report e =>
    simp only [Work.after, hrun] at hapart ⊢
    obtain ⟨ms, -, -, hran⟩ := Work.ran_of_run hd.orderly hguard hscope hrun
    exact ⟨hran.mirrored hd hanswers hapart, hran.akin⟩
  | error x e =>
    simp only [Work.after, hrun]
    have hpassed := Work.passed_of_run hd.orderly hguard hscope
      ⟨Basis.isSome_index hx, hanswers⟩ hrun
    exact ⟨hd.of_passed hpassed, hpassed.akin⟩

/-- The index is up to date all along. -/
theorem Served.mirrored (h : Served r d e) (hd : d.Mirrored r place) :
    e.Mirrored r place ∧ d.Akin e := by
  induction h with
  | start => exact ⟨hd, rfl, rfl, rfl⟩
  | wait _ now ih => exact ⟨ih.1.atTime now, ih.2.trans ⟨rfl, rfl, rfl⟩⟩
  | run _ mode raw hscope hanswers hapart ih =>
    obtain ⟨hnext, hakin⟩ := ih.1.run hscope hanswers hapart
    exact ⟨hnext, ih.2.trans hakin⟩

end Desk

open Desk

namespace Work

variable {r place : Location} {d₀ d e : Desk}

/-- **Nothing is gained by a rebuild.** After a rebuild of the index of a workspace in order, scans
and healings are served for as long as nobody else changes the files. Then the index is not stale,
and the findings in it are those that another rebuild gives. -/
theorem findings_served_eq_rebuild (hd : d₀.Orderly r place) (hguard : d₀.Guarded r)
    (hopen : d₀.basis.tables?.isSome) {summary : RebuildSummary}
    (hrebuild : rebuildIndex d₀ = .ok summary d) (hapart : d.TellsApart) (hserved : Served r d e)
    (hhistory : e.workspace = d₀.workspace) (hanswers : ∃ since cs, e.Answers since cs) :
    e.session.indexStale = false ∧ ∃ y z again e', snapshot e = .ok y e ∧
      rebuildIndex e = .ok again e' ∧ snapshot e' = .ok z e' ∧ y.findings = z.findings := by
  obtain ⟨x₀, hx₀⟩ := Option.isSome_iff_exists.1 hopen
  obtain ⟨hallowed, mid, hmid, hpassed⟩ :=
    refilled_of_rebuildIndex hd (Basis.isSome_index hx₀) hrebuild
  obtain ⟨he, hakin⟩ := hserved.mirrored (hmid.mirrored hd hguard hpassed hopen hapart)
  have hakin := (hmid.akin.trans hpassed.akin).trans hakin
  rw [← hakin.decision hhistory, ← hakin.root] at hallowed
  obtain ⟨x, hx, hmirrors⟩ := he.exists_tables
  obtain ⟨again, mid', e', hrebuild', hmid', hpassed'⟩ :=
    exists_rebuildIndex he.orderly ⟨Basis.isSome_index hx, hanswers⟩ hallowed
  obtain ⟨cs, s, hs, -, htables⟩ := hmid'.exists_tables hx
  have hrebuilt := he.orderly.mirrors_rebuild he.apart hs e.host.now cs
  refine ⟨he.fresh, _, _, again, e', snapshot_eq hx, hrebuild',
    snapshot_eq (hpassed'.tables?.trans htables), ?_⟩
  exact Index.findings_snapshot_eq hmirrors.nodup hrebuilt.nodup fun f ↦
    (hmirrors.mem_iff f).trans (hrebuilt.mem_iff f).symm

/-- A workspace with one file to be healed. -/
def healDesk : Desk := .sole "a.py" "except:" ⟨"/l"⟩ {}

theorem healDesk_orderly : healDesk.Orderly ["w"] ["l"] where
  root := rfl
  surveyable := Survey.surveyable_of_entries (by decide) (by decide) (by decide) (by decide)
  absolute := by decide
  ledger := .inl (by decide +kernel)
  unread ns hns := by simp at hns

theorem healDesk_guarded : healDesk.Guarded ["w"] where
  extensions := by decide
  links q _ := get?_ne_link_of_entries (by decide) q

/-- The file is healed, and its finding goes from the index. -/
theorem findings_served_eq_rebuild_healed :
    healDesk.Orderly ["w"] ["l"] ∧ healDesk.Guarded ["w"] ∧ healDesk.basis.tables?.isSome ∧
      ∃ summary d e, rebuildIndex healDesk = .ok summary d ∧ d.TellsApart ∧ Served ["w"] d e ∧
        e.workspace = healDesk.workspace ∧ (∃ since cs, e.Answers since cs) ∧
        e.host.tree.get? ["w", "a.py"] ≠ d.host.tree.get? ["w", "a.py"] ∧
        e.session.indexStale = false ∧ ∃ y z again e', snapshot e = .ok y e ∧
          rebuildIndex e = .ok again e' ∧ snapshot e' = .ok z e' ∧ y.findings = z.findings := by
  let d := rebuildIndex.after healDesk
  let e := (heal ".").after d
  obtain ⟨summary, hrebuild⟩ :=
    exists_ok_of_run' (w := rebuildIndex) (d := healDesk) (by decide +kernel)
  obtain ⟨report, hheal⟩ := exists_ok_of_run' (w := heal ".") (d := d) (by decide +kernel)
  have hapart : d.TellsApart := by decide +kernel
  obtain ⟨-, mid, hmid, hpassed⟩ := refilled_of_rebuildIndex healDesk_orderly rfl hrebuild
  have hd := hmid.mirrored healDesk_orderly healDesk_guarded hpassed rfl hapart
  have hscope : d.InScope ["w"] "." := by
    intro p hp
    have htarget : d.workspace.resolve d.host.tree "." = .ok (Location.path ["w"]) := by
      decide +kernel
    cases htarget.symm.trans hp
    exact ⟨[], rfl, hd.orderly.surveyable.descended⟩
  obtain ⟨ms, -, -, hran⟩ := ran_of_run hd.orderly (fun _ ↦ hd.guarded) hscope hheal
  have hakin := (hmid.akin.trans hpassed.akin).trans hran.akin
  have hserved : Served ["w"] d e := by
    refine .run .start .heal "." hscope (by decide +kernel) ?_
    exact (hran.orderly fun _ ↦ hd.guarded).tellsApart_of_entries (by decide +kernel)
  have hworkspace : e.workspace = healDesk.workspace := hakin.workspace (by rintro ⟨⟩)
  have hanswers : ∃ since cs, e.Answers since cs := by decide +kernel
  exact ⟨healDesk_orderly, healDesk_guarded, rfl, summary, d, e, hrebuild, hapart, hserved,
    hworkspace, hanswers, by decide +kernel, findings_served_eq_rebuild healDesk_orderly
      healDesk_guarded rfl hrebuild hapart hserved hworkspace hanswers⟩

/-- A workspace whose only file is the ledger. -/
def ledgerDesk : Desk := .sole "password='x'.py" "" ⟨"/w/password='x'.py"⟩ {}

set_option maxRecDepth 100000 in
theorem ledgerDesk_workspace :
    ((scan "password='x'.py").after (rebuildIndex.after ledgerDesk)).workspace =
      ledgerDesk.workspace := rfl

theorem ledgerDesk_guarded : ledgerDesk.Guarded ["w"] where
  extensions := by decide
  links q _ := get?_ne_link_of_entries (by decide) q

/-- The ledger is a file of the workspace here, and tells of a scan in words that look like a
password. That is not in the index until it is rebuilt. -/
theorem findings_ne_rebuild_of_ledger_read :
    ledgerDesk.Guarded ["w"] ∧ ledgerDesk.basis.tables?.isSome ∧
      ∃ summary d e y z again e', rebuildIndex ledgerDesk = .ok summary d ∧ d.TellsApart ∧
        Served ["w"] d e ∧ e.workspace = ledgerDesk.workspace ∧
        (∃ since cs, e.Answers since cs) ∧ snapshot e = .ok y e ∧
        rebuildIndex e = .ok again e' ∧ snapshot e' = .ok z e' ∧ y.findings ≠ z.findings := by
  let d := rebuildIndex.after ledgerDesk
  let e := (scan "password='x'.py").after d
  have hscope : d.InScope ["w"] "password='x'.py" := by
    intro p hp
    have htarget : d.workspace.resolve d.host.tree "password='x'.py" =
        .ok (Location.path ["w", "password='x'.py"]) := by decide +kernel
    cases htarget.symm.trans hp
    refine ⟨["password='x'.py"], rfl, by decide, fun k _ ↦ ?_, by decide +kernel, by decide, ?_⟩
    · exact get?_ne_link_of_entries (by decide +kernel) k
    · decide +kernel
  have hserved : Served ["w"] d e :=
    .run .start .scan _ hscope (by decide +kernel) (by decide +kernel)
  obtain ⟨summary, hrebuild⟩ :=
    exists_ok_of_run' (w := rebuildIndex) (d := ledgerDesk) (by decide +kernel)
  obtain ⟨again, hagain⟩ := exists_ok_of_run' (w := rebuildIndex) (d := e) (by decide +kernel)
  obtain ⟨x, hx, hnone⟩ : ∃ x, e.basis.tables? = some x ∧ x.findings.length = 0 :=
    Option.map_eq_some_iff.1 (by decide +kernel)
  obtain ⟨x', hx', hone⟩ : ∃ x, (rebuildIndex.after e).basis.tables? = some x ∧
      x.findings.length = 1 := Option.map_eq_some_iff.1 (by decide +kernel)
  refine ⟨ledgerDesk_guarded, rfl, summary, d, e, _, _, again, _, hrebuild, by decide +kernel,
    hserved, ledgerDesk_workspace, by decide +kernel, snapshot_eq hx, hagain, snapshot_eq hx', ?_⟩
  intro heq
  have hlength := congrArg List.length heq
  rw [Index.snapshot, Index.snapshot, List.length_mergeSort, List.length_mergeSort, hnone,
    hone] at hlength
  cases hlength

end Work

end Steward
