import Steward.Proofs.Index.Run

/-!
# Scanning the whole workspace again

A scan of the root replaces the findings of the files that it examined. Findings of files that have
gone since, or are not examined any more, stay in the index. So the index agrees with a rebuilt one
after such a scan just if it held none of these before: `Work.findings_rescan_eq_rebuild_iff`.
-/

namespace Steward

open Location FileTree Desk

namespace Desk

variable {r place : Location} {s : Survey} {d e : Desk} {h : Healing} {ws : List Location}

/-- After a scan everything that is read is as before. -/
theorem Healed.get?_of_scan {ms ns : Location} (hh : Healed r place .scan s d h ws e)
    (hs : d.Surveyed r place ms s) (hreads : Survey.reads d.session.config.scanner ns) :
    e.host.tree.get? (r ++ ns) = d.host.tree.get? (r ++ ns) := by
  refine hh.get?_eq hs (by rintro ⟨⟩) hreads ?_
  rw [hh.scanned rfl]
  exact List.not_mem_nil

theorem present_nil (r : Location) (s : Survey) (e : Desk) : e.present r s [] = s.violations := by
  simp [present]

end Desk

namespace Work

variable {r place : Location} {d : Desk}

theorem ran_of_scan_root (hd : d.Orderly r place) {raw : String}
    (hraw : d.workspace.resolve d.host.tree raw = .ok d.session.root) {report : RunReport} {e : Desk}
    (hscan : scan raw d = .ok report e) :
    (d.decision ⟨.scan, d.session.root⟩).allowed ∧ Ran r place .scan [] d e := by
  have hscope : d.InScope r raw := by
    intro p hp
    cases hraw.symm.trans hp
    exact ⟨[], by rw [List.append_nil, hd.root], hd.surveyable.descended⟩
  obtain ⟨ms, hms, hallowed, hran⟩ := ran_of_run hd (by rintro ⟨⟩) hscope hscan
  have hpath : (r ++ ms).path = r.path := by
    rw [← hd.root]
    exact Except.ok.inj (hms.symm.trans hraw)
  obtain rfl : ms = [] := by
    have hran' := hran
    obtain ⟨s, -, -, -, -, hs, -⟩ := hran'
    have hsame := eq_of_components_path_eq hs.descended.proper hd.surveyable.real.proper
      (congrArg Path.components hpath)
    simpa using hsame
  rw [hpath, ← hd.root] at hallowed
  exact ⟨hallowed, hran⟩

/-- **When a scan of the root is as good as a rebuild.** After the scan of the root of a workspace in
order left the index fresh, its findings are those of an index that is rebuilt at once just if every
finding before was of a file that the scan examined. -/
theorem findings_rescan_eq_rebuild_iff (hd : d.Orderly r place) {x : Index}
    (hx : d.basis.tables? = some x) {raw : String}
    (hraw : d.workspace.resolve d.host.tree raw = .ok d.session.root) {report : RunReport} {e : Desk}
    (hscan : scan raw d = .ok report e) (hfresh : e.session.indexStale = false)
    (hhistory : e.workspace = d.workspace) :
    ∃ s y z summary e', d.survey = .ok s ∧ snapshot e = .ok y e ∧
      rebuildIndex e = .ok summary e' ∧ snapshot e' = .ok z e' ∧
      (y.findings = z.findings ↔ ∀ f ∈ x.findings, f.file ∈ s.examined) := by
  obtain ⟨hallowed, hran⟩ := ran_of_scan_root hd hraw hscan
  have he := hran.orderly (by rintro ⟨⟩)
  have hakin := hran.akin
  obtain ⟨s, h, ws, mid, since, cs, hs, hh, hmid, hsame, hanswers, htables⟩ :=
    hran.exists_tables (by rintro ⟨⟩) hfresh hx
  obtain rfl := hh.scanned rfl
  rw [present_nil] at htables
  have hsurvey : d.survey = .ok s := by
    rw [Desk.survey, hd.root]
    simpa using hs.survey_path
  have hsame' (ns : Location) (hns : Survey.reads d.session.config.scanner ns) :
      e.host.tree.get? (r ++ ns) = d.host.tree.get? (r ++ ns) := by
    rw [hsame ns (hh.passed.akin.config ▸ hns), hh.get?_of_scan hs hns]
  have hrows : mid.rows s.violations = e.rows s.violations := by
    rw [hakin.rows_survey hd he hsame' hsurvey,
      hh.passed.akin.rows_survey hd (hh.orderly hs (by rintro ⟨⟩)) (fun ns ↦ hh.get?_of_scan hs)
        hsurvey]
  rw [← hakin.decision hhistory, ← hakin.root] at hallowed
  obtain ⟨summary, mid', e', hrebuild, hrefilled, hpassed⟩ :=
    exists_rebuildIndex he ⟨Basis.isSome_index htables, since, cs, hanswers⟩ hallowed
  obtain ⟨cs', s', hs', -, htables'⟩ := hrefilled.exists_tables htables
  obtain rfl : s' = s := by
    rw [hakin.survey hd he hsame', hsurvey] at hs'
    exact (Except.ok.inj hs').symm
  refine ⟨s', _, _, summary, e', hsurvey, snapshot_eq htables, hrebuild,
    snapshot_eq (hpassed.tables?.trans htables'), ?_⟩
  have hexamined (f : Finding) (hf : f ∈ e.rows s'.violations) : f.file ∈ s'.examined := by
    obtain ⟨v, hv, hfile⟩ := Finding.exists_file_of_mem_ofViolations hf
    exact hfile ▸ (hs.mem_examined hv).1
  rw [Desk.refreshed, hrows,
    Index.findings_replaceFindings_eq_iff hexamined (Index.findings_rebuild _ _ _),
    Index.findings_recordCommits]

/-- A workspace with one file, and an index with a finding in another that has gone. -/
def goneDesk : Desk :=
  .sole "b.py" "eval(x)" ⟨"/l"⟩
    { findings := [⟨"0", "DANGEROUS_EVAL", "HIGH", "a.py", 1, "eval(x)", true, ""⟩] }

theorem goneDesk_orderly : goneDesk.Orderly ["w"] ["l"] where
  root := rfl
  surveyable := Survey.surveyable_of_entries (by decide) (by decide) (by decide) (by decide)
  absolute := by decide
  ledger := .inl (by decide +kernel)
  unread ns hns := by simp at hns

/-- The finding in the file that has gone stays until the index is rebuilt. -/
theorem findings_rescan_eq_rebuild_iff_gone :
    goneDesk.Orderly ["w"] ["l"] ∧
      goneDesk.workspace.resolve goneDesk.host.tree "." = .ok goneDesk.session.root ∧
      ∃ report e, scan "." goneDesk = .ok report e ∧ e.session.indexStale = false ∧
        e.workspace = goneDesk.workspace ∧
        ∃ y z summary e', snapshot e = .ok y e ∧ rebuildIndex e = .ok summary e' ∧
          snapshot e' = .ok z e' ∧ y.findings ≠ z.findings := by
  have hraw : goneDesk.workspace.resolve goneDesk.host.tree "." = .ok goneDesk.session.root := by
    decide +kernel
  have hexamined : goneDesk.survey.toOption.map (·.examined) = some ["b.py"] := by decide +kernel
  have hfresh : ((scan ".").after goneDesk).session.indexStale = false := by decide +kernel
  obtain ⟨report, hscan⟩ := exists_ok_of_run' (w := scan ".") (d := goneDesk) (by decide +kernel)
  refine ⟨goneDesk_orderly, hraw, report, _, hscan, hfresh, ?_⟩
  have hworkspace : ((scan ".").after goneDesk).workspace = goneDesk.workspace :=
    (ran_of_scan_root goneDesk_orderly hraw hscan).2.akin.workspace (by rintro ⟨⟩)
  obtain ⟨s, y, z, summary, e', hs, hy, hrebuild, hz, hiff⟩ :=
    findings_rescan_eq_rebuild_iff goneDesk_orderly rfl hraw hscan hfresh hworkspace
  refine ⟨hworkspace, y, z, summary, e', hy, hrebuild, hz, fun heq ↦ ?_⟩
  rw [hs] at hexamined
  have hleft := hiff.1 heq _ List.mem_cons_self
  rw [show s.examined = ["b.py"] from Option.some.inj hexamined] at hleft
  exact absurd hleft (by decide)

end Work

end Steward
