import Steward.Proofs.Index.Refresh

/-!
# What healing leaves

Healing goes over the files of a survey one after the other and writes some of them, each through a
file under way and with a copy beside it. `Desk.Healed` says what holds meanwhile: nothing else that
is read has changed, and what was found in the files that were not written is as it was. So once the
others are read again, what is open is what there is, `Desk.Healed.filter_openAfter`.
-/

namespace Steward

open List

set_option mvcgen.warning false

open Location FileTree Std.Do

/-! ## Places beside files -/

/-- The place of a copy of a file below `r`, or of a file under way there. -/
def Aside (r q : Location) : Prop :=
  ∃ l n, r <+: l ∧ Proper (l ++ [n]) ∧ (q = l ++ [n ++ ".backup"] ∨ q = l ++ [n ++ ".tmp"])

section Aside

variable {r l q : Location} {n : String}

theorem aside_backup (hl : r <+: l) (h : Proper (l ++ [n])) : Aside r (l ++ [n ++ ".backup"]) :=
  ⟨l, n, hl, h, .inl rfl⟩

theorem aside_temp (hl : r <+: l) (h : Proper (l ++ [n])) : Aside r (l ++ [n ++ ".tmp"]) :=
  ⟨l, n, hl, h, .inr rfl⟩

theorem aside_backupTemp (hl : r <+: l) (h : Proper (l ++ [n])) :
    Aside r (l ++ [n ++ ".backup" ++ ".tmp"]) :=
  aside_temp hl (h.append_suffix (by decide) (by decide))

/-- Fixing a file changes the file and what is aside. -/
theorem Fix.Around.aside {t : FileTree} (h : Fix.Around t l n q) (hl : r <+: l)
    (hproper : Proper (l ++ [n])) : q = l ++ [n] ∨ Aside r q := by
  rcases h with rfl | ⟨rfl, -⟩ | rfl | rfl
  · exact .inl rfl
  · exact .inr (aside_backup hl hproper)
  · exact .inr (aside_temp hl hproper)
  · exact .inr (aside_backupTemp hl hproper)

/-- What is aside is not read, unless its extensions are looked for. -/
theorem Aside.not_reads {cfg : Config.Scanner} {ns : Location} (h : Aside r (r ++ ns))
    (hcfg : ∀ x ∈ cfg.extensions, Survey.plainExtension x ≠ "backup" ∧
      Survey.plainExtension x ≠ "tmp") : Survey.reads cfg ns = false := by
  obtain ⟨l, n, ⟨ks, rfl⟩, hproper, hq⟩ := h
  have hn : n ≠ "" := ((proper_singleton n).1 ((proper_append _ _).1 hproper).2).ne_empty
  have hname (suffix : String) (hlong : 2 < suffix.length) (hslash : '/' ∉ suffix.toList) :
      ProperName (n ++ suffix) :=
    (proper_singleton _).1 ((proper_append _ _).1 (hproper.append_suffix hlong hslash)).2
  rw [append_assoc, append_assoc, append_cancel_left_eq,
    append_cancel_left_eq] at hq
  rcases hq with rfl | rfl
  · exact Survey.not_reads_of_extension (e := "backup") hn (hname _ (by decide) (by decide))
      (by decide) (fun x hx ↦ (hcfg x hx).1) ks
  · exact Survey.not_reads_of_extension (e := "tmp") hn (hname _ (by decide) (by decide))
      (by decide) (fun x hx ↦ (hcfg x hx).2) ks

end Aside

namespace Desk

/-- Fixing files harms nothing that is read: what is put beside them is not read, and no link leads
away from there. -/
structure Guarded (r : Location) (d : Desk) : Prop where
  extensions : ∀ x ∈ d.session.config.scanner.extensions, Survey.plainExtension x ≠ "backup" ∧
    Survey.plainExtension x ≠ "tmp"
  links : ∀ q, Aside r q → ∀ target, d.host.tree.get? q ≠ some (.link target)

/-- The target at `ms` was surveyed. -/
structure Surveyed (r place ms : Location) (s : Survey) (d : Desk) : Prop where
  orderly : d.Orderly r place
  descended : Survey.Descended d.session.config.scanner r d.host.tree ms
  survey : Survey.of d.session.config.scanner d.session.root d.host.tree (r ++ ms).path = .ok s

/-- The places that a run may have changed after it wrote the files at `ws`. -/
def Touched (r place : Location) (mode : RunMode) (ws : List Location) (q : Location) : Prop :=
  q = place ∨ mode = .heal ∧ Aside r q ∨ ∃ ns ∈ ws, q = r ++ ns

section Surveyed

variable {r place ms ns : Location} {s : Survey} {d e : Desk}

theorem Surveyed.survey_path (h : d.Surveyed r place ms s) :
    Survey.of d.session.config.scanner r.path d.host.tree (r ++ ms).path = .ok s := by
  rw [← h.orderly.root]
  exact h.survey

/-- The place of a file that was examined. -/
theorem Surveyed.exists_place (h : d.Surveyed r place ms s) {x : String} (hx : x ∈ s.examined) :
    ∃ ns, x = relative ns ∧ ms <+: ns ∧ Real d.host.tree (r ++ ns) ∧
      Survey.reads d.session.config.scanner ns ∧ d.host.tree.FileAt (r ++ ns) := by
  obtain ⟨ns, hms, hx⟩ :=
    (Survey.mem_examined_iff h.orderly.surveyable h.descended h.survey_path).1 hx
  obtain ⟨rfl, hreads, y, hy, hfile⟩ := Survey.of_mem_examined_ofPlace hx
  exact ⟨ns, rfl, hms, (h.orderly.surveyable.readable ns y hy hfile hreads).1, hreads, y, hy, hfile⟩

theorem Surveyed.of_examined (h : d.Surveyed r place ms s) (hns : Proper (r ++ ns))
    (hx : relative ns ∈ s.examined) : ms <+: ns ∧ Real d.host.tree (r ++ ns) ∧
      Survey.reads d.session.config.scanner ns ∧ d.host.tree.FileAt (r ++ ns) := by
  obtain ⟨ks, heq, hks⟩ := h.exists_place hx
  obtain rfl := relative_inj ((proper_append r ns).1 hns).2
    ((proper_append r ks).1 hks.2.1.proper).2 heq
  exact hks

/-- Files with violations were examined. -/
theorem Surveyed.mem_examined (h : d.Surveyed r place ms s) {v : Violation}
    (hv : v ∈ s.violations) : v.file ∈ s.examined ∧ v.fixed = false := by
  obtain ⟨ns, hns, hv⟩ :=
    (Survey.mem_violations_iff h.orderly.surveyable h.descended h.survey_path).1 hv
  obtain ⟨hfile, hfixed, hmem⟩ := Survey.of_mem_ofPlace hv
  rw [hfile]
  exact ⟨(Survey.mem_examined_iff h.orderly.surveyable h.descended h.survey_path).2
    ⟨ns, hns, hmem⟩, hfixed⟩

/-- A run that writes files which were examined is mild. -/
theorem Surveyed.mild (h : d.Surveyed r place ms s) {mode : RunMode}
    (hd : mode = .heal → d.Guarded r) {ws : List Location}
    (hws : ∀ ns ∈ ws, Proper (r ++ ns) ∧ relative ns ∈ s.examined) :
    d.Mild r (Touched r place mode ws) := by
  have hfile (ns : Location) (hns : ns ∈ ws) : d.host.tree.FileAt (r ++ ns) :=
    (h.of_examined (hws ns hns).1 (hws ns hns).2).2.2.2
  constructor
  · rintro q (rfl | ⟨hmode, hq⟩ | ⟨ns, hns, rfl⟩) target
    · exact h.orderly.mild.links _ rfl target
    · exact (hd hmode).links q hq target
    · intro hget
      obtain ⟨x, hx, hx'⟩ := hfile ns hns
      cases hget.symm.trans hx
      cases hx'
  · rintro ns (hplace | ⟨hmode, haside⟩ | ⟨ks, hks, heq⟩) hreads
    · exact h.orderly.mild.files ns hplace hreads
    · rw [haside.not_reads (hd hmode).extensions] at hreads
      cases hreads
    · rw [heq]
      exact hfile ks hks

end Surveyed

end Desk

/-! ## Healing file by file -/

namespace Healing

/-- The files that were written. -/
def written (h : Healing) : List String := (h.files.filter (·.written)).map (·.file)

variable {h : Healing} {file : String} {report : FileReport}

theorem written_take (h : Healing) (file : String) (report : FileReport) :
    (h.take file report).written =
      h.written ++ if report.written then [report.file] else [] := by
  simp only [written, take, filter_append, map_append, filter_singleton]
  cases report.written <;> rfl

theorem files_take (h : Healing) (file : String) (report : FileReport) :
    (h.take file report).violations.map (·.file) = h.violations.map (·.file) := by
  rw [take, map_map]
  refine map_congr_left fun v _ ↦ ?_
  rw [Function.comp_apply]
  split_ifs <;> rfl

/-- A report changes nothing of violations for which it has nothing new. -/
theorem filter_take {written : List String}
    (hsame : ∀ v ∈ h.violations, v.file ∉ written → v.file = file → fixedIn report v = v.fixed) :
    (h.take file report).violations.filter (·.file ∉ written) =
      h.violations.filter (·.file ∉ written) := by
  have hfile (v : Violation) : (if v.fixable && v.file = file then
      { v with fixed := fixedIn report v } else v).file = v.file := by
    split_ifs <;> rfl
  rw [take, filter_map]
  simp only [Function.comp_def, hfile]
  refine (map_congr_left fun v hv ↦ ?_).trans (map_id _)
  obtain ⟨hv, hnot⟩ := mem_filter.1 hv
  split_ifs with hbatch
  · rw [Bool.and_eq_true, decide_eq_true_iff] at hbatch
    rw [hsame v hv (of_decide_eq_true hnot) hbatch.2]
    rfl
  · rfl

end Healing

namespace Desk

/-- At `e` the file at a place has the text that one pass of fixes makes of what it was at `d`. -/
def Rewritten (r ns : Location) (d e : Desk) : Prop :=
  ∃ bytes source encoding new at_, (d.host.tree.get? (r ++ ns)).bind (·.bytes?) = some bytes ∧
    Encoding.detect bytes = some (source, encoding) ∧
    (Fix.text (Language.ofPath (r ++ ns).path) ((d.found r ns).violations.filter (·.fixable))
      source).2 = some new ∧
    e.host.tree.get? (r ++ ns) = some (.file (Utf8.encode new) at_)

/-- A run that found the survey `s` at `d` has come to `e`, and the files at `ws` were written. -/
structure Healed (r place : Location) (mode : RunMode) (s : Survey) (d : Desk) (h : Healing)
    (ws : List Location) (e : Desk) : Prop where
  passed : Passed (Touched r place mode ws) d e
  scanned : mode = .scan → ws = []
  written : h.written = ws.map relative
  nodup : ws.Nodup
  examined : ∀ ns ∈ ws, Proper (r ++ ns) ∧ relative ns ∈ s.examined
  files : h.violations.map (·.file) = s.violations.map (·.file)
  others : h.violations.filter (·.file ∉ h.written) = s.violations.filter (·.file ∉ h.written)
  texts : ∀ ns ∈ ws, Rewritten r ns d e

section Healed

variable {r place ms ns : Location} {mode : RunMode} {s : Survey} {d e f : Desk} {h : Healing}
  {ws : List Location}

theorem Still.healed (he : d.Still e) :
    Healed r place mode s d { violations := s.violations } [] e where
  passed := (Passed.refl _ d).still he
  scanned _ := rfl
  written := rfl
  nodup := nodup_nil
  examined := by simp
  files := rfl
  others := rfl
  texts := by simp

theorem Rewritten.of_get? (h : Rewritten r ns d e)
    (hget : f.host.tree.get? (r ++ ns) = e.host.tree.get? (r ++ ns)) : Rewritten r ns d f := by
  rw [Rewritten, hget]
  exact h

theorem Healed.still (hh : Healed r place mode s d h ws e) (he : e.Still f) :
    Healed r place mode s d h ws f :=
  ⟨hh.passed.still he, hh.scanned, hh.written, hh.nodup, hh.examined, hh.files, hh.others,
    fun ns hns ↦ (hh.texts ns hns).of_get? (by rw [he.tree])⟩

/-- What is not written is what was surveyed. -/
theorem Healed.mem_violations (hh : Healed r place mode s d h ws e) {v : Violation}
    (hv : v ∈ h.violations) (hnot : v.file ∉ h.written) : v ∈ s.violations := by
  have hmem : v ∈ h.violations.filter (·.file ∉ h.written) :=
    mem_filter.2 ⟨hv, decide_eq_true hnot⟩
  rw [hh.others] at hmem
  exact (mem_filter.1 hmem).1

section Surveyed

variable (hh : Healed r place mode s d h ws e) (hs : d.Surveyed r place ms s)
include hh hs

theorem Healed.next (he : Passed (· = place) e f) : Healed r place mode s d h ws f := by
  refine ⟨hh.passed.trans (he.mono fun _ ↦ .inl), hh.scanned, hh.written, hh.nodup, hh.examined,
    hh.files, hh.others, fun ns hns ↦ (hh.texts ns hns).of_get? (he.changes.others _ ?_)⟩
  obtain ⟨-, -, hreads, -⟩ := hs.of_examined (hh.examined ns hns).1 (hh.examined ns hns).2
  intro hplace
  rw [hs.orderly.unread ns hplace.symm] at hreads
  cases hreads

/-- A file is to be written because of a violation that was surveyed. -/
theorem Healed.mem_examined_of_batch {x : String} (hbatch : h.batch x ≠ []) : x ∈ s.examined := by
  obtain ⟨v, hv⟩ := exists_mem_of_ne_nil _ hbatch
  obtain ⟨hv, hvfile⟩ := mem_filter.1 hv
  rw [Bool.and_eq_true, decide_eq_true_iff] at hvfile
  obtain ⟨u, hu, hufile⟩ := mem_map.1 (hh.files ▸ mem_map_of_mem hv)
  rw [← hvfile.2, ← hufile]
  exact (hs.mem_examined hu).1

/-- What is to be fixed in a file that was not written is what there is in it. -/
theorem Healed.batch_eq (hns : ns.Proper) (hms : ms <+: ns) (hnot : relative ns ∉ h.written) :
    h.batch (relative ns) = (d.found r ns).violations.filter (·.fixable) := by
  have hfile (vs : List Violation) :
      (vs.filter (·.file ∉ h.written)).filter (·.file = relative ns) =
        vs.filter (·.file = relative ns) := by
    rw [filter_filter]
    refine filter_congr fun v _ ↦ ?_
    rw [← Bool.decide_and, decide_eq_decide]
    exact and_iff_left_of_imp fun hv ↦ hv ▸ hnot
  have hfound := Survey.filter_violations hs.orderly.surveyable hs.descended hs.survey_path hns
  rw [if_pos hms] at hfound
  rw [Desk.found, ← hfound, ← hfile s.violations, ← hh.others, hfile, filter_filter]
  exact filter_congr fun v _ ↦ rfl

variable (hd : mode = .heal → d.Guarded r)
include hd

theorem Healed.orderly : e.Orderly r place :=
  hs.orderly.of_passed (hs.mild hd hh.examined) hh.passed

/-- A file that is read stays as it is, unless it was written. -/
theorem Healed.get?_eq (hreads : Survey.reads d.session.config.scanner ns) (hns : ns ∉ ws) :
    e.host.tree.get? (r ++ ns) = d.host.tree.get? (r ++ ns) := by
  refine hh.passed.changes.others _ ?_
  rintro (hplace | ⟨hmode, haside⟩ | ⟨ks, hks, heq⟩)
  · rw [hs.orderly.unread ns hplace.symm] at hreads
    cases hreads
  · rw [haside.not_reads (hd hmode).extensions] at hreads
    cases hreads
  · exact hns (append_cancel_left heq ▸ hks)

end Surveyed

/-- A report on a file goes on with healing. -/
theorem Healed.take (hh : Healed r place .heal s d h ws e) (hs : d.Surveyed r place ms s)
    (hd : d.Guarded r) (hns : Proper (r ++ ns)) (hnew : relative ns ∉ h.written) {report : FileReport}
    (hfile : report.file = relative ns)
    (hbatch : report.written → h.batch (relative ns) ≠ [])
    (hunwritten : report.written = false → ∀ f ∈ report.fixes, f.outcome.isFixed = false)
    (hpassed : Passed (fun q ↦ Aside r q ∨ report.written ∧ q = r ++ ns) e f)
    (htext : report.written → Rewritten r ns d f) :
    Healed r place .heal s d (h.take (relative ns) report)
      (ws ++ if report.written then [ns] else []) f where
  passed := by
    refine (hh.passed.mono ?_).trans (hpassed.mono ?_)
    · rintro q (hq | hq | ⟨ks, hks, rfl⟩)
      · exact .inl hq
      · exact .inr (.inl hq)
      · exact .inr (.inr ⟨ks, mem_append_left _ hks, rfl⟩)
    · rintro q (hq | ⟨hw, rfl⟩)
      · exact .inr (.inl ⟨rfl, hq⟩)
      · exact .inr (.inr ⟨ns, by simp [hw], rfl⟩)
  scanned := by rintro ⟨⟩
  written := by
    rw [Healing.written_take, hh.written, hfile, map_append]
    split_ifs <;> rfl
  nodup := by
    refine List.Nodup.append hh.nodup (by split_ifs <;> simp) ?_
    intro ks hks hmem
    split_ifs at hmem
    · rw [mem_singleton.1 hmem] at hks
      exact hnew (hh.written ▸ mem_map_of_mem hks)
    · cases hmem
  examined := by
    intro ks hks
    rcases mem_append.1 hks with hks | hks
    · exact hh.examined ks hks
    split_ifs at hks with hw
    · obtain rfl := mem_singleton.1 hks
      exact ⟨hns, hh.mem_examined_of_batch hs (hbatch hw)⟩
    · cases hks
  files := (Healing.files_take _ _ _).trans hh.files
  others := by
    have hmore {x : String} (hx : x ∉ (h.take (relative ns) report).written) : x ∉ h.written := by
      rw [Healing.written_take, mem_append, not_or] at hx
      exact hx.1
    have hsplit (vs : List Violation) :
        vs.filter (·.file ∉ (h.take (relative ns) report).written) =
          (vs.filter (·.file ∉ h.written)).filter
            (·.file ∉ (h.take (relative ns) report).written) := by
      rw [filter_filter]
      refine filter_congr fun v _ ↦ ?_
      rw [← Bool.decide_and, decide_eq_decide]
      exact ⟨fun hv ↦ ⟨hv, hmore hv⟩, And.left⟩
    rw [Healing.filter_take, hsplit, hh.others, ← hsplit]
    intro v hv hnot hvfile
    cases hw : report.written with
    | true =>
      -- Then the file is among the written ones.
      rw [Healing.written_take, hw, hfile, hvfile] at hnot
      simp at hnot
    | false =>
      rw [(hs.mem_examined (hh.mem_violations hv (hmore hnot))).2, Healing.fixedIn]
      refine any_eq_false.2 fun f hf ↦ ?_
      simp [hunwritten hw f hf]
  texts := by
    intro ks hks
    rcases mem_append.1 hks with hks | hks
    · refine (hh.texts ks hks).of_get? (hpassed.changes.others _ ?_)
      rintro (haside | ⟨-, heq⟩)
      · obtain ⟨-, -, hreads, -⟩ := hs.of_examined (hh.examined ks hks).1 (hh.examined ks hks).2
        rw [haside.not_reads hd.extensions] at hreads
        cases hreads
      · rw [append_cancel_left heq] at hks
        exact hnew (hh.written ▸ mem_map_of_mem hks)
    · split_ifs at hks with hw
      · rw [mem_singleton.1 hks]
        exact htext hw
      · cases hks

/-- Nothing around a file that is reached without a link is one. -/
theorem Guarded.unlinked (hd : d.Guarded r) {l : Location} {n : String} (hl : r <+: l)
    (hproper : Proper (l ++ [n])) (hclear : d.host.tree.Clear (l ++ [n])) :
    Fix.Unlinked d.host.tree l n := by
  have hbeside {m : String} (haside : Aside r (l ++ [m])) : d.host.tree.Clear (l ++ [m]) := by
    intro k hk
    rcases prefix_concat_iff.1 hk with rfl | hk
    · exact hd.links _ haside
    · exact hclear k (hk.trans (prefix_append l [n]))
  exact ⟨hclear, hbeside (aside_temp hl hproper), hbeside (aside_backup hl hproper),
    hbeside (aside_backupTemp hl hproper)⟩

end Healed

end Desk

open Desk

namespace Work

variable {r place ms ns : Location} {s : Survey} {d : Desk} {h : Healing}

theorem fixFile_healed (hs : d.Surveyed r place ms s) (hd : d.Guarded r) (hns : Proper (r ++ ns))
    (hne : ns ≠ []) (hclear : d.host.tree.Clear (r ++ ns)) (hnew : relative ns ∉ h.written) :
    ⦃fun e => ⌜∃ ws, Healed r place .heal s d h ws e⌝⦄
      fixFile (r ++ ns).path (relative ns) (h.batch (relative ns))
      ⦃⇓ report e => ⌜report.file = relative ns ∧
          ∃ ws, Healed r place .heal s d (h.take (relative ns) report) ws e⌝⦄ := by
  mvcgen [fixFile]
  case vc1 e he =>
    obtain ⟨ws, hh⟩ := he
    obtain ⟨ks, n, rfl⟩ := (eq_nil_or_concat' ns).resolve_left hne
    have hl : r <+: r ++ ks := prefix_append r ks
    simp only [← append_assoc] at hns hclear ⊢
    obtain ⟨hfile, hbatch, hunwritten⟩ := Fix.file_report e.session.config.fixer e.host.now
      (r ++ ks ++ [n]).path (relative (ks ++ [n])) (h.batch (relative (ks ++ [n])))
      { tree := e.host.tree, backedUp := e.session.backedUp }
    have hfixed := Fix.file_fixed (b := ⟨e.host.tree, e.session.backedUp, []⟩)
      ((hd.unlinked hl hns hclear).of_changes hh.passed.changes) hns e.session.config.fixer
      e.host.now (relative (ks ++ [n])) (h.batch (relative (ks ++ [n])))
    refine ⟨hfile, _, hh.take hs hd (append_assoc _ _ _ ▸ hns) hnew hfile hbatch hunwritten
      ⟨rfl, hfixed.changes.mono fun q hq hchanged ↦ ?_⟩ fun hw ↦ ?_⟩
    · rcases hq.aside hl hns with rfl | hq
      · refine .inr ⟨Bool.of_not_eq_false fun hw ↦ hchanged (hfixed.unwritten hw), ?_⟩
        exact append_assoc _ _ _
      · exact .inl hq
    · have hproper : Proper (r ++ (ks ++ [n])) := append_assoc _ _ _ ▸ hns
      obtain ⟨hms, -, hreads, -⟩ :=
        hs.of_examined hproper (hh.mem_examined_of_batch hs (hbatch hw))
      have hunlinked := (hd.unlinked hl hns hclear).of_changes hh.passed.changes
      obtain ⟨bytes, source, encoding, new, hread, hsource, hnew', hget⟩ :=
        Fix.exists_text_of_written (b := ⟨e.host.tree, e.session.backedUp, []⟩) hunlinked hns hw
      rw [hh.batch_eq hs ((proper_append r _).1 hproper).2 hms hnew] at hnew'
      have hbefore := hh.get?_eq hs (fun _ ↦ hd) hreads fun hmem ↦
        hnew (hh.written ▸ mem_map_of_mem hmem)
      have hbytes := get?_of_read hunlinked.file hns hread
      rw [append_assoc] at hbytes hnew'
      rw [hbefore] at hbytes
      refine ⟨bytes, source, encoding, new, e.host.now, hbytes, hsource, hnew', ?_⟩
      rw [← append_assoc]
      exact hget

theorem writeDecision_healed (made : Option Decision) (p : Path) :
    ⦃fun e => ⌜∃ ws, Healed r place .heal s d h ws e⌝⦄ writeDecision made p
      ⦃⇓ _ e => ⌜∃ ws, Healed r place .heal s d h ws e⌝⦄ := by
  have hjudged {e : Desk} (he : ∃ ws, Healed r place .heal s d h ws e) :
      ∃ ws, Healed r place .heal s d h ws (e.judged ⟨.write, p⟩) :=
    he.imp fun _ hh ↦ hh.still (e.still_judged _)
  mvcgen [writeDecision]
  case vc2 he => exact hjudged he
  case vc3 he => exact hjudged he

/-- Healing a file leaves those that come after it alone. -/
theorem healFile_healed (hs : d.Surveyed r place ms s) (hd : d.Guarded r) (hns : Proper (r ++ ns))
    (hne : ns ≠ []) (hclear : d.host.tree.Clear (r ++ ns)) {rest : List String}
    (hrest : relative ns ∉ rest) (hnew : ∀ x ∈ relative ns :: rest, x ∉ h.written) (id : String)
    (made : Option Decision) :
    ⦃fun e => ⌜∃ ws, Healed r place .heal s d h ws e⌝⦄ healFile id made h (relative ns)
      ⦃⇓ h' e => ⌜(∃ ws, Healed r place .heal s d h' ws e) ∧ ∀ x ∈ rest, x ∉ h'.written⌝⦄ := by
  have hrecord := @record_spec r place
  have hdecision := @writeDecision_healed r place s d h made
  have hfix {p : Path} (hp : p = (r ++ ns).path) :=
    hp ▸ fixFile_healed hs hd hns hne hclear (hnew _ mem_cons_self)
  mvcgen [healFile, hdecision, hfix, hrecord]
  case vc2 he _ _ _ _ _ =>
    obtain ⟨ws, hh⟩ := he
    have hroot := hh.passed.akin.root.trans hs.orderly.root
    exact (congrArg (Path.join · (relative ns)) hroot).trans (join_relative hns hne)
  case vc4 report e he =>
    obtain ⟨hfile, ws, hh⟩ := he
    refine ⟨hh.orderly hs fun _ ↦ hd, fun e' he' ↦ ⟨⟨ws, hh.next hs he'⟩, fun x hx hmem ↦ ?_⟩⟩
    rw [Healing.written_take, hfile, mem_append] at hmem
    rcases hmem with hmem | hmem
    · exact hnew x (mem_cons_of_mem _ hx) hmem
    · split_ifs at hmem
      · exact hrest (mem_singleton.1 hmem ▸ hx)
      · cases hmem
  case vc5 e he =>
    obtain ⟨ws, hh⟩ := he
    refine ⟨hh.orderly hs fun _ ↦ hd, fun e' he' ↦ ?_⟩
    obtain ⟨hpassed, hscanned, hwritten, hnodup, hexamined, hfiles, hothers, htexts⟩ :=
      hh.next hs he'
    exact ⟨⟨ws, hpassed, hscanned, hwritten, hnodup, hexamined, hfiles, hothers, htexts⟩,
      fun x hx ↦ hnew x (mem_cons_of_mem _ hx)⟩

theorem healFiles_healed (hs : d.Surveyed r place ms s) (hd : d.Guarded r) (id : String)
    {made : Option Decision} (hmade : made.isSome → ms ≠ []) :
    ⦃fun e => ⌜d.Still e⌝⦄ healFiles id (relative ms) made s.violations
      ⦃⇓ h e => ⌜∃ ws, Healed r place .heal s d h ws e⌝⦄ := by
  have hfile {file : String}
      (h : file ∈ Healing.targets s.violations (made.map fun _ => relative ms)) :
      ∃ ns, file = relative ns ∧ Proper (r ++ ns) ∧ ns ≠ [] ∧ d.host.tree.Clear (r ++ ns) := by
    rcases mem_append.1 (mem_sortedDistinct h) with h | h
    · obtain ⟨v, hv, rfl⟩ := mem_map.1 h
      obtain ⟨ns, hns, -, hreal, -, hfile⟩ :=
        hs.exists_place (hs.mem_examined (mem_filter.1 hv).1).1
      refine ⟨ns, hns, hreal.proper, ?_, hreal.clear⟩
      rintro rfl
      rw [append_nil] at hfile
      exact hfile.not_dirAt hs.orderly.surveyable.dir
    · obtain ⟨x, hx, rfl⟩ := Option.map_eq_some_iff.1 (Option.mem_toList.1 h)
      exact ⟨ms, rfl, hs.descended.proper, hmade (by simp [hx]), hs.descended.clear⟩
  mvcgen [healFiles]
  invariants
  · ⇓ c e => ⌜(∃ ws, Healed r place .heal s d c.2 ws e) ∧
      ∀ x ∈ c.1.suffix, x ∉ c.2.written⌝
  case vc1 _ file rest htargets h =>
    obtain ⟨ns, rfl, hns, hne, hclear⟩ := hfile (by simp [htargets] : file ∈ _)
    have hnodup : (Healing.targets s.violations (made.map fun _ => relative ms)).Nodup :=
      nodup_sortedDistinct _
    rw [htargets] at hnodup
    have hrest := (nodup_cons.1 (nodup_append.1 hnodup).2.1).1
    exact fun e he hnew ↦ healFile_healed hs hd hns hne hclear hrest hnew id made e he
  case vc2 he e =>
    exact ⟨⟨[], (he.trans (f := e.2) ⟨rfl, rfl⟩).healed⟩, by simp [Healing.written]⟩
  case vc3 => exact fun he _ ↦ he

end Work

/-! ## What is open afterwards -/

namespace Desk

/-- The violations of a survey, with those of the files at `ws` as they are now. -/
def present (r : Location) (s : Survey) (ws : List Location) (e : Desk) : List Violation :=
  s.violations.filter (·.file ∉ ws.map relative) ++
    ws.flatMap fun ns => (e.found r ns).violations

variable {r place ms ns : Location} {mode : RunMode} {s : Survey} {d e : Desk} {h : Healing}
  {ws : List Location}

variable (hh : Healed r place mode s d h ws e) (hs : d.Surveyed r place ms s)
include hh hs

theorem Healed.openElsewhere_eq :
    h.openElsewhere = s.violations.filter (·.file ∉ ws.map relative) := by
  have hopen : h.openElsewhere = (h.violations.filter (·.file ∉ h.written)).filter (!·.fixed) := by
    rw [filter_filter]
    refine filter_congr fun v _ ↦ ?_
    change (!v.fixed && !h.written.contains v.file) = _
    rw [contains_eq_mem, decide_not]
  rw [hopen, hh.others, hh.written, filter_eq_self]
  intro v hv
  rw [(hs.mem_examined (mem_filter.1 hv).1).2]
  rfl

variable (hd : mode = .heal → d.Guarded r)
include hd

theorem Healed.found (hns : ns ∉ ws) : e.found r ns = d.found r ns := by
  by_cases hreads : Survey.reads d.session.config.scanner ns
  · exact hh.passed.akin.found (hh.get?_eq hs hd hreads hns)
  · rw [Bool.not_eq_true] at hreads
    rw [Desk.found, Desk.found, hh.passed.akin.config, Survey.ofPlace_of_not_reads hreads,
      Survey.ofPlace_of_not_reads hreads]

/-- A file that was written is read again. -/
theorem Healed.reread (hns : ns ∈ ws) :
    (Survey.of e.session.config.scanner e.session.root e.host.tree
      (e.session.root.join (relative ns))).toOption.elim [] (·.violations) =
        (e.found r ns).violations := by
  obtain ⟨hproper, hexamined⟩ := hh.examined ns hns
  obtain ⟨-, hreal, hreads, hfile⟩ := hs.of_examined hproper hexamined
  have he := hh.orderly hs hd
  have hne : ns ≠ [] := by
    rintro rfl
    rw [append_nil] at hfile
    exact hfile.not_dirAt hs.orderly.surveyable.dir
  have hdir : ¬e.host.tree.DirAt (r ++ ns) := by
    intro hdir
    rcases hh.passed.changes.files _ _ hdir with hget | ⟨-, hdir⟩
    · exact hfile.not_dirAt hget
    · cases hdir
  rw [← hh.passed.akin.config] at hreads
  rw [he.root, join_relative hproper hne]
  obtain ⟨s', hs', hvs⟩ | ⟨⟨x, hx⟩, hnone⟩ := Survey.of_place he.surveyable hproper
    (hh.passed.changes.clear hreal.clear) hdir hreads
  · rw [hs']
    exact hvs
  · rw [hx, Desk.found, hnone]
    rfl

/-- What is open is what there is in the files at and below the target. -/
theorem Healed.filter_present (hns : ns.Proper) :
    (e.present r s ws).filter (·.file = relative ns) =
      if ms <+: ns then (e.found r ns).violations else [] := by
  have hproper {ks : Location} (hks : ks ∈ ws) : ks.Proper :=
    ((proper_append r ks).1 (hh.examined ks hks).1).2
  rw [present, filter_append]
  simp only [Desk.found]
  rw [Survey.filter_places (hh.orderly hs hd).surveyable hh.nodup hns]
  by_cases hmem : ns ∈ ws
  · obtain ⟨hbelow, -⟩ := hs.of_examined (hh.examined ns hmem).1 (hh.examined ns hmem).2
    have hnone : (s.violations.filter (·.file ∉ ws.map relative)).filter
        (·.file = relative ns) = [] := by
      refine filter_eq_nil_iff.2 fun v hv hfile ↦ ?_
      refine of_decide_eq_true (mem_filter.1 hv).2 (mem_map.2 ⟨ns, hmem, ?_⟩)
      exact (of_decide_eq_true hfile).symm
    rw [if_pos hmem, if_pos hbelow, hnone, nil_append]
  · have hall : (s.violations.filter (·.file ∉ ws.map relative)).filter (·.file = relative ns) =
        s.violations.filter (·.file = relative ns) := by
      rw [filter_filter]
      refine filter_congr fun v _ ↦ ?_
      rw [← Bool.decide_and, decide_eq_decide]
      refine and_iff_left_of_imp fun hfile hwritten ↦ hmem ?_
      obtain ⟨ks, hks, heq⟩ := mem_map.1 hwritten
      exact relative_inj (hproper hks) hns (heq.trans hfile) ▸ hks
    have hfound := hh.found hs hd hmem
    simp only [Desk.found] at hfound
    rw [if_neg hmem, append_nil, hall, hfound]
    exact Survey.filter_violations hs.orderly.surveyable hs.descended hs.survey_path hns

end Desk

namespace Work

variable {r place ms : Location} {mode : RunMode} {s : Survey} {d : Desk} {h : Healing}

theorem openAfter_spec (hs : d.Surveyed r place ms s) (hd : mode = .heal → d.Guarded r) :
    ⦃fun e => ⌜∃ ws, Healed r place mode s d h ws e⌝⦄ openAfter h
      ⦃⇓ vs e => ⌜∃ ws, Healed r place mode s d h ws e ∧ vs = e.present r s ws⌝⦄ := by
  mvcgen [openAfter]
  case vc1 e he again =>
    obtain ⟨ws, hh⟩ := he
    refine ⟨ws, hh, congrArg₂ (· ++ ·) (hh.openElsewhere_eq hs) ?_⟩
    have hagain : again = h.written.flatMap fun file ↦
        (Survey.of e.session.config.scanner e.session.root e.host.tree
          (e.session.root.join file)).toOption.elim [] (·.violations) := by
      rw [Healing.written, flatMap_map]
      refine flatMap_congr fun report _ ↦ ?_
      cases Survey.of e.session.config.scanner e.session.root e.host.tree
        (e.session.root.join report.file) <;> rfl
    rw [hagain, hh.written, flatMap_map]
    exact flatMap_congr fun ns hns ↦ hh.reread hs hd hns

end Work

end Steward
