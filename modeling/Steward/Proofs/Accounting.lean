import Steward.Proofs.Counts
import Steward.Proofs.Journal
import Steward.Proofs.Survey.Coverage

/-!
# The accounts of a healing run

What a run fixed is told three times: in the records of the files that it was to write, in the
record of the run itself, and by the violations that are marked as fixed. The marks are set by
looking for a fix of the same hazard on the same line, so it matters that no two violations of a
survey share their file and line. `Healing.Balanced` says what holds while the files are healed one
after the other, and `Stage.agrees` what comes out of the run.
-/

namespace Steward

open List

set_option mvcgen.warning false

open Std.Do

/-! ## The report on a file -/

/-- What a fix is the fix of. -/
def LineFix.key (f : LineFix) : Hazard × Nat := (f.hazard, f.line)

/-- What a fix of the violation is told by. -/
def Violation.key (v : Violation) : Hazard × Nat := (v.hazard, v.line)

/-- A report on a file answers for some violations: each of them has one outcome, and the file was
written just if something was fixed. -/
structure FileReport.AnswersFor (r : FileReport) (file : String) (vs : List Violation) : Prop where
  file : r.file = file
  keys : (r.fixes.map (·.key)).Perm (vs.map (·.key))
  written : r.written = r.fixes.any (·.outcome.isFixed)

namespace Fix

theorem map_key_foldl_step (l : Language) (vs : List Violation) (p : Pass) :
    (vs.foldl (Pass.step l) p).fixes.map (·.key) = p.fixes.map (·.key) ++ vs.map (·.key) := by
  induction vs generalizing p with
  | nil => simp
  | cons v vs ih =>
    rw [foldl_cons, ih]
    simp [Pass.step, LineFix.key, Violation.key]

theorem map_key_text (l : Language) (vs : List Violation) (source : List Char) :
    (text l vs source).1.map (·.key) = (ordered vs).map (·.key) := by
  have hfold := map_key_foldl_step l (ordered vs) { lines := Text.lines source }
  rw [text]
  split_ifs <;> exact hfold

theorem isSome_text (l : Language) (vs : List Violation) (source : List Char) :
    (text l vs source).2.isSome = (text l vs source).1.any (·.outcome.isFixed) := by
  rw [text]
  dsimp only
  split_ifs with hany
  · exact hany.symm
  · exact (Bool.eq_false_iff.2 hany).symm

theorem map_key_withFailure (report : FileReport) (why : FixFailure) :
    (report.withFailure why).fixes.map (·.key) = report.fixes.map (·.key) := by
  rw [FileReport.withFailure, map_map]
  refine map_congr_left fun f _ ↦ ?_
  rw [Function.comp_apply]
  split_ifs <;> rfl

/-- A report answers for the violations that were to be fixed, whatever became of the file. -/
theorem file_answersFor (cfg : Config.Fixer) (now : Instant) (p : Path) (name : String)
    (vs : List Violation) (b : Bench) :
    (file cfg now p name vs b).1.AnswersFor name vs := by
  have hperm : ((ordered vs).map (·.key)).Perm (vs.map (·.key)) :=
    (mergeSort_perm vs _).map _
  have hall (o : Outcome) (ho : o.isFixed = false) :
      FileReport.AnswersFor { file := name, fixes := (ordered vs).map fun v ↦ ⟨v.hazard, v.line, o⟩ }
        name vs := by
    refine ⟨rfl, ?_, ?_⟩
    · rw [map_map]
      exact hperm
    · exact (any_eq_false.2 (by simp [ho])).symm
  rw [file]
  cases b.tree.read p with
  | error e => exact hall _ rfl
  | ok bytes =>
    dsimp only
    cases Encoding.detect bytes with
    | none => exact hall _ rfl
    | some x =>
      obtain ⟨source, encoding⟩ := x
      have hkeys := map_key_text (Language.ofPath p) vs source
      have hsome := isSome_text (Language.ofPath p) vs source
      dsimp only
      cases hnew : (text (Language.ofPath p) vs source).2 with
      | none =>
        rw [hnew] at hsome
        exact ⟨rfl, hkeys ▸ hperm, hsome⟩
      | some new =>
        rw [hnew] at hsome
        dsimp only
        obtain ⟨made, heq⟩ | ⟨why, heq⟩ := replace_cases cfg now p bytes new
          { file := name, fixes := (text (Language.ofPath p) vs source).1,
            encoding := some encoding } b
        · rw [heq]
          exact ⟨rfl, hkeys ▸ hperm, hsome⟩
        · rw [heq]
          refine ⟨rfl, ?_, ?_⟩
          · rw [map_key_withFailure]
            exact hkeys ▸ hperm
          · exact (any_eq_false.2 fun f hf ↦ by simp [isFixed_withFailure hf]).symm

end Fix

namespace FileReport

variable {r : FileReport} {file : String} {vs : List Violation}

theorem fixedIn_eq_true_iff {v : Violation} :
    Healing.fixedIn r v ↔ ∃ f ∈ r.fixes, f.key = v.key ∧ f.outcome.isFixed := by
  simp [Healing.fixedIn, LineFix.key, Violation.key, and_assoc]

/-- The file was written just if one of the violations is marked. -/
theorem AnswersFor.written_iff (h : r.AnswersFor file vs) :
    r.written ↔ ∃ v ∈ vs, Healing.fixedIn r v := by
  rw [h.written, any_eq_true]
  constructor
  · rintro ⟨f, hf, hfixed⟩
    obtain ⟨v, hv, hkey⟩ := mem_map.1 (h.keys.subset (mem_map_of_mem hf))
    exact ⟨v, hv, fixedIn_eq_true_iff.2 ⟨f, hf, hkey.symm, hfixed⟩⟩
  · rintro ⟨v, -, hv⟩
    obtain ⟨f, hf, -, hfixed⟩ := fixedIn_eq_true_iff.1 hv
    exact ⟨f, hf, hfixed⟩

/-- As many violations are marked as there were fixes, for each kind. -/
theorem AnswersFor.get_fixesByKind (h : r.AnswersFor file vs)
    (hvs : vs.Pairwise fun v w ↦ v.line ≠ w.line) (k : String) :
    r.fixesByKind.get k = vs.countP fun v ↦ v.hazard.name = k ∧ Healing.fixedIn r v := by
  have hnodup : (r.fixes.map (·.key)).Nodup :=
    h.keys.nodup_iff.2 (pairwise_map.2 (hvs.imp fun hne hkey ↦ hne (congrArg Prod.snd hkey)))
  -- Whether a key is the key of a fix that was made.
  let made (x : Hazard × Nat) : Prop := ∃ f ∈ r.fixes, f.key = x ∧ f.outcome.isFixed
  classical
  have hmade (f : LineFix) (hf : f ∈ r.fixes) : f.outcome.isFixed ↔ made f.key := by
    refine ⟨fun hfixed ↦ ⟨f, hf, rfl, hfixed⟩, ?_⟩
    rintro ⟨g, hg, hkey, hfixed⟩
    rwa [← inj_on_of_nodup_map hnodup hg hf hkey]
  calc r.fixesByKind.get k
      = r.fixes.countP fun f ↦ f.hazard.name = k ∧ made f.key := by
        rw [fixesByKind, Counts.get_tally, FileReport.made, List.count, countP_map,
          countP_filter]
        refine countP_congr fun f hf ↦ ?_
        simp [hmade f hf]
    _ = (r.fixes.map (·.key)).countP fun x ↦ x.1.name = k ∧ made x := by
        rw [countP_map]
        rfl
    _ = (vs.map (·.key)).countP fun x ↦ x.1.name = k ∧ made x := h.keys.countP_eq _
    _ = vs.countP fun v ↦ v.hazard.name = k ∧ Healing.fixedIn r v := by
        rw [countP_map]
        refine countP_congr fun v _ ↦ ?_
        simp only [Function.comp_apply, decide_eq_true_iff, fixedIn_eq_true_iff]
        rfl

end FileReport

/-! ## Healing one file after the other -/

/-- No two violations share their file and line. -/
def Violation.Apart (vs : List Violation) : Prop :=
  vs.Pairwise fun v w ↦ v.file = w.file → v.line ≠ w.line

namespace Survey

theorem nodup_shownAs_filesBelow {t : FileTree} (ht : t.Distinct) (hnames : t.ProperNames)
    (cfg : Config.Scanner) (extensions : List String) (root : Path) {target : Path}
    (htarget : target.isAbsolute) (l : Location) :
    ((filesBelow cfg extensions target (t.below l)).map fun x ↦ shownAs root target x.1).Nodup := by
  have hproper {x : Location × List UInt8}
      (hx : x ∈ filesBelow cfg extensions target (t.below l)) : x.1.Proper := by
    obtain ⟨y, hy, hfile⟩ := mem_filterMap.1 hx
    obtain ⟨hname, -⟩ := fileOf?_eq_some_iff.1 hfile
    exact hname ▸ FileTree.proper_of_mem_below hnames hy
  exact pairwise_map.2 ((pairwise_filesBelow ht).imp_of_mem fun hx hy hxy heq ↦
    hxy.2 (shownAs_inj htarget (hproper hx) (hproper hy) heq))

/-- The violations of a survey are apart, and none of them is marked as fixed. -/
theorem apart_violations {t : FileTree} (ht : t.Distinct) (hnames : t.ProperNames)
    {cfg : Config.Scanner} {root target : Path} (htarget : target.isAbsolute) {s : Survey}
    (hs : Survey.of cfg root t target = .ok s) :
    Violation.Apart s.violations ∧ ∀ v ∈ s.violations, v.fixed = false := by
  rw [Survey.of, ofTarget] at hs
  cases hl : t.locate target with
  | error e => simp [hl] at hs
  | ok l =>
    simp only [hl] at hs
    split at hs
    · split_ifs at hs
      · cases hs
        refine ⟨?_, fun v hv ↦ (of_mem_ofFile hv).2⟩
        rw [ofFile]
        split_ifs
        · exact .nil
        · split
          · exact .nil
          · exact (Violation.pairwise_ofText _ _ _).imp fun hlt _ ↦ hlt.ne
      · cases hs
        exact ⟨.nil, by simp⟩
    · cases hs
      rw [ofDir_eq_ofFiles]
      have hnodup := nodup_shownAs_filesBelow ht hnames cfg (cfg.extensions.map plainExtension) root
        htarget l
      refine ⟨(pairwise_violations_ofFiles cfg _ _ hnodup).imp fun hlt hfile ↦ (hlt hfile).ne, ?_⟩
      intro v hv
      rw [violations_ofFiles] at hv
      obtain ⟨x, -, hv⟩ := mem_flatMap.1 hv
      exact (Violation.of_mem_ofText hv).2

end Survey

namespace Healing

/-- How many violations of a kind are marked as fixed. -/
def marked (h : Healing) (k : String) : Nat :=
  h.violations.countP fun v ↦ v.hazard.name = k ∧ v.fixed

/-- Where healing stands once the entries `es` tell of the files `done`: reports, entries and marks
say the same. -/
structure Balanced (done : List String) (h : Healing) (es : List Ledger.Entry) : Prop where
  apart : Violation.Apart h.violations
  files : (h.files.map (·.file)).Sublist done
  written_iff : ∀ r ∈ h.files, r.written ↔ ∃ v ∈ h.violations, v.file = r.file ∧ v.fixed
  reported : ∀ v ∈ h.violations, v.fixed → ∃ r ∈ h.files, r.file = v.file
  reports : ∀ k, (h.files.map (·.fixesByKind.get k)).sum = (es.map (·.fixes.get k)).sum
  marks : ∀ k, (es.map (·.fixes.get k)).sum = h.marked k

variable {h : Healing} {done : List String} {es : List Ledger.Entry} {file : String}
  {r : FileReport} {entry : Ledger.Entry}

theorem balanced_nil {vs : List Violation} (hvs : Violation.Apart vs)
    (hopen : ∀ v ∈ vs, v.fixed = false) : Balanced [] { violations := vs } [] where
  apart := hvs
  files := .slnil
  written_iff := by simp
  reported v hv hfixed := by simp [hopen v hv] at hfixed
  reports _ := rfl
  marks k := by
    refine (countP_eq_zero.2 fun v hv ↦ ?_).symm
    simp [hopen v hv]

/-- The violation as a report leaves it. -/
def remark (file : String) (r : FileReport) (v : Violation) : Violation :=
  if v.fixable && v.file = file then { v with fixed := fixedIn r v } else v

theorem remark_file (v : Violation) : (remark file r v).file = v.file := by
  rw [remark]
  split_ifs <;> rfl

theorem remark_line (v : Violation) : (remark file r v).line = v.line := by
  rw [remark]
  split_ifs <;> rfl

theorem violations_take (h : Healing) (file : String) (r : FileReport) :
    (h.take file r).violations = h.violations.map (remark file r) := rfl

theorem mem_batch {v : Violation} :
    v ∈ h.batch file ↔ v ∈ h.violations ∧ v.fixable ∧ v.file = file := by
  simp [batch]

theorem remark_of_ne {v : Violation} (hv : v.file ≠ file) : remark file r v = v := by
  simp [remark, hv]

/-- Nothing is marked in a file that was not seen to. -/
theorem Balanced.fixed_of_not_mem (hb : Balanced done h es) (hfile : file ∉ done) {v : Violation}
    (hv : v ∈ h.violations) (heq : v.file = file) : v.fixed = false := by
  refine Bool.eq_false_iff.2 fun hfixed ↦ hfile ?_
  obtain ⟨r, hr, hrfile⟩ := hb.reported v hv hfixed
  rw [← heq, ← hrfile]
  exact hb.files.subset (mem_map_of_mem hr)

theorem Balanced.batch_apart (hb : Balanced done h es) (file : String) :
    (h.batch file).Pairwise fun v w ↦ v.line ≠ w.line :=
  (hb.apart.filter _).imp_of_mem fun hv hw hne ↦
    hne ((mem_batch.1 hv).2.2.trans (mem_batch.1 hw).2.2.symm)

/-- The report on a file that was not seen to before adds as many marks as it tells of fixes. -/
theorem Balanced.marked_take (hb : Balanced done h es) (hfile : file ∉ done)
    (hr : r.AnswersFor file (h.batch file)) (k : String) :
    (h.take file r).marked k = h.marked k + r.fixesByKind.get k := by
  -- Those that the report is about had no mark before, and the others keep theirs.
  let marks (v : Violation) : Bool := v.hazard.name = k ∧ v.fixed
  let seen (v : Violation) : Bool := v.fixable && v.file = file
  have hold : (h.violations.filter seen).countP marks = 0 := by
    refine countP_eq_zero.2 fun v hv ↦ ?_
    obtain ⟨hv, -, heq⟩ := mem_batch.1 hv
    simp [marks, hb.fixed_of_not_mem hfile hv heq]
  have hnew : (h.violations.filter seen).countP (marks ∘ remark file r) = r.fixesByKind.get k := by
    rw [hr.get_fixesByKind (hb.batch_apart file)]
    refine countP_congr fun v hv ↦ ?_
    obtain ⟨-, hfixable, heq⟩ := mem_batch.1 hv
    simp [marks, remark, hfixable, heq]
  have hrest : (h.violations.filter (!seen ·)).countP (marks ∘ remark file r) =
      (h.violations.filter (!seen ·)).countP marks := by
    refine countP_congr fun v hv ↦ ?_
    have hv : seen v = false := by simpa using (mem_filter.1 hv).2
    rw [Function.comp_apply, remark, if_neg (Bool.eq_false_iff.1 hv)]
  calc (h.take file r).marked k
      = h.violations.countP (marks ∘ remark file r) := countP_map
    _ = r.fixesByKind.get k + (h.violations.filter (!seen ·)).countP marks := by
        rw [countP_eq_countP_filter_add h.violations _ seen, hnew, hrest]
    _ = h.violations.countP marks + r.fixesByKind.get k := by
        rw [countP_eq_countP_filter_add h.violations marks seen, hold, Nat.zero_add,
          Nat.add_comm]

/-- A file that is healed keeps the balance. -/
theorem Balanced.take (hb : Balanced done h es) (hfile : file ∉ done)
    (hr : r.AnswersFor file (h.batch file)) (hentry : entry.fixes = r.fixesByKind) :
    Balanced (done ++ [file]) (h.take file r) (es ++ [entry]) where
  apart := by
    rw [violations_take]
    refine pairwise_map.2 (hb.apart.imp fun hne heq ↦ ?_)
    rw [remark_file, remark_file] at heq
    rw [remark_line, remark_line]
    exact hne heq
  files := by
    rw [Healing.take, map_append, map_singleton, hr.file]
    exact hb.files.append (.refl _)
  written_iff := by
    intro r' hr'
    simp only [violations_take, mem_map, exists_exists_and_eq_and, remark_file]
    rcases mem_append.1 hr' with hr' | hr'
    · have hne : r'.file ≠ file := fun heq ↦
        hfile (heq ▸ hb.files.subset (mem_map_of_mem hr'))
      rw [hb.written_iff r' hr']
      refine exists_congr fun v ↦ and_congr_right fun _ ↦ and_congr_right fun heq ↦ ?_
      rw [remark_of_ne (heq ▸ hne)]
    · rw [mem_singleton.1 hr', hr.written_iff, hr.file]
      constructor
      · rintro ⟨v, hv, hfixed⟩
        obtain ⟨hv, hfixable, heq⟩ := mem_batch.1 hv
        exact ⟨v, hv, heq, by simpa [remark, hfixable, heq] using hfixed⟩
      · rintro ⟨v, hv, heq, hfixed⟩
        have hopen := hb.fixed_of_not_mem hfile hv heq
        rw [remark] at hfixed
        split_ifs at hfixed with hseen
        · exact ⟨v, mem_filter.2 ⟨hv, hseen⟩, hfixed⟩
        · simp [hopen] at hfixed
  reported := by
    intro v' hv' hfixed
    rw [violations_take] at hv'
    obtain ⟨v, hv, rfl⟩ := mem_map.1 hv'
    by_cases heq : v.file = file
    · exact ⟨r, mem_append_right _ (mem_singleton_self r),
        hr.file.trans (heq.symm.trans (remark_file v).symm)⟩
    · rw [remark_of_ne heq] at hfixed ⊢
      obtain ⟨r', hr', hr'file⟩ := hb.reported v hv hfixed
      exact ⟨r', mem_append_left _ hr', hr'file⟩
  reports k := by
    rw [Healing.take, map_append, map_append, sum_append, sum_append,
      hb.reports k, map_singleton, map_singleton, hentry]
  marks k := by
    rw [hb.marked_take hfile hr k, map_append, sum_append, hb.marks k,
      map_singleton, sum_singleton, hentry]

/-- A file that may not be written keeps the balance. -/
theorem Balanced.denied (hb : Balanced done h es) (failures : List HealFailure)
    (hentry : entry.fixes = .empty) :
    Balanced (done ++ [file]) { h with failures } (es ++ [entry]) := by
  have hsum (k : String) :
      ((es ++ [entry]).map (·.fixes.get k)).sum = (es.map (·.fixes.get k)).sum := by
    rw [map_append, sum_append, map_singleton, hentry]
    rfl
  refine ⟨hb.apart, hb.files.trans (sublist_append_left _ _), hb.written_iff, hb.reported,
    fun k ↦ ?_, fun k ↦ ?_⟩
  · rw [hsum k]
    exact hb.reports k
  · rw [hsum k]
    exact hb.marks k

end Healing

/-! ## The run -/

open Desk

namespace Work

variable {d : Desk} {id : String} {done : List String} {h : Healing}

/-- From `d` to `e` a run has seen to the files `done`, and what it left in the ledger balances. -/
structure Booked (id : String) (done : List String) (d : Desk) (h : Healing) (e : Desk) :
    Prop where
  exists_noted : ∃ ds es, d.Noted ds es e ∧ h.Balanced done es ∧
    ∀ entry ∈ es, entry.action = "Write" ∧ entry.run = some id

/-- Work that adds nothing to the ledger. -/
theorem Booked.trans_noted {e f : Desk} {ds : List Decision} (hb : Booked id done d h e)
    (hf : e.Noted ds [] f) : Booked id done d h f := by
  obtain ⟨ds', es, hnoted, hes⟩ := hb
  exact ⟨_, es, by simpa using hnoted.trans hf, hes⟩

theorem Booked.recorded {e f : Desk} {h' : Healing} {file : String} {entry : Ledger.Entry}
    (hb : Booked id done d h e) (hf : e.Noted [] [entry] f)
    (hbalanced : ∀ es, h.Balanced done es → h'.Balanced (done ++ [file]) (es ++ [entry]))
    (haction : entry.action = "Write") (hrun : entry.run = some id) :
    Booked id (done ++ [file]) d h' f := by
  obtain ⟨ds, es, hnoted, hes, hentries⟩ := hb
  refine ⟨ds, es ++ [entry], hnoted.recorded hf, hbalanced es hes, fun x hx ↦ ?_⟩
  rcases mem_append.1 hx with hx | hx
  · exact hentries x hx
  · rw [mem_singleton.1 hx]
    exact ⟨haction, hrun⟩

theorem writeDecision_booked (made : Option Decision) (p : Path) :
    ⦃fun e => ⌜Booked id done d h e⌝⦄ writeDecision made p
      ⦃⇓ _ e => ⌜Booked id done d h e⌝⦄ := by
  mvcgen [writeDecision]
  all_goals
    have hb := ‹Booked id done d h _›
    exact hb.trans_noted ((Noted.refl _).judged _)

theorem fixFile_booked (p : Path) (file : String) (vs : List Violation) :
    ⦃fun e => ⌜Booked id done d h e⌝⦄ fixFile p file vs
      ⦃⇓ r e => ⌜r.AnswersFor file vs ∧ Booked id done d h e⌝⦄ := by
  mvcgen [fixFile]
  case vc1 he =>
    exact ⟨Fix.file_answersFor _ _ _ _ _ _, he.trans_noted ((Noted.refl _).quiet rfl rfl rfl)⟩

/-- One more file. -/
theorem healFile_booked (made : Option Decision) {file : String} (hfile : file ∉ done) :
    ⦃fun e => ⌜Booked id done d h e⌝⦄ healFile id made h file
      ⦃⇓? h' e => ⌜Booked id (done ++ [file]) d h' e⌝⦄ := by
  have hdecision := @writeDecision_booked d id done h made
  have hfix := @fixFile_booked d id done h
  mvcgen [healFile, hdecision, hfix, record_noted]
  case vc3 he =>
    obtain ⟨hr, he⟩ := he
    exact ⟨fun f hf ↦ he.recorded hf (fun es hes ↦ hes.take hfile hr rfl) rfl rfl,
      fun _ _ _ ↦ trivial⟩
  case vc4 he =>
    exact ⟨fun f hf ↦ he.recorded hf (fun es hes ↦ hes.denied _ rfl) rfl rfl,
      fun _ _ _ ↦ trivial⟩

/-- The files are as at `d`, and nothing was recorded since. -/
structure Awaiting (d e : Desk) : Prop where
  still : d.Still e
  exists_noted : ∃ ds, d.Noted ds [] e

theorem Awaiting.judged {e : Desk} (h : Awaiting d e) (a : Action) : Awaiting d (e.judged a) := by
  obtain ⟨ds, hnoted⟩ := h.exists_noted
  exact ⟨h.still.trans (still_judged _ _), _, hnoted.judged a⟩

/-- All files. -/
theorem healFiles_booked (target : String) (made : Option Decision) {vs : List Violation}
    (hvs : Violation.Apart vs) (hopen : ∀ v ∈ vs, v.fixed = false) :
    ⦃fun e => ⌜Awaiting d e⌝⦄ healFiles id target made vs
      ⦃⇓? h e => ⌜∃ done, Booked id done d h e⌝⦄ := by
  have hnodup : (Healing.targets vs (made.map fun _ ↦ target)).Nodup := nodup_sortedDistinct _
  mvcgen [healFiles]
  invariants
  · ⇓? c e => ⌜Booked id c.fst.prefix d c.snd e⌝
  case vc1 before file after htargets h =>
    have hfile : file ∉ before := by
      rw [htargets] at hnodup
      exact fun hmem ↦ (nodup_append.1 hnodup).2.2 file hmem file mem_cons_self rfl
    exact fun e he ↦ healFile_booked made hfile e he
  case vc2 he _ =>
    obtain ⟨ds, hnoted⟩ := he.exists_noted
    exact ⟨ds, [], hnoted.quiet rfl rfl rfl, Healing.balanced_nil hvs hopen, by simp⟩
  case vc3 => exact fun h ↦ ⟨_, h⟩

theorem runTarget_awaiting (raw : String) :
    ⦃fun e => ⌜Awaiting d e⌝⦄ runTarget id raw
      ⦃⇓? p e => ⌜p.isAbsolute ∧ Awaiting d e⌝⦄ := by
  have hrecord (entry : Ledger.Entry) := triple_true (record entry)
  mvcgen [runTarget, resolve, workspace, fail, hrecord]
  case vc1 he p hp => exact ⟨Workspace.isAbsolute_of_resolve hp, he⟩

theorem clearance_awaiting (mode : RunMode) (target : String) (p : Path) :
    ⦃fun e => ⌜Awaiting d e⌝⦄ clearance mode id target p
      ⦃⇓? _ e => ⌜Awaiting d e⌝⦄ := by
  have hrecord (entry : Ledger.Entry) := triple_true (record entry)
  mvcgen [clearance, preflight, fail, hrecord]
  case vc1 he _ _ => exact he.judged _

theorem runSurvey_awaiting (target : String) (p : Path) :
    ⦃fun e => ⌜Awaiting d e⌝⦄ runSurvey id target p
      ⦃⇓? s e => ⌜Awaiting d e ∧
          Survey.of d.session.config.scanner d.session.root d.host.tree p = .ok s⌝⦄ := by
  have hrecord (entry : Ledger.Entry) := triple_true (record entry)
  mvcgen [runSurvey, survey, fail, hrecord]
  case vc1 e he s hs =>
    rw [he.still.akin.config, he.still.akin.root, he.still.tree] at hs
    exact ⟨he, hs⟩

/-- A healing run up to the index. -/
theorem stage_booked (ht : d.host.tree.Distinct) (hnames : d.host.tree.ProperNames) (raw : String) :
    ⦃fun e => ⌜e = d⌝⦄ stage .heal raw
      ⦃⇓? g e => ⌜∃ done, Booked g.id done d g.healing e⌝⦄ := by
  have htarget (id : String) := @runTarget_awaiting d id raw
  have hclear := @clearance_awaiting d
  have hsurvey := @runSurvey_awaiting d
  have hfiles := @healFiles_booked d
  have hvs {p : Path} {s : Survey} (hp : p.isAbsolute)
      (hs : Survey.of d.session.config.scanner d.session.root d.host.tree p = .ok s) :=
    Survey.apart_violations ht hnames hp hs
  have hrecord (entry : Ledger.Entry) := triple_true (record entry)
  mvcgen [stage, drawRun_spec, htarget, workspace, deny, fail, hrecord, hclear, hsurvey, treat,
    hfiles]
  case vc1 he =>
    subst he
    exact ⟨⟨rfl, rfl⟩, [], (Noted.refl _).quiet rfl rfl rfl⟩
  case vc2 he _ _ _ => exact he.2.judged _
  case vc4 hp _ _ _ _ _ _ _ _ hs _ => exact (hvs hp.1 hs.2).1
  case vc5 hp _ _ _ _ _ _ _ _ hs _ => exact (hvs hp.1 hs.2).2
  case vc6 hs _ => exact hs.1

end Work

/-! ## The report on a run -/

theorem Stage.get_fixCounts (g : Stage) (mode : RunMode) (stale : Bool) (k : String) :
    (g.report mode stale).fixCounts.get k = (g.healing.files.map (·.fixesByKind.get k)).sum := by
  have hfold (files : List FileReport) (m : Counts) :
      (files.foldl (fun m f ↦ m.merge f.fixesByKind) m).get k =
        m.get k + (files.map (·.fixesByKind.get k)).sum := by
    induction files generalizing m with
    | nil => rfl
    | cons f files ih =>
      rw [foldl_cons, ih, Counts.get_merge, map_cons, sum_cons, Nat.add_assoc]
  rw [RunReport.fixCounts, hfold]
  exact Nat.zero_add _

theorem RunReport.fixed_of_healed {r : RunReport} (h : r.status = .healed) :
    ∀ v ∈ r.violations, v.fixed := by
  rw [status] at h
  split_ifs at h with _ _ hall
  rw [Bool.and_eq_true] at hall
  exact all_eq_true.1 hall.2

/-- What a run reports and what it leaves in the ledger say the same: `ws` are its entries about
files, and `last` is the one about the run. -/
structure RunReport.Agrees (r : RunReport) (ws : List Ledger.Entry) (last : Ledger.Entry) :
    Prop where
  writes : ∀ w ∈ ws, w.action = "Write" ∧ w.run = some r.id
  scan : last.action = "Scan" ∧ last.target = r.target ∧ last.run = some r.id ∧
    last.status = some r.status.name
  fixes : ∀ k, last.fixes.get k = (ws.map (·.fixes.get k)).sum
  marks : ∀ k, (ws.map (·.fixes.get k)).sum =
    r.violations.countP fun v ↦ v.hazard.name = k ∧ v.fixed
  violations : ∀ k n, (k, n) ∈ last.violations.entries ↔
    0 < n ∧ (r.violations.countP fun v ↦ v.hazard.name = k) = n
  reported : ∀ v ∈ r.violations, v.fixed → ∃ f ∈ r.files, f.file = v.file
  written_iff : ∀ f ∈ r.files, f.written ↔ ∃ v ∈ r.violations, v.file = f.file ∧ v.fixed
  healed : r.status = .healed → ∀ v ∈ r.violations, v.fixed

theorem Stage.agrees {g : Stage} {done : List String} {es : List Ledger.Entry}
    (h : g.healing.Balanced done es)
    (hes : ∀ entry ∈ es, entry.action = "Write" ∧ entry.run = some g.id) (mode : RunMode)
    (stale : Bool) : (g.report mode stale).Agrees es (g.entry mode stale) where
  writes := hes
  scan := ⟨rfl, rfl, rfl, rfl⟩
  fixes k := (g.get_fixCounts mode stale k).trans (h.reports k)
  marks := h.marks
  violations k n := by
    rw [Stage.entry, RunReport.violationCounts, Counts.mem_tally_iff, List.count, countP_map]
    rfl
  reported := h.reported
  written_iff := h.written_iff
  healed := RunReport.fixed_of_healed

theorem Work.heal_agrees {d : Desk} (ht : d.host.tree.Distinct)
    (hnames : d.host.tree.ProperNames) (raw : String) :
    ⦃fun e => ⌜e = d⌝⦄ heal raw
      ⦃⇓? report e => ⌜∃ ds ws last, d.Noted ds (ws ++ [last]) e ∧ report.Agrees ws last⌝⦄ := by
  have hstage := stage_booked ht hnames raw
  have hindex {mid : Desk} (files : List String) (vs : List Violation) :
      ⦃fun e => ⌜e = mid⌝⦄ refreshIndex files vs
        ⦃post⟨fun _ e => ⌜mid.Noted [] [] e⌝, fun x _ => ⌜¬x.isReported⌝⟩⦄ :=
    fun e he ↦ refreshIndex_noted files vs e (he ▸ .refl e)
  rw [heal, run_eq]
  mvcgen [hstage, openAfter, hindex, close, record_noted]
  case vc2 hbooked _ _ _ hnext _ =>
    obtain ⟨done, hbooked⟩ := hbooked
    obtain ⟨ds, es, hnoted, hbalanced, hes⟩ := hbooked.trans_noted hnext
    exact ⟨fun f hf ↦ ⟨ds, es, _, hnoted.recorded hf, Stage.agrees hbalanced hes _ _⟩,
      fun _ _ _ ↦ trivial⟩

namespace Desk

/-- The accounts of a healing run balance. A run that returns has left entries about files and, last,
one about itself, and its report says the same as they do: for each kind as many violations are marked
as fixed as the entries about files tell of together, and as the last entry tells of. -/
theorem heal_balances {d e : Desk} (ht : d.host.tree.Distinct) (hnames : d.host.tree.ProperNames)
    {raw : String} {report : RunReport} (h : Work.heal raw d = .ok report e) :
    ∃ rs ws last, e.host.records = d.host.records ++ rs ∧ rs.map (·.entry) = ws ++ [last] ∧
      report.Agrees ws last := by
  obtain ⟨ds, ws, last, hnoted, hagrees⟩ := ok_of_triple (Work.heal_agrees ht hnames raw) rfl h
  obtain ⟨rs, hentries, hrecords⟩ := hnoted.records
  exact ⟨rs, ws, last, hrecords, hentries, hagrees⟩

/-- A file with a violation that can be fixed and one that cannot. -/
def mixedDesk : Desk := .sole "a.py" "except:\nAKIA0123456789ABCDEF\n" ⟨"/l"⟩ {}

theorem heal_balances_mixed :
    ∃ report e, Work.heal "." mixedDesk = .ok report e ∧
      (report.violations.map fun v ↦ (v.hazard, v.fixed)) =
        [(.bareExcept, true), (.awsAccessKey, false)] ∧
      ∃ rs ws last, e.host.records = mixedDesk.host.records ++ rs ∧
        rs.map (·.entry) = ws ++ [last] ∧ report.Agrees ws last := by
  obtain ⟨report, h⟩ :=
    Work.exists_ok_of_run' (w := Work.heal ".") (d := mixedDesk) (by decide +kernel)
  have hmarks : (((Work.heal ".").run' mixedDesk).map fun r ↦
      r.violations.map fun v ↦ (v.hazard, v.fixed)) =
        some [(.bareExcept, true), (.awsAccessKey, false)] := by
    decide +kernel
  rw [EStateM.run', EStateM.run, h] at hmarks
  exact ⟨report, _, h, Option.some.inj hmarks,
    heal_balances (by decide) (FileTree.properNames_of_entries (by decide)) h⟩

end Desk

end Steward
