import Steward.Proofs.Heal
import Steward.Proofs.Index.Findings
import Steward.Proofs.Ledger.Place
import Steward.Proofs.Survey.Places

/-!
# The index of a session

Most work leaves the index alone: `Desk.Passed` says so, and which files may have changed. A refresh
puts the findings of some violations in place of those of some files, `Work.refreshIndex_spec`; a
rebuild puts those of a survey of the root in place of all, `Work.rebuildIndex_spec`.
-/

namespace Steward

set_option mvcgen.warning false

open Location FileTree Std.Do

namespace Desk

/-! ## What the index depends on -/

/-- What work depends on, the files aside. -/
structure Basis where
  setting : Setting
  config : Config
  digest : Digest
  now : Instant
  index : Option IndexHandle
  indexStale : Bool
  stores : List Index

namespace Basis

/-- The tables of the index, if it is open. -/
def tables? (b : Basis) : Option Index := b.index.bind fun x => b.stores[x.store]?

/-- The basis with other tables in the index. -/
def modified (b : Basis) (f : Index → Index) : Basis :=
  { b with stores := b.index.elim b.stores fun x => b.stores.modify x.store f }

theorem tables?_modified (b : Basis) (f : Index → Index) :
    (b.modified f).tables? = b.tables?.map f := by
  cases hindex : b.index with
  | none => simp [tables?, modified, hindex]
  | some x => simp [tables?, modified, hindex, List.getElem?_modify]

theorem isSome_index {b : Basis} {x : Index} (h : b.tables? = some x) : b.index.isSome := by
  obtain ⟨handle, hindex, -⟩ := Option.bind_eq_some_iff.1 h
  rw [hindex]
  rfl

end Basis

def basis (d : Desk) : Basis :=
  ⟨d.setting, d.session.config, d.host.digest, d.host.now, d.session.index, d.session.indexStale,
    d.host.stores⟩

/-- The survey of the whole workspace. -/
def survey (d : Desk) : Except Error Survey :=
  Survey.of d.session.config.scanner d.session.root d.host.tree d.session.root

/-- The findings of some violations as of now. -/
def rows (d : Desk) (vs : List Violation) : List Finding :=
  Finding.ofViolations d.host.digest d.session.root (d.host.history d.session.adapter) d.host.tree
    d.host.now vs

/-- What a survey finds in the file at a place of the workspace. -/
def found (d : Desk) (r ns : Location) : Survey :=
  Survey.ofPlace d.session.config.scanner d.host.tree r ns

/-- The history tells of the commits since the day from which the index keeps them. -/
structure Answers (d : Desk) (since : Instant) (cs : List Commit) : Prop where
  horizon : d.host.now.minusDays? d.session.config.memory.historyDays = some since
  commits : (d.host.history d.session.adapter).commitsSince d.session.root since = .ok cs

instance (d : Desk) : Decidable (∃ since cs, d.Answers since cs) :=
  decidable_of_iff ((d.host.now.minusDays? d.session.config.memory.historyDays).any fun since =>
      ((d.host.history d.session.adapter).commitsSince d.session.root since).isOk) <| by
    rw [Option.any_eq_true]
    constructor
    · rintro ⟨since, hsince, hok⟩
      cases hcs : (d.host.history d.session.adapter).commitsSince d.session.root since with
      | ok cs => exact ⟨since, cs, hsince, hcs⟩
      | error x =>
        rw [hcs] at hok
        cases hok
    · rintro ⟨since, cs, hsince, hcs⟩
      exact ⟨since, hsince, by rw [hcs]; rfl⟩

/-- The session at `d` and `e` is the same but for its index, the clock and the files. -/
structure Akin (d e : Desk) : Prop where
  setting : e.setting = d.setting
  config : e.session.config = d.session.config
  digest : e.host.digest = d.host.digest

section Akin

variable {d e : Desk}

theorem akin_of_basis (h : e.basis = d.basis) : d.Akin e :=
  ⟨congrArg Basis.setting h, congrArg Basis.config h, congrArg Basis.digest h⟩

theorem Akin.trans {f : Desk} (h : d.Akin e) (h' : e.Akin f) : d.Akin f :=
  ⟨h'.setting.trans h.setting, h'.config.trans h.config, h'.digest.trans h.digest⟩

theorem Akin.root (h : d.Akin e) : e.session.root = d.session.root :=
  congrArg Setting.root h.setting

theorem Akin.logPath (h : d.Akin e) : e.session.log.path = d.session.log.path :=
  congrArg Setting.log h.setting

/-- What the history tells of commits and lines does not depend on the files. -/
theorem Akin.history (h : d.Akin e) :
    (e.host.history e.session.adapter).commitsSince =
        (d.host.history d.session.adapter).commitsSince ∧
      (e.host.history e.session.adapter).blame = (d.host.history d.session.adapter).blame := by
  rw [history_of_setting h.setting]
  cases d.session.adapter <;> exact ⟨rfl, rfl⟩

theorem Answers.of_akin {since : Instant} {cs : List Commit} (h : d.Answers since cs)
    (he : d.Akin e) (hnow : e.host.now = d.host.now) : e.Answers since cs := by
  refine ⟨?_, ?_⟩
  · rw [hnow, he.config]
    exact h.horizon
  · rw [he.history.1, he.root]
    exact h.commits

end Akin

/-! ## Work that leaves the index alone -/

/-- From `d` to `e` nothing changed that work depends on. -/
structure Still (d e : Desk) : Prop where
  basis : e.basis = d.basis
  tree : e.host.tree = d.host.tree

section Still

variable {d e : Desk}

theorem Still.trans {f : Desk} (h : d.Still e) (h' : e.Still f) : d.Still f :=
  ⟨h'.basis.trans h.basis, h'.tree.trans h.tree⟩

theorem Still.akin (h : d.Still e) : d.Akin e := akin_of_basis h.basis

theorem Still.index (h : d.Still e) : e.session.index = d.session.index :=
  congrArg Basis.index h.basis

theorem Still.indexStale (h : d.Still e) : e.session.indexStale = d.session.indexStale :=
  congrArg Basis.indexStale h.basis

theorem Still.now (h : d.Still e) : e.host.now = d.host.now := congrArg Basis.now h.basis

theorem Still.rows (h : d.Still e) (vs : List Violation) : e.rows vs = d.rows vs := by
  rw [Desk.rows, Desk.rows, h.akin.digest, h.akin.root, h.tree, h.now]
  exact Finding.ofViolations_congr fun v _ ↦ by
    rw [Finding.dateOf, Finding.dateOf, h.akin.history.2]

theorem Still.survey (h : d.Still e) : e.survey = d.survey := by
  rw [Desk.survey, Desk.survey, h.akin.config, h.akin.root, h.tree]

/-- The workspace is the same, unless its history is found among the files. -/
theorem Akin.workspace (h : d.Akin e)
    (htree : d.session.adapter = .git → e.host.tree = d.host.tree) : e.workspace = d.workspace := by
  rw [Desk.workspace, Desk.workspace, h.root, history_of_setting h.setting]
  cases hcase : d.session.adapter with
  | git => rw [htree hcase]
  | given => rfl

theorem Still.workspace (h : d.Still e) : e.workspace = d.workspace :=
  h.akin.workspace fun _ ↦ h.tree

theorem Akin.decision (h : d.Akin e) (hworkspace : e.workspace = d.workspace) (a : Action) :
    e.decision a = d.decision a := by
  rw [Desk.decision, Desk.decision, hworkspace,
    show e.session.constitution = d.session.constitution from congrArg Setting.constitution h.setting]

theorem Still.decision (h : d.Still e) (a : Action) : e.decision a = d.decision a :=
  h.akin.decision h.workspace a

theorem still_judged (d : Desk) (a : Action) : d.Still (d.judged a) := ⟨rfl, rfl⟩

/-- The desk after the identifier of a run was drawn. -/
def drawn (d : Desk) : Desk := { d with host.runsDrawn := d.host.runsDrawn + 1 }

theorem still_drawn (d : Desk) : d.Still d.drawn := ⟨rfl, rfl⟩

/-- The basis after a change of the tables. -/
theorem Still.basis_modified (h : d.Still e) {x : IndexHandle} (hx : e.session.index = some x)
    (f : Index → Index) :
    (⟨{ e.host with stores := e.host.stores.modify x.store f }, e.session⟩ : Desk).basis =
      d.basis.modified f := by
  rw [← h.basis]
  simp only [Desk.basis, Basis.modified, hx, Option.elim_some]
  rfl

end Still

/-- The index is open, and the history tells what it takes in. -/
def Ready (d : Desk) : Prop := d.session.index.isSome ∧ ∃ since cs, d.Answers since cs

theorem not_ready_of_horizon {d : Desk}
    (h : d.host.now.minusDays? d.session.config.memory.historyDays = none) : ¬d.Ready := by
  rintro ⟨-, since, cs, hanswers⟩
  cases h.symm.trans hanswers.horizon

theorem not_ready_of_commits {d : Desk} {since : Instant}
    (hsince : d.host.now.minusDays? d.session.config.memory.historyDays = some since)
    (h : ∀ cs, (d.host.history d.session.adapter).commitsSince d.session.root since ≠ .ok cs) :
    ¬d.Ready := by
  rintro ⟨-, since', cs, hanswers⟩
  obtain rfl := Option.some.inj (hsince.symm.trans hanswers.horizon)
  exact h cs hanswers.commits

/-- From `d` to `e` the index was left alone, and files changed at some places only. -/
structure Passed (S : Location → Prop) (d e : Desk) : Prop where
  basis : e.basis = d.basis
  changes : ChangesOnly S d.host.tree e.host.tree

/-- The workspace at `r` can be surveyed, and the ledger stands at a place that is not read. -/
structure Orderly (r place : Location) (d : Desk) : Prop where
  root : d.session.root = r.path
  surveyable : Survey.Surveyable d.session.config.scanner r d.host.tree
  absolute : d.session.log.path.isAbsolute
  ledger : Ledger.LeadsTo d.host.tree d.session.log.path place
  unread : ∀ ns, place = r ++ ns → Survey.reads d.session.config.scanner ns = false

/-- Work that changes files at some places keeps the workspace in order: there are no links, and
files where they are read. -/
structure Mild (r : Location) (d : Desk) (S : Location → Prop) : Prop where
  links : ∀ q, S q → ∀ target, d.host.tree.get? q ≠ some (.link target)
  files : ∀ ns, S (r ++ ns) → Survey.reads d.session.config.scanner ns →
    d.host.tree.FileAt (r ++ ns)

end Desk

theorem FileTree.ChangesOnly.real_file {S : Location → Prop} {t t' : FileTree}
    (h : ChangesOnly S t t') {l : Location} (hreal : Real t l) (hfile : t'.FileAt l) :
    Real t' l := by
  obtain ⟨e, hget, he⟩ := hfile
  cases hreal with
  | top => exact .top
  | down above hdir hname hslash _ _ =>
    refine .down (h.real_dir above hdir) (h.dirs _ hdir) hname hslash hget ?_
    rintro target rfl
    cases he

namespace Desk

section Passed

variable {S : Location → Prop} {r place : Location} {d e f : Desk}

theorem Passed.refl (S : Location → Prop) (d : Desk) : Passed S d d := ⟨rfl, .refl _ _⟩

theorem Passed.trans (h : Passed S d e) (h' : Passed S e f) : Passed S d f :=
  ⟨h'.basis.trans h.basis, h.changes.trans h'.changes⟩

theorem Passed.mono {S' : Location → Prop} (h : Passed S d e) (hS : ∀ q, S q → S' q) :
    Passed S' d e := ⟨h.basis, h.changes.mono fun q hq _ ↦ hS q hq⟩

theorem Passed.still (h : Passed S d e) (he : e.Still f) : Passed S d f := by
  refine h.trans ⟨he.basis, ?_⟩
  rw [he.tree]
  exact .refl _ _

theorem Passed.akin (h : Passed S d e) : d.Akin e := akin_of_basis h.basis

theorem Orderly.of_akin (hd : d.Orderly r place) (h : d.Akin e)
    (htree : e.host.tree = d.host.tree) : e.Orderly r place := by
  refine ⟨h.root.trans hd.root, ?_, ?_, ?_, ?_⟩
  · rw [h.config, htree]
    exact hd.surveyable
  · rw [h.logPath]
    exact hd.absolute
  · rw [h.logPath, htree]
    exact hd.ledger
  · rw [h.config]
    exact hd.unread

theorem Orderly.of_still (hd : d.Orderly r place) (h : d.Still e) : e.Orderly r place :=
  hd.of_akin h.akin h.tree

theorem Orderly.mild (hd : d.Orderly r place) : d.Mild r (· = place) where
  links := by
    rintro q rfl target hget
    simpa [Entry.isFile] using hd.ledger.isFile.2 _ hget
  files ns hns hreads := by
    rw [hd.unread ns hns.symm] at hreads
    cases hreads

theorem Orderly.of_passed (hd : d.Orderly r place) (hS : d.Mild r S) (h : Passed S d e) :
    e.Orderly r place := by
  have hakin := h.akin
  refine ⟨hakin.root.trans hd.root, ?_, ?_, ?_, ?_⟩
  · rw [hakin.config]
    refine ⟨h.changes.distinct hd.surveyable.distinct,
      h.changes.real_dir hd.surveyable.real hd.surveyable.dir, h.changes.dirs r hd.surveyable.dir,
      hd.surveyable.noZero, hd.surveyable.short, ?_⟩
    intro ns x hget hfile hreads
    have hbefore : d.host.tree.FileAt (r ++ ns) := by
      by_cases hs : S (r ++ ns)
      · exact hS.files ns hs hreads
      · exact ⟨x, h.changes.others _ hs ▸ hget, hfile⟩
    obtain ⟨y, hy, hyfile⟩ := hbefore
    obtain ⟨hreal, hzero⟩ := hd.surveyable.readable ns y hy hyfile hreads
    exact ⟨h.changes.real_file hreal ⟨x, hget, hfile⟩, hzero⟩
  · rw [hakin.logPath]
    exact hd.absolute
  · rw [hakin.logPath]
    exact hd.ledger.of_changes h.changes hS.links hd.absolute
  · rw [hakin.config]
    exact hd.unread

/-- What is found at a place is the same if the entry there is. -/
theorem Akin.found (h : d.Akin e) {ns : Location}
    (hget : e.host.tree.get? (r ++ ns) = d.host.tree.get? (r ++ ns)) :
    e.found r ns = d.found r ns := by
  rw [Desk.found, Desk.found, h.config, Survey.ofPlace_congr hget]

/-- Findings keep their dates as long as their files are the same. -/
theorem Akin.rows (h : d.Akin e) (hd : d.Orderly r place) (he : e.Orderly r place)
    {vs : List Violation} (hvs : ∀ v ∈ vs, ∃ ns, v ∈ (d.found r ns).violations ∧
      e.host.tree.get? (r ++ ns) = d.host.tree.get? (r ++ ns)) : e.rows vs = d.rows vs := by
  rw [Desk.rows, Desk.rows, h.digest, h.root]
  refine Finding.ofViolations_congr fun v hv ↦ ?_
  obtain ⟨ns, hv, hget⟩ := hvs v hv
  obtain hnone | ⟨x, bytes, hx, hfile, hbytes, hreads, hshort, -⟩ :=
    Survey.ofPlace_cases d.session.config.scanner d.host.tree r ns
  · simp [Desk.found, hnone] at hv
  obtain ⟨hreal, hzero⟩ := hd.surveyable.readable ns x hx hfile hreads
  have hreal' := (he.surveyable.readable ns x (hget.trans hx) hfile (h.config ▸ hreads)).1
  have hne : ns ≠ [] := by
    rintro rfl
    rw [List.append_nil, hd.surveyable.dir] at hx
    cases hx
    cases hfile
  have hpath : d.session.root.join v.file = (r ++ ns).path := by
    rw [hd.root, (Survey.of_mem_ofPlace hv).1, join_relative hreal.proper hne]
  have hmodified (t : FileTree) (hreal : Real t (r ++ ns)) (hx : t.get? (r ++ ns) = some x) :
      t.modified? (r ++ ns).path = x.modified? := by
    rw [modified?, (find_path_eq_ok_iff hreal.clear hreal.proper).2 ⟨hreal, hzero, hshort, hx⟩]
    rfl
  have hdated : ∃ at_, x.modified? = some at_ := by
    cases x with
    | file _ at_ | database _ at_ => exact ⟨at_, rfl⟩
    | dir | link => cases hfile
  obtain ⟨at_, hat⟩ := hdated
  rw [hpath, Finding.dateOf, Finding.dateOf, hmodified _ hreal hx,
    hmodified _ hreal' (hget.trans hx), h.history.2, hat, Option.getD_some, Option.getD_some]

/-- The survey of the whole workspace is the same after work that leaves what is read alone. -/
theorem Akin.survey (h : d.Akin e) (hd : d.Orderly r place) (he : e.Orderly r place)
    (hsame : ∀ ns, Survey.reads d.session.config.scanner ns →
      e.host.tree.get? (r ++ ns) = d.host.tree.get? (r ++ ns)) : e.survey = d.survey := by
  have hsurveyable := he.surveyable
  rw [h.config] at hsurveyable
  rw [Desk.survey, Desk.survey, h.config, h.root, hd.root]
  exact Survey.of_root_congr hd.surveyable hsurveyable hsame

/-- The survey of a workspace in order. -/
theorem Orderly.exists_survey (hd : d.Orderly r place) : ∃ s, d.survey = .ok s := by
  rw [Desk.survey, hd.root, Survey.of_root hd.surveyable]
  exact ⟨_, rfl⟩

theorem Orderly.mem_violations_iff (hd : d.Orderly r place) {s : Survey} (hs : d.survey = .ok s)
    {v : Violation} : v ∈ s.violations ↔ ∃ ns, v ∈ (d.found r ns).violations := by
  rw [Desk.survey, hd.root] at hs
  rw [Survey.mem_violations_iff hd.surveyable hd.surveyable.descended (by rwa [List.append_nil])]
  exact exists_congr fun ns ↦ and_iff_right (List.nil_prefix)

/-- The findings that a rebuild would put into the index stay as they are while nothing that is read
changes. -/
theorem Akin.rows_survey (h : d.Akin e) (hd : d.Orderly r place) (he : e.Orderly r place)
    (hsame : ∀ ns, Survey.reads d.session.config.scanner ns →
      e.host.tree.get? (r ++ ns) = d.host.tree.get? (r ++ ns))
    {s : Survey} (hs : d.survey = .ok s) : e.rows s.violations = d.rows s.violations := by
  refine h.rows hd he fun v hv ↦ ?_
  obtain ⟨ns, hv⟩ := (hd.mem_violations_iff hs).1 hv
  obtain hnone | ⟨_, _, _, _, _, hreads, _⟩ :=
    Survey.ofPlace_cases d.session.config.scanner d.host.tree r ns
  · simp [Desk.found, hnone] at hv
  · exact ⟨ns, hv, hsame ns hreads⟩

end Passed

/-! ## Refreshing and rebuilding -/

/-- The tables after a refresh. -/
def refreshed (d : Desk) (since : Instant) (cs : List Commit) (files : List String)
    (vs : List Violation) (x : Index) : Index :=
  (x.recordCommits cs since).replaceFindings files (d.rows vs)

/-- The index at `e` comes from that at `d` by a refresh, or it is stale. -/
structure Refreshed (files : List String) (vs : List Violation) (d e : Desk) : Prop where
  tree : e.host.tree = d.host.tree
  akin : d.Akin e
  index : e.session.indexStale ∧ (d.session.indexStale ∨ ¬d.Ready) ∨
    d.session.indexStale = false ∧ ∃ since cs, d.Answers since cs ∧
      e.basis = d.basis.modified (d.refreshed since cs files vs)

/-- The basis after a rebuild. -/
def Basis.rebuilt (b : Basis) (x : Index) : Basis :=
  { b.modified fun _ => x with indexStale := false }

/-- The index at `e` was filled anew at `d`. -/
structure Refilled (d e : Desk) : Prop where
  tree : e.host.tree = d.host.tree
  exists_basis : ∃ since cs s, d.Answers since cs ∧ d.survey = .ok s ∧
    e.basis = d.basis.rebuilt (Index.rebuild d.host.now cs (d.rows s.violations))

theorem Refilled.akin {d e : Desk} (h : d.Refilled e) : d.Akin e := by
  obtain ⟨_, _, _, _, _, hbasis⟩ := h.exists_basis
  exact ⟨congrArg Basis.setting hbasis, congrArg Basis.config hbasis, congrArg Basis.digest hbasis⟩

end Desk

open Desk

namespace Work

variable {r place : Location} {d : Desk}

/-- A ledger that leads somewhere can be added to. -/
theorem record_passed {e : Desk} (he : Ledger.LeadsTo e.host.tree e.session.log.path place)
    (entry : Ledger.Entry) :
    ∃ e', record entry e = .ok () e' ∧ Passed (· = place) e e' ∧
      e'.session.backedUp = e.session.backedUp := by
  obtain ⟨hne, hbefore⟩ := he.isFile
  obtain ⟨x, happend, hfile⟩ := he.append e.host.now (Utf8.encode
    (e.session.log.tail.lineFor (e.session.log.tail.next e.host.digest e.host.now entry)))
  rw [record_apply]
  simp only [Ledger.Log.append, bind, EStateM.bind, happend]
  exact ⟨_, rfl, ⟨rfl, .insert hne rfl hbefore hfile⟩, rfl⟩

theorem record_spec (entry : Ledger.Entry) (Q : PostCond Unit (.except Fault (.arg Desk .pure))) :
    ⦃fun e => ⌜e.Orderly r place ∧ ∀ e', Passed (· = place) e e' → (Q.1 () e').down⌝⦄ record entry
      ⦃Q⦄ := by
  rintro e ⟨he, hQ⟩
  obtain ⟨e', hrecord, hnext, -⟩ := record_passed he.ledger entry
  simp only [wp, EStateM.run, PredTrans.apply, hrecord]
  exact hQ e' hnext

/-! ### Questions about a desk -/

theorem drawRun_spec (Q : PostCond String (.except Fault (.arg Host .pure))) :
    ⦃fun h => Q.1 (Host.runId (h.runsDrawn + 1)) { h with runsDrawn := h.runsDrawn + 1 }⦄
      Job.drawRun ⦃Q⦄ := by
  mvcgen [Job.drawRun]

theorem horizon_spec :
    ⦃fun e => ⌜d.Still e⌝⦄ horizon
      ⦃post⟨fun since e => ⌜d.Still e ∧
          d.host.now.minusDays? d.session.config.memory.historyDays = some since⌝,
        fun _ e => ⌜d.Still e ∧
          d.host.now.minusDays? d.session.config.memory.historyDays = none⌝⟩⦄ := by
  mvcgen [horizon, Job.daysAgo]
  case vc1 e he since hsince => exact ⟨he, by rw [← he.now, ← he.akin.config, hsince]⟩
  case vc2 e he hnone => exact ⟨he, by rw [← he.now, ← he.akin.config, hnone]⟩

theorem commitsSince_spec (since : Instant) :
    ⦃fun e => ⌜d.Still e⌝⦄ commitsSince since
      ⦃post⟨fun cs e => ⌜d.Still e ∧
          (d.host.history d.session.adapter).commitsSince d.session.root since = .ok cs⌝,
        fun _ e => ⌜d.Still e ∧ ∀ cs,
          (d.host.history d.session.adapter).commitsSince d.session.root since ≠ .ok cs⌝⟩⦄ := by
  mvcgen [commitsSince, askHistory, fail]
  case vc1 e he _ cs hcs =>
    refine ⟨he.trans ⟨rfl, rfl⟩, ?_⟩
    rw [← he.akin.history.1, ← he.akin.root]
    exact hcs
  case vc2 e he _ reason hreason =>
    refine ⟨he.trans ⟨rfl, rfl⟩, fun cs hcs ↦ ?_⟩
    rw [← he.akin.history.1, ← he.akin.root] at hcs
    cases hreason.symm.trans hcs

theorem findings_spec (vs : List Violation) :
    ⦃fun e => ⌜d.Still e⌝⦄ findings vs
      ⦃⇓ rows e => ⌜d.Still e ∧ rows = d.rows vs⌝⦄ := by
  mvcgen [findings]
  case vc1 e he _ => exact ⟨he.trans ⟨rfl, rfl⟩, he.rows vs⟩

/-! ### Changes of the index -/

theorem updateIndex_spec (files : List String) (vs : List Violation) :
    ⦃fun e => ⌜d.Still e⌝⦄ updateIndex files vs
      ⦃post⟨fun _ e => ⌜e.host.tree = d.host.tree ∧ ∃ since cs, d.Answers since cs ∧
          e.basis = d.basis.modified (d.refreshed since cs files vs)⌝,
        fun _ e => ⌜d.Still e ∧ ¬d.Ready⌝⟩⦄ := by
  have hhorizon := horizon_spec (d := d)
  have hcommits := commitsSince_spec (d := d)
  have hfindings := findings_spec (d := d)
  mvcgen [updateIndex, hhorizon, hcommits, hfindings, fail, IndexHandle.modify]
  case vc2 he => exact he.1
  case vc3 he => exact he.1
  case vc4 e he hnone =>
    refine ⟨he.1, ?_⟩
    rintro ⟨hopen, -⟩
    rw [← he.1.index, hnone] at hopen
    cases hopen
  case vc5 since _ hsince cs _ hcs rows e he x hx _ =>
    obtain ⟨he, rfl⟩ := he
    exact ⟨he.tree, since, cs, ⟨hsince.2, hcs.2⟩, he.basis_modified hx _⟩
  case vc6 hsince _ _ => exact fun he hnone ↦ ⟨he, not_ready_of_commits hsince.2 hnone⟩
  case vc7 => exact fun he hnone ↦ ⟨he, not_ready_of_horizon hnone⟩

theorem markStale_spec :
    ⦃fun e => ⌜d.Still e⌝⦄ markStale
      ⦃⇓ _ e => ⌜e.host.tree = d.host.tree ∧ d.Akin e ∧ e.session.indexStale⌝⦄ := by
  mvcgen [markStale, IndexHandle.modify]
  case vc1 he _ _ => exact ⟨he.tree, he.akin.trans ⟨rfl, rfl, rfl⟩, rfl⟩
  case vc2 he _ _ _ _ => exact ⟨he.tree, he.akin.trans ⟨rfl, rfl, rfl⟩, rfl⟩

theorem refreshIndex_spec (files : List String) (vs : List Violation) :
    ⦃fun e => ⌜d.Still e⌝⦄ refreshIndex files vs
      ⦃post⟨fun _ e => ⌜d.Refreshed files vs e⌝, fun _ _ => ⌜¬d.Ready⌝⟩⦄ := by
  have hupdate := updateIndex_spec (d := d) files vs
  have hstale := markStale_spec (d := d)
  mvcgen [refreshIndex, hupdate, hstale]
  case vc1 e he hstale => exact ⟨he.tree, he.akin, .inl ⟨hstale, .inl (he.indexStale ▸ hstale)⟩⟩
  case vc3 e he hfresh _ e' he' =>
    obtain ⟨htree, since, cs, hanswers, hbasis⟩ := he'
    refine ⟨htree, ⟨congrArg Basis.setting hbasis, congrArg Basis.config hbasis,
      congrArg Basis.digest hbasis⟩, .inr ⟨?_, since, cs, hanswers, hbasis⟩⟩
    rw [← he.indexStale]
    exact Bool.eq_false_iff.2 hfresh
  case vc5 he => exact he.1
  case vc6 he _ _ => exact fun htree hakin hstale ↦ ⟨htree, hakin, .inl ⟨hstale, .inr he.2⟩⟩
  case vc7 he => exact he.2

theorem refillIndex_spec (hd : d.Orderly r place) (hindex : d.session.index.isSome) :
    ⦃fun e => ⌜d.Still e⌝⦄ refillIndex
      ⦃post⟨fun _ e => ⌜d.Refilled e⌝, fun _ e => ⌜d.Still e ∧ ¬d.Ready⌝⟩⦄ := by
  have hhorizon := horizon_spec (d := d)
  have hcommits := commitsSince_spec (d := d)
  have hfindings := findings_spec (d := d)
  mvcgen [refillIndex, hhorizon, hcommits, hfindings, survey, Job.ofExcept, Job.fail, openedIndex,
    IndexHandle.modify]
  case vc2 he _ _ => exact he.1
  case vc3 he => exact he.1
  case vc4 since e hsince s hs cs _ hcs rows e' he' x hx _ _ _ =>
    obtain ⟨he', rfl⟩ := he'
    refine ⟨he'.tree, since, cs, s, ⟨hsince.2, hcs.2⟩, hsince.1.survey.symm.trans hs, ?_⟩
    rw [← he'.now]
    exact congrArg (fun b : Basis ↦ { b with indexStale := false }) (he'.basis_modified hx _)
  case vc5 he hnone =>
    rw [← he.1.index, hnone] at hindex
    cases hindex
  case vc6 hsince _ _ _ _ => exact fun he hnone ↦ ⟨he, not_ready_of_commits hsince.2 hnone⟩
  case vc7 e he x hx =>
    obtain ⟨s, hs⟩ := hd.exists_survey
    cases (he.1.survey.trans hs).symm.trans hx
  case vc8 => exact fun he hnone ↦ ⟨he, not_ready_of_horizon hnone⟩

theorem rebuildIndex_spec (hd : d.Orderly r place) (hindex : d.session.index.isSome) :
    ⦃fun e => ⌜d.Still e⌝⦄ rebuildIndex
      ⦃post⟨fun _ e => ⌜(d.decision ⟨.scan, d.session.root⟩).allowed ∧
          ∃ mid, d.Refilled mid ∧ Passed (· = place) mid e⌝,
        fun _ _ => ⌜¬((d.decision ⟨.scan, d.session.root⟩).allowed ∧ d.Ready)⌝⟩⦄ := by
  have hrefill := refillIndex_spec hd hindex
  have hrecord := @record_spec r place
  have hstale := markStale_spec (d := d)
  have hdrawn {e : Desk} (he : d.Still e) : d.Still e.drawn := he.trans e.still_drawn
  have hdecision {e : Desk} (he : d.Still e) :
      e.drawn.decision ⟨.scan, e.drawn.session.root⟩ = d.decision ⟨.scan, d.session.root⟩ := by
    rw [(hdrawn he).decision, (hdrawn he).akin.root]
  mvcgen [rebuildIndex, drawRun_spec, hrefill, fail, deny, hrecord, hstale]
  case vc1 he _ _ _ => exact (hdrawn he).trans (still_judged _ _)
  case vc2 he _ hallowed _ _ mid hmid =>
    refine ⟨hd.of_akin hmid.akin hmid.tree, fun e' he' ↦ ⟨?_, mid, hmid, he'⟩⟩
    rw [← hdecision he]
    exact hallowed
  case vc4 he => exact he.1
  case vc5 hnone _ _ he => exact ⟨hd.of_akin he.2.1 he.1, fun _ _ h ↦ hnone.2 h.2⟩
  case vc6 he => exact fun h ↦ he.2 h.2
  case vc7 he _ hdenied =>
    refine ⟨hd.of_still ((hdrawn he).trans (still_judged _ _)), fun _ _ h ↦ hdenied ?_⟩
    rw [← hdecision he] at h
    exact h.1

end Work

end Steward
