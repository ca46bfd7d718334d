import Steward.Proofs.Constitution
import Steward.Proofs.Containment
import Steward.Proofs.Fix.Frame
import Steward.Proofs.Survey
import Steward.Session.Run

/-!
# Healing changes permitted files only

A run may touch the ledger and, around every file that the rules allowed to be written in this very
run, the places that fixing it needs. `Call` says so of the states that a run goes through: each
part of a run is shown to keep it, whether it ends with an answer or an error.
-/

namespace Steward

open List hiding get

set_option mvcgen.warning false

open Location FileTree Std.Do

namespace Desk

variable {d e : Desk}

/-- What work in a session leaves as it is. -/
structure Setting where
  root : Path
  adapter : Adapter
  constitution : Constitution
  log : Path
  git : History.Git.Runner
  given : History

def setting (d : Desk) : Setting :=
  ⟨d.session.root, d.session.adapter, d.session.constitution, d.session.log.path, d.host.git,
    d.host.given⟩

/-- From `d` to `e` the setting stayed, and decisions came only to those made before. -/
structure Continues (d e : Desk) : Prop where
  setting : e.setting = d.setting
  decisions : d.host.decisions <+: e.host.decisions

theorem Continues.refl (d : Desk) : d.Continues d := ⟨rfl, prefix_refl _⟩

theorem Continues.trans {f : Desk} (h : d.Continues e) (h' : e.Continues f) : d.Continues f :=
  ⟨h'.setting.trans h.setting, h.decisions.trans h'.decisions⟩

def workspace (d : Desk) : Workspace := ⟨d.session.root, d.host.history d.session.adapter⟩

/-- What the rules say about an action now. -/
def decision (d : Desk) (a : Action) : Decision := d.session.constitution.judge a d.workspace

/-- The desk after the rules were asked about an action. -/
def judged (d : Desk) (a : Action) : Desk :=
  { d with
    host := (d.host.asked d.session.adapter (d.session.constitution.asks a)).decided
      (d.decision a) }

theorem continues_judged (d : Desk) (a : Action) : d.Continues (d.judged a) :=
  ⟨rfl, prefix_append _ _⟩

/-- From `d` to `e` the rules were asked about writing to a path, and each of them allowed it. -/
def Permitted (d e : Desk) (p : Path) : Prop :=
  ∃ w : Workspace, w.root = d.session.root ∧
    w.history.isTracked = (d.host.history d.session.adapter).isTracked ∧
    d.session.constitution.judge ⟨.write, p⟩ w ∈ e.host.decisions.drop d.host.decisions.length ∧
    ∀ rule ∈ d.session.constitution.rules, rule.predicate ⟨.write, p⟩ w = .allow

theorem Permitted.mono {f : Desk} {p : Path} (h : d.Permitted e p) (hef : e.Continues f) :
    d.Permitted f p := by
  obtain ⟨w, hroot, htracked, hmem, hallow⟩ := h
  exact ⟨w, hroot, htracked, (hef.decisions.drop _).subset hmem, hallow⟩

/-- In the same setting the history depends on the files alone. -/
theorem history_of_setting (h : e.setting = d.setting) :
    e.host.history e.session.adapter =
      { d.host with tree := e.host.tree }.history d.session.adapter := by
  have hadapter : e.session.adapter = d.session.adapter := congrArg Setting.adapter h
  have hgit : e.host.git = d.host.git := congrArg Setting.git h
  have hgiven : e.host.given = d.host.given := congrArg Setting.given h
  rw [hadapter]
  cases d.session.adapter with
  | git => rw [Host.history, Host.history, hgit]
  | given => rw [Host.history, Host.history, hgiven]

/-- Whether a path is tracked does not depend on the files. -/
theorem Continues.isTracked (h : d.Continues e) :
    e.workspace.history.isTracked = (d.host.history d.session.adapter).isTracked := by
  rw [workspace, history_of_setting h.setting]
  cases d.session.adapter <;> rfl

theorem Continues.permitted (h : d.Continues e) {p : Path}
    (hallowed : (e.decision ⟨.write, p⟩).allowed) : d.Permitted (e.judged ⟨.write, p⟩) p := by
  have hconstitution : e.session.constitution = d.session.constitution :=
    congrArg Setting.constitution h.setting
  refine ⟨e.workspace, congrArg Setting.root h.setting, h.isTracked, ?_, ?_⟩
  · have hnew : (e.judged ⟨.write, p⟩).host.decisions =
        e.host.decisions ++ [e.decision ⟨.write, p⟩] := rfl
    rw [hnew, drop_append_of_le_length h.decisions.length_le, ← hconstitution]
    exact mem_append_right _ mem_cons_self
  · rw [← hconstitution]
    exact Constitution.allowed_judge_iff.1 hallowed

/-- From `e` to `f` at most the index changed. -/
structure Quiet (e f : Desk) : Prop where
  setting : f.setting = e.setting
  config : f.session.config = e.session.config
  digest : f.host.digest = e.host.digest
  decisions : f.host.decisions = e.host.decisions
  tree : f.host.tree = e.host.tree

/-- The session works in a workspace without links: its root is the path of a place, no link is on
the way to its ledger either, and its rules are the standard ones and maybe more. -/
structure Bound (d : Desk) (r : Location) : Prop where
  noLinks : d.host.tree.NoLinks r
  properNames : d.host.tree.ProperNames
  root : d.session.root = r.path
  proper : r.Proper
  log_absolute : d.session.log.path.isAbsolute
  log_clear : d.host.tree.ClearFrom [] (steps d.session.log.path.text)
  rules : Constitution.standard.rules ⊆ d.session.constitution.rules

/-- What it takes that a place in the workspace was permitted. -/
theorem Bound.of_permitted {r : Location} (hd : d.Bound r) {ns : Location} (h : Proper (r ++ ns))
    (hp : d.Permitted e (r ++ ns).path) :
    (d.host.history d.session.adapter).isTracked (r ++ ns).path = .ok true ∧ ns ≠ [] ∧
      (ns.head? = some Workspace.reservedName ∨
        ∀ n ∈ ns, ∀ m ∈ Rule.credentialMarks, ¬m.toList <:+: n.toList.map Rule.foldLetter) := by
  obtain ⟨w, hroot, htracked, -, hallow⟩ := hp
  rw [← htracked]
  exact (Rule.standard_allows_write_iff h (hroot.trans hd.root)).1 fun rule hrule ↦
    hallow rule (hd.rules hrule)

end Desk

open Desk

/-! ## The states of a call -/

/-- The places that a call may have changed: the ledger, and those around permitted files. -/
def Touchable (r : Location) (d e : Desk) (q : Location) : Prop :=
  q = d.host.tree.place d.session.log.path ∨
    ∃ (l : Location) (n : String), r <+: l ∧ Proper (l ++ [n]) ∧ d.Permitted e (l ++ [n]).path ∧
      Fix.Around d.host.tree l n q

/-- A call that started at `d` has come to `e`. -/
structure Call (r : Location) (d e : Desk) : Prop where
  continues : d.Continues e
  changes : ChangesOnly (Touchable r d e) d.host.tree e.host.tree
  keeps : Keeps d.host.tree e.host.tree

section Call

variable {r : Location} {d e e' : Desk}

theorem Touchable.mono {q : Location} (h : Touchable r d e q) (he : e.Continues e') :
    Touchable r d e' q := by
  rcases h with h | ⟨l, n, hl, hproper, hp, haround⟩
  · exact .inl h
  · exact .inr ⟨l, n, hl, hproper, hp.mono he, haround⟩

theorem Touchable.proper (hd : d.Bound r) {q : Location} (h : Touchable r d e q) : q.Proper := by
  rcases h with rfl | ⟨l, n, -, h, -, rfl | ⟨rfl, -⟩ | rfl | rfl⟩
  · exact proper_place _ hd.log_absolute
  · exact h
  · exact h.append_suffix (by decide) (by decide)
  · exact h.append_suffix (by decide) (by decide)
  · exact (h.append_suffix (by decide) (by decide)).append_suffix (by decide) (by decide)

theorem Call.refl (r : Location) (d : Desk) : Call r d d :=
  ⟨.refl d, .refl _ _, fun _ ↦ .inl⟩

/-- A step that changes places which may be touched goes on with the call. -/
theorem Call.step {S : Location → Prop} (h : Call r d e) (he : e.Continues e')
    (hchanges : ChangesOnly S e.host.tree e'.host.tree) (hkeeps : Keeps e.host.tree e'.host.tree)
    (hS : ∀ q, S q → Touchable r d e' q) : Call r d e' where
  continues := h.continues.trans he
  changes := (h.changes.mono fun _ hq _ ↦ hq.mono he).trans (hchanges.mono fun q hq _ ↦ hS q hq)
  keeps := h.keeps.trans hkeeps

/-- A step that leaves the files alone goes on with the call. -/
theorem Call.quiet (h : Call r d e) (he : e.Continues e') (htree : e'.host.tree = e.host.tree) :
    Call r d e' := by
  refine h.step (S := fun _ ↦ False) he ?_ ?_ fun _ ↦ False.elim
  · rw [htree]
    exact .refl _ _
  · rw [htree]
    exact fun _ ↦ .inl

theorem Call.noLinks (h : Call r d e) (hd : d.Bound r) : e.host.tree.NoLinks r :=
  h.changes.noLinks hd.noLinks

theorem Call.properNames (h : Call r d e) (hd : d.Bound r) : e.host.tree.ProperNames :=
  h.changes.properNames hd.properNames fun _ hq ↦ hq.proper hd

theorem Call.root (h : Call r d e) (hd : d.Bound r) : e.session.root = r.path :=
  (congrArg Setting.root h.continues.setting).trans hd.root

/-- Fixing a permitted file goes on with the call. -/
theorem Call.fixed (h : Call r d e) {l : Location} {n : String} (hl : r <+: l)
    (hproper : Proper (l ++ [n])) (hp : d.Permitted e (l ++ [n]).path) (he : e.Continues e')
    {written : Bool} (hfixed : Fix.Fixed l n written e.host.tree e'.host.tree) : Call r d e' := by
  refine h.step he hfixed.changes hfixed.keeps fun q hq ↦
    .inr ⟨l, n, hl, hproper, hp.mono he, ?_⟩
  rcases hq with hq | ⟨rfl, hfree⟩ | hq
  · exact .inl hq
  · -- A copy that is missing now was missing at the start: only files under way go away.
    refine .inr (.inl ⟨rfl, Option.not_isSome_iff_eq_none.1 fun hsome ↦ ?_⟩)
    rcases h.keeps _ hsome with hthere | htemp
    · simp [hfree] at hthere
    · exact not_isTemp_backup l n htemp
  · exact .inr (.inr hq)

end Call

/-! ## Parts of a run -/

/-- Adding an entry to a ledger puts a file in its place, or does nothing. -/
theorem Ledger.Log.append_cases {t : FileTree} {log : Log}
    (ht : t.ClearFrom (t.startOf log.path) (FileTree.steps log.path.text)) (digest : Digest)
    (now : Instant) (entry : Entry) :
    (∃ x, log.append digest now entry t = .error x t) ∨
      ∃ x log' e, log.append digest now entry t = .ok (x, log') (t.insert (t.place log.path) e) ∧
        log'.path = log.path ∧ e.isFile ∧ t.place log.path ≠ [] ∧
        ∀ e' ∈ t.get? (t.place log.path), e'.isFile := by
  have hfile (bytes : List UInt8) (e : Steward.Entry) (he : e.isFile) :
      (e.appended now bytes).isFile := by
    cases e with
    | file | database => rfl
    | dir | link => exact he
  simp only [append, Disk.append, bind, EStateM.bind]
  obtain ⟨x, hx⟩ | ⟨e, hx, he, hbefore⟩ := Disk.update_cases ht now (·.appended now (Utf8.encode
    (log.tail.lineFor (log.tail.next digest now entry))))
  · rw [hx]
    exact .inl ⟨x, rfl⟩
  · rw [hx]
    exact .inr ⟨_, _, _, rfl, rfl, hfile _ e he, hbefore⟩

namespace Work

variable {r : Location} {d : Desk}
variable {P : Desk → Prop} {p : Path} {e : Desk} {ns : Location}

@[spec]
theorem judge_spec (a : Action) (Q : PostCond Decision (.except Fault (.arg Desk .pure))) :
    ⦃fun e => Q.1 (e.decision a) (e.judged a)⦄ judge a ⦃Q⦄ := by
  mvcgen [judge, workspace]

theorem record_apply (entry : Ledger.Entry) (e : Desk) :
    record entry e =
      match e.session.log.append e.host.digest e.host.now entry e.host.tree with
      | .ok (x, log) tree =>
        .ok () { host := { e.host with tree }.recorded x, session := { e.session with log } }
      | .error x tree => .error (.error (.ofAudit x)) { e with host := { e.host with tree } } := by
  simp only [record, job, Job.disk, bind, EStateM.bind, get, getThe, MonadStateOf.get, EStateM.get]
  cases e.session.log.append e.host.digest e.host.now entry e.host.tree <;> rfl

/-- A record goes on with the call, and keeps what any further work would. -/
theorem record_frame (hd : d.Bound r) {F : Desk → Prop}
    (hF : ∀ e e', F e → e.Continues e' → F e') (entry : Ledger.Entry) :
    PreservesElse (fun e => Call r d e ∧ F e) (fun _ => Call r d) (record entry) := by
  refine triple_iff.2 fun e ⟨he, hf⟩ ↦ ?_
  have hpath : e.session.log.path = d.session.log.path := congrArg Setting.log he.continues.setting
  have hlog : e.host.tree.place e.session.log.path = d.host.tree.place d.session.log.path := by
    rw [he.changes.place, hpath]
  have hclear : e.host.tree.ClearFrom (e.host.tree.startOf e.session.log.path)
      (steps e.session.log.path.text) := by
    rw [hpath, startOf, if_pos hd.log_absolute]
    exact he.changes.clearFrom hd.log_clear
  rw [record_apply]
  obtain ⟨x, hx⟩ | ⟨x, log, file, hx, hpath', hfile, hne, hbefore⟩ :=
    Ledger.Log.append_cases hclear e.host.digest e.host.now entry
  · rw [hx]
    exact he
  · rw [hx]
    have hnext (tree : FileTree) : e.Continues
        ⟨{ e.host with tree }.recorded x, { e.session with log := log }⟩ :=
      ⟨by simp [setting, hpath', Host.recorded], prefix_refl _⟩
    refine ⟨he.step (S := (· = e.host.tree.place e.session.log.path)) (hnext _)
      (.insert hne rfl hbefore hfile) (keeps_insert hne file) ?_, hF _ _ hf (hnext _)⟩
    rintro q rfl
    exact .inl hlog

theorem record_call (hd : d.Bound r) (entry : Ledger.Entry) :
    Preserves (Call r d) (record entry) := by
  simpa using record_frame hd (F := fun _ ↦ True) (by simp) entry

theorem updateIndex_quiet (hP : ∀ e f, P e → e.Quiet f → P f) (files : List String)
    (vs : List Violation) : Preserves P (updateIndex files vs) := by
  mvcgen [updateIndex, horizon, Job.daysAgo, commitsSince, askHistory, findings, fail,
    IndexHandle.modify]
  all_goals
    have h := ‹P _›
    exact hP _ _ h ⟨rfl, rfl, rfl, rfl, rfl⟩

theorem markStale_quiet (hP : ∀ e f, P e → e.Quiet f → P f) : Preserves P markStale := by
  mvcgen [markStale, IndexHandle.modify]
  all_goals
    have h := ‹P _›
    exact hP _ _ h ⟨rfl, rfl, rfl, rfl, rfl⟩

/-- The index is kept apart from the files. -/
theorem refreshIndex_quiet (hP : ∀ e f, P e → e.Quiet f → P f) (files : List String)
    (vs : List Violation) : Preserves P (refreshIndex files vs) := by
  have hupdate := updateIndex_quiet hP files vs
  have hstale := markStale_quiet hP
  mvcgen [refreshIndex, hupdate, hstale]

/-! ### Targets -/

/-- The path of a place at or below another. -/
def Within (r : Location) (p : Path) : Prop := ∃ ns, Proper (r ++ ns) ∧ p = (r ++ ns).path

/-- The name of a place at or below another as seen from there. -/
def Seen (r : Location) (file : String) : Prop := ∃ ns, Proper (r ++ ns) ∧ file = relative ns

theorem Within.seen (h : Within r p) : Seen r (p.relativeTo r.path) := by
  obtain ⟨ns, hns, rfl⟩ := h
  exact ⟨ns, hns, relativeTo_path hns⟩

theorem resolve_within (hd : d.Bound r) (he : Call r d e) {raw : String}
    (h : e.workspace.resolve e.host.tree raw = .ok p) : Within r p := by
  obtain ⟨ns, hp, hns⟩ := Workspace.exists_of_resolve (he.root hd)
    ((he.noLinks hd).clear (prefix_refl _)) hd.proper h
  exact ⟨ns, hns, hp⟩

theorem runTarget_call (hd : d.Bound r) (id raw : String) :
    ⦃fun e => ⌜Call r d e⌝⦄ runTarget id raw
      ⦃post⟨fun p e => ⌜Call r d e ∧ Within r p⌝, fun _ e => ⌜Call r d e⌝⟩⦄ := by
  have hrecord := record_call hd
  mvcgen [runTarget, resolve, workspace, fail, hrecord]
  case vc1 e he p hp => exact ⟨he, resolve_within hd he hp⟩

/-- The rules allowed the file of a decision that was made before to be written. -/
def Made (d e : Desk) (made : Option Decision) : Prop :=
  ∀ x ∈ made, ∃ k : Location, k.Proper ∧ x.action.target = k.path ∧ d.Permitted e k.path

theorem Made.mono {e' : Desk} {made : Option Decision} (h : Made d e made) (he : e.Continues e') :
    Made d e' made := by
  intro x hx
  obtain ⟨k, hk, htarget, hp⟩ := h x hx
  exact ⟨k, hk, htarget, hp.mono he⟩

theorem preflight_call (hd : d.Bound r) (id target : String) {p : Path} (hp : Within r p) :
    ⦃fun e => ⌜Call r d e⌝⦄ preflight id target p
      ⦃post⟨fun made e => ⌜Call r d e ∧ Made d e made⌝, fun _ e => ⌜Call r d e⌝⟩⦄ := by
  have hrecord := record_call hd
  mvcgen [preflight, fail, hrecord]
  case vc1 e he _ hallowed =>
    refine ⟨he.quiet (e.continues_judged _) rfl, ?_⟩
    obtain ⟨ns, hns, rfl⟩ := hp
    rintro x ⟨⟩
    exact ⟨r ++ ns, hns, rfl, he.continues.permitted hallowed⟩
  case vc2 e he _ _ => exact he.quiet (e.continues_judged _) rfl
  case vc4 e he _ => exact ⟨he, by simp [Made]⟩

theorem runSurvey_call (hd : d.Bound r) (id target : String) {p : Path} (hp : Within r p)
    (made : Option Decision) :
    ⦃fun e => ⌜Call r d e ∧ Made d e made⌝⦄ runSurvey id target p
      ⦃post⟨fun s e => ⌜Call r d e ∧ Made d e made ∧ ∀ v ∈ s.violations, Seen r v.file⌝,
        fun _ e => ⌜Call r d e⌝⟩⦄ := by
  have hrecord := record_call hd
  mvcgen [runSurvey, survey, fail, hrecord]
  case vc1 e he s hs =>
    refine ⟨he.1, he.2, fun v hv ↦ ?_⟩
    obtain ⟨ms, hms, rfl⟩ := hp
    rw [he.1.root hd] at hs
    obtain ⟨ns, -, hns, hfile⟩ := Survey.file_of_mem_violations (he.1.properNames hd) hms hs hv
    exact ⟨ns, hns, hfile⟩
  case vc2 e he _ _ => exact he.1

/-- A file that is named from the root and allowed to be written is not the root. -/
theorem permitted_of_allowed (hd : d.Bound r) (he : Call r d e) (h : Proper (r ++ ns))
    (hallowed : (e.decision ⟨.write, r.path.join (relative ns)⟩).allowed) :
    ns ≠ [] ∧ d.Permitted (e.judged ⟨.write, r.path.join (relative ns)⟩) (r ++ ns).path := by
  have hp := he.continues.permitted hallowed
  have hne : ns ≠ [] := by
    rintro rfl
    obtain ⟨w, hroot, -, -, hallow⟩ := hp
    have hsame := Rule.rootImmutable_allows_write_iff.1
      (hallow _ (hd.rules (by simp [Constitution.standard])))
    rw [hroot.trans hd.root] at hsame
    have hdot := same_join_relative h
    rw [append_nil, hsame] at hdot
    cases hdot
  rw [join_relative h hne] at hp ⊢
  exact ⟨hne, hp⟩

theorem writeDecision_call (hd : d.Bound r) (h : Proper (r ++ ns)) (made : Option Decision)
    (hp : p = r.path.join (relative ns)) :
    ⦃fun e => ⌜Call r d e ∧ Made d e made⌝⦄ writeDecision made p
      ⦃post⟨fun x e => ⌜Call r d e ∧ Made d e made ∧
          (x.allowed → ns ≠ [] ∧ d.Permitted e (r ++ ns).path)⌝,
        fun _ e => ⌜Call r d e⌝⟩⦄ := by
  subst hp
  mvcgen [writeDecision]
  case vc1 x _ hsame e he =>
    refine ⟨he.1, he.2, fun _ ↦ ?_⟩
    -- The decision made before was about the same place.
    obtain ⟨k, hk, htarget, hp⟩ := he.2 x rfl
    have hcomponents : k.path.components = (r ++ ns).path.components := by
      rw [← htarget]
      exact (of_decide_eq_true hsame).trans (of_decide_eq_true (same_join_relative h))
    obtain rfl := eq_of_components_path_eq hk h hcomponents
    exact ⟨(hd.of_permitted h hp).2.1, hp⟩
  case vc2 x _ _ e he =>
    have hnext := e.continues_judged ⟨.write, r.path.join (relative ns)⟩
    exact ⟨he.1.quiet hnext rfl, he.2.mono hnext, permitted_of_allowed hd he.1 h⟩
  case vc3 _ e he =>
    have hnext := e.continues_judged ⟨.write, r.path.join (relative ns)⟩
    exact ⟨he.1.quiet hnext rfl, he.2.mono hnext, permitted_of_allowed hd he.1 h⟩

/-! ### Healing -/

theorem fixFile_call (hd : d.Bound r) (h : Proper (r ++ ns)) (made : Option Decision)
    (file : String) (vs : List Violation) (hp : p = r.path.join (relative ns)) :
    ⦃fun e => ⌜Call r d e ∧ Made d e made ∧ ns ≠ [] ∧ d.Permitted e (r ++ ns).path⌝⦄
      fixFile p file vs
      ⦃post⟨fun _ e => ⌜Call r d e ∧ Made d e made⌝, fun _ e => ⌜Call r d e⌝⟩⦄ := by
  mvcgen [fixFile]
  case vc1 e he =>
    obtain ⟨he, hmade, hne, hpermitted⟩ := he
    rw [join_relative h hne] at hp
    subst hp
    obtain ⟨ms, n, rfl⟩ := (eq_nil_or_concat' ns).resolve_left hne
    rw [← append_assoc] at h hpermitted ⊢
    refine ⟨he.fixed (prefix_append r ms) h hpermitted ⟨rfl, prefix_refl _⟩
      (Fix.file_fixed (b := ⟨e.host.tree, e.session.backedUp, []⟩) ?_ h _ _ _ _),
      hmade.mono ⟨rfl, prefix_refl _⟩⟩
    exact Fix.unlinked_of_noLinks ((he.noLinks hd).mono (prefix_append r ms))

theorem healFile_call (hd : d.Bound r) (id : String) (made : Option Decision) (h : Healing)
    (hns : Proper (r ++ ns)) :
    PreservesElse (fun e => Call r d e ∧ Made d e made) (fun _ => Call r d)
      (healFile id made h (relative ns)) := by
  have hrecord := record_frame hd (F := (Made d · made)) fun _ _ hmade ↦ hmade.mono
  have hdecision {p : Path} (hp : p = r.path.join (relative ns)) :=
    writeDecision_call hd hns made hp
  have hfix {p : Path} (hp : p = r.path.join (relative ns)) (file : String) (vs : List Violation) :=
    fixFile_call hd hns made file vs hp
  mvcgen [healFile, hdecision, hfix, hrecord]
  case vc1 e he _ => exact congrArg (Path.join · (relative ns)) (he.1.root hd)
  case vc3 e he _ _ _ _ _ => exact congrArg (Path.join · (relative ns)) (he.1.root hd)
  case vc4 hallowed _ he => exact ⟨he.1, he.2.1, he.2.2 hallowed⟩
  case vc6 he => exact ⟨he.1, he.2.1⟩

theorem mem_of_mem_foldr_distinct (ys : List String) :
    ∀ y ∈ ys.foldr (fun x rest => if rest.head? = some x then rest else x :: rest) [], y ∈ ys := by
  induction ys with
  | nil => simp
  | cons y ys ih =>
    intro z hz
    rw [foldr_cons] at hz
    split_ifs at hz
    · exact mem_cons_of_mem _ (ih z hz)
    · exact (mem_cons.1 hz).elim (fun hzy ↦ hzy ▸ mem_cons_self) fun hz ↦
        mem_cons_of_mem _ (ih z hz)

theorem mem_sortedDistinct {x : String} {xs : List String} (h : x ∈ History.sortedDistinct xs) :
    x ∈ xs := mem_mergeSort.1 (mem_of_mem_foldr_distinct _ x h)

theorem pairwise_foldr_distinct {ys : List String} (hys : ys.Pairwise (· ≤ ·)) :
    (ys.foldr (fun x rest => if rest.head? = some x then rest else x :: rest) []).Pairwise
      (· < ·) := by
  induction ys with
  | nil => exact .nil
  | cons y ys ih =>
    obtain ⟨hy, hys⟩ := pairwise_cons.1 hys
    have hrest := ih hys
    have hsub := mem_of_mem_foldr_distinct ys
    rw [foldr_cons]
    generalize ys.foldr (fun x rest => if rest.head? = some x then rest else x :: rest) [] = rest
      at hrest hsub ⊢
    split_ifs with hhead
    · exact hrest
    · refine pairwise_cons.2 ⟨fun z hz ↦ lt_of_le_of_ne (hy z (hsub z hz)) ?_, hrest⟩
      rintro rfl
      -- The least of the rest is no less than the new one, and it is not the new one itself.
      cases rest with
      | nil => cases hz
      | cons w rest =>
        rcases mem_cons.1 hz with rfl | hz
        · exact hhead rfl
        · exact (hy w (hsub w mem_cons_self)).not_gt (rel_of_pairwise_cons hrest hz)

theorem pairwise_sortedDistinct (xs : List String) :
    (History.sortedDistinct xs).Pairwise (· < ·) := by
  have htrans (a b c : String) (hab : decide (a ≤ b)) (hbc : decide (b ≤ c)) : decide (a ≤ c) :=
    decide_eq_true ((of_decide_eq_true hab).trans (of_decide_eq_true hbc))
  have htotal (a b : String) : decide (a ≤ b) || decide (b ≤ a) := by
    rw [Bool.or_eq_true, decide_eq_true_iff, decide_eq_true_iff]
    exact le_total a b
  exact pairwise_foldr_distinct ((pairwise_mergeSort htrans htotal xs).imp of_decide_eq_true)

theorem nodup_sortedDistinct (xs : List String) : (History.sortedDistinct xs).Nodup :=
  (pairwise_sortedDistinct xs).imp ne_of_lt

/-- The files to be healed are those of the violations, and the target if it was judged before. -/
theorem healFiles_call (hd : d.Bound r) (id : String) {target : String} (ht : Seen r target)
    (made : Option Decision) {vs : List Violation} (hvs : ∀ v ∈ vs, Seen r v.file) :
    ⦃fun e => ⌜Call r d e ∧ Made d e made⌝⦄ healFiles id target made vs
      ⦃post⟨fun _ e => ⌜Call r d e⌝, fun _ e => ⌜Call r d e⌝⟩⦄ := by
  have hfile {file : String} (h : file ∈ Healing.targets vs (made.map fun _ => target)) :
      Seen r file := by
    rcases mem_append.1 (mem_sortedDistinct h) with h | h
    · obtain ⟨v, hv, rfl⟩ := mem_map.1 h
      exact hvs v (mem_filter.1 hv).1
    · obtain ⟨-, -, rfl⟩ := Option.map_eq_some_iff.1 (Option.mem_toList.1 h)
      exact ht
  mvcgen [healFiles]
  invariants
  · post⟨fun _ e => ⌜Call r d e ∧ Made d e made⌝, fun _ e => ⌜Call r d e⌝⟩
  case vc1 before file after htargets h =>
    obtain ⟨ns, hns, rfl⟩ := hfile (by simp [htargets] : file ∈ _)
    exact fun e he hmade ↦ healFile_call hd id made h hns e ⟨he, hmade⟩
  case vc2 e he _ =>
    exact ⟨he.1.quiet ⟨rfl, prefix_refl _⟩ rfl, he.2.mono ⟨rfl, prefix_refl _⟩⟩
  case vc3 => exact fun he _ ↦ he

/-- A run touches the ledger and what is around permitted files. -/
theorem run_call (hd : d.Bound r) (mode : RunMode) (raw : String) :
    Preserves (Call r d) (run mode raw) := by
  have hrecord := record_call hd
  have htarget := runTarget_call hd
  have hpreflight := @preflight_call r d hd
  have hsurvey := @runSurvey_call r d hd
  have hfiles := @healFiles_call r d hd
  have hindex := refreshIndex_quiet (P := Call r d) fun _ _ he hf ↦
    he.quiet ⟨hf.setting, hf.decisions ▸ prefix_refl _⟩ hf.tree
  mvcgen [run, Job.drawRun, htarget, workspace, deny, fail, hpreflight, hsurvey, hfiles, openAfter,
    hindex, hrecord]
  case vc1 e he _ => exact he.quiet ⟨rfl, prefix_refl _⟩ rfl
  case vc2 | vc4 | vc14 => exact And.right ‹Call r d _ ∧ Within r _›
  case vc3 e he _ _ _ _ _ => exact he.1.quiet (e.continues_judged _) rfl
  case vc7 p e he _ _ _ _ _ _ _ _ _ _ _ _ _ =>
    change Seen r (p.relativeTo e.session.root)
    rw [he.1.root hd]
    exact he.2.seen
  case vc8 he => exact he.2.2
  case vc9 he => exact ⟨he.1, he.2.1⟩
  case vc15 => exact none
  case vc16 e he _ _ _ _ _ => exact ⟨he.1.quiet (e.continues_judged _) rfl, by simp [Made]⟩
  case vc22 he _ => exact he.1
  case vc24 e he _ _ _ => exact he.1.quiet (e.continues_judged _) rfl

/-- The desk after some work, however it ended. -/
def after {α : Type} (w : Work α) (d : Desk) : Desk :=
  match w d with
  | .ok _ e => e
  | .error _ e => e

theorem exists_ok_of_run' {α : Type} {w : Work α} (h : (w.run' d).isSome) :
    ∃ a, w d = .ok a (w.after d) := by
  cases hw : w d with
  | ok a e => exact ⟨a, by rw [after, hw]⟩
  | error x e =>
    rw [EStateM.run', EStateM.run, hw] at h
    cases h

theorem after_of_triple {α : Type} {w : Work α} {R : Desk → Prop} {Q : α → Desk → Prop}
    {E : Fault → Desk → Prop}
    (h : ⦃fun e => ⌜P e⌝⦄ w ⦃post⟨fun a e => ⌜Q a e⌝, fun x e => ⌜E x e⌝⟩⦄) (hd : P d)
    (hQ : ∀ a e, Q a e → R e) (hE : ∀ x e, E x e → R e) : R (w.after d) := by
  rw [after]
  obtain ⟨a, e, hw, hrun⟩ | ⟨x, e, hw, hrun⟩ := cases_of_triple h hd
  · rw [hw]
    exact hQ a e hrun
  · rw [hw]
    exact hE x e hrun

theorem after_call (hd : d.Bound r) (mode : RunMode) (raw : String) :
    Call r d ((run mode raw).after d) :=
  after_of_triple (run_call hd mode raw) (.refl r d) (fun _ _ ↦ id) fun _ _ ↦ id

/-- From `d` to `e` the place `ns` below the root was authorized: in this time the rules were asked
about writing to it and every rule allowed it. So it is tracked, is not the root, and has no name
that tells of credentials, unless it is in the reserved directory. -/
structure Authorized (r : Location) (d e : Desk) (ns : Location) : Prop where
  permitted : d.Permitted e (r ++ ns).path
  tracked : (d.host.history d.session.adapter).isTracked (r ++ ns).path = .ok true
  ne_root : ns ≠ []
  noCredentials : ns.head? = some Workspace.reservedName ∨
    ∀ n ∈ ns, ∀ m ∈ Rule.credentialMarks, ¬m.toList <:+: n.toList.map Rule.foldLetter

/-- The place `q` is a file, the copy of it, which is not in `t`, or under way to one of them. -/
def Beside (t : FileTree) (file q : Location) : Prop :=
  q = file ∨ q.path = Fix.backupPath file.path ∧ t.get? q = none ∨
    q.path = Disk.tempSibling file.path ∨ q.path = Disk.tempSibling (Fix.backupPath file.path)

/-- **Only authorized files change.** However a healing run ends, every place but the ledger's that
is not as before belongs to a file that was authorized in this run. -/
theorem heal_changes_authorized (hd : d.Bound r) (raw : String) {q : Location}
    (hq : q ≠ d.host.tree.place d.session.log.path)
    (hchanged : ((heal raw).after d).host.tree.get? q ≠ d.host.tree.get? q) :
    ∃ ns, Authorized r d ((heal raw).after d) ns ∧ Beside d.host.tree (r ++ ns) q := by
  have hcall := after_call hd .heal raw
  by_cases htouch : Touchable r d ((heal raw).after d) q
  swap
  · exact absurd (hcall.changes.others q htouch) hchanged
  obtain hlog | ⟨l, n, ⟨ms, rfl⟩, hproper, hp, haround⟩ := htouch
  · exact absurd hlog hq
  rw [List.append_assoc] at hproper hp
  obtain ⟨htracked, hne, hclean⟩ := hd.of_permitted hproper hp
  refine ⟨ms ++ [n], ⟨hp, htracked, hne, hclean⟩, ?_⟩
  rw [← List.append_assoc] at hproper ⊢
  have hbackup := hproper.append_suffix (by decide : 2 < ".backup".length) (by decide)
  rw [Beside, Fix.backupPath_path hproper, Disk.tempSibling_path hproper,
    Disk.tempSibling_path hbackup]
  rcases haround with rfl | ⟨rfl, hfree⟩ | rfl | rfl
  · exact .inl rfl
  · exact .inr (.inl ⟨rfl, hfree⟩)
  · exact .inr (.inr (.inl rfl))
  · exact .inr (.inr (.inr rfl))

/-- A workspace with one file to be healed, and no directory for the ledger. -/
def exceptDesk : Desk where
  host :=
    { tree := { entries := [(["w"], .dir),
        (["w", "a.py"], .file (Utf8.encode "except:".toList) ⟨0, 0⟩)] }
      now := ⟨0, 0⟩
      digest := fun _ => ""
      git := fun _ => .error "no git"
      given := { History.unavailable "no history" with
        repoRoot := .ok ⟨"/w"⟩
        isTracked := fun _ => .ok true } }
  session :=
    { root := ⟨"/w"⟩
      adapter := .given
      config := {}
      constitution := .standard
      log := ⟨⟨"/w/.jarvis/audit.jsonl"⟩, ⟨"", none, false⟩⟩
      index := none
      indexPath := ⟨"/w/.jarvis/context.db"⟩
      indexStale := true
      init := { root := ⟨"/w/.jarvis"⟩ } }

theorem exceptDesk_bound : exceptDesk.Bound ["w"] where
  noLinks l _ := get?_ne_link_of_entries (by decide) l
  properNames := properNames_of_entries (by decide)
  root := by decide
  proper := by decide
  log_absolute := by decide
  log_clear us _ := get?_ne_link_of_entries (by decide) _
  rules := List.Subset.refl _

/-- The run fails when it comes to the ledger; by then the copy is made. -/
theorem heal_changes_authorized_copy :
    exceptDesk.Bound ["w"] ∧
      ["w", "a.py.backup"] ≠ exceptDesk.host.tree.place exceptDesk.session.log.path ∧
      ((heal ".").after exceptDesk).host.tree.get? ["w", "a.py.backup"] ≠
        exceptDesk.host.tree.get? ["w", "a.py.backup"] ∧
      ∃ ns, Authorized ["w"] exceptDesk ((heal ".").after exceptDesk) ns ∧
        Beside exceptDesk.host.tree (["w"] ++ ns) ["w", "a.py.backup"] := by
  have hq : ["w", "a.py.backup"] ≠ exceptDesk.host.tree.place exceptDesk.session.log.path := by
    decide
  have hchanged : ((heal ".").after exceptDesk).host.tree.get? ["w", "a.py.backup"] ≠
      exceptDesk.host.tree.get? ["w", "a.py.backup"] := by
    decide +kernel
  exact ⟨exceptDesk_bound, hq, hchanged, heal_changes_authorized exceptDesk_bound "." hq hchanged⟩

end Work

end Steward
