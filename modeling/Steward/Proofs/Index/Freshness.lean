import Steward.Proofs.Journal

/-!
# When the index is fresh

A run that comes to the index brings an update, or marks the index stale. So tables that are not
marked are those of the last rebuild with the update of every run since, `Index.Current`: one move of
the index keeps that (`Desk.Basis.Sound`), a call is such a move, and so it holds in every state that
calls lead to, `Office.Reached.sound`, whatever happens to the files and the history in between.
-/

namespace Steward

open List hiding get

set_option mvcgen.warning false

open Std.Do

namespace Index

/-! ## Updates -/

/-- What a run brings to the index. -/
structure Update where
  since : Instant
  commits : List Commit
  files : List String
  rows : List Finding

def Update.apply (u : Update) (x : Index) : Index :=
  (x.recordCommits u.commits u.since).replaceFindings u.files u.rows

/-- Whether an index is stale is no matter of its rows. -/
def SameMark (x y : Index) : Prop := y.markedStale = x.markedStale ∧ y.builtAt = x.builtAt

theorem SameMark.isStale {x y : Index} (h : x.SameMark y) : y.isStale = x.isStale := by
  rw [Index.isStale, Index.isStale, h.1, h.2]

theorem SameMark.trans {x y z : Index} (h : x.SameMark y) (h' : y.SameMark z) : x.SameMark z :=
  ⟨h'.1.trans h.1, h'.2.trans h.2⟩

theorem sameMark_foldl {α : Type} {f : Index → α → Index} (hf : ∀ (x : Index) a, x.SameMark (f x a))
    (x : Index) (as : List α) : x.SameMark (as.foldl f x) := by
  induction as generalizing x with
  | nil => exact ⟨rfl, rfl⟩
  | cons a as ih => exact (hf x a).trans (ih (f x a))

theorem sameMark_addCommits (x : Index) (cs : List Commit) : x.SameMark (x.addCommits cs) :=
  sameMark_foldl (f := addCommit) (fun _ _ ↦ ⟨rfl, rfl⟩) x cs

theorem sameMark_addFindings (x : Index) (fs : List Finding) : x.SameMark (x.addFindings fs) := by
  refine sameMark_foldl (fun x f ↦ ?_) x fs
  rw [addFinding]
  split_ifs
  · exact ⟨rfl, rfl⟩
  · exact ⟨rfl, rfl⟩

theorem sameMark_apply (u : Update) (x : Index) : x.SameMark (u.apply x) :=
  (sameMark_addCommits x u.commits).trans (sameMark_addFindings _ u.rows)

theorem not_isStale_rebuild (now : Instant) (cs : List Commit) (fs : List Finding) :
    (rebuild now cs fs).isStale = false :=
  ((sameMark_addCommits _ cs).trans (sameMark_addFindings _ fs)).isStale

/-! ## Events -/

/-- What happens to an index: it is rebuilt, or a run comes to it, with an update unless the history
has failed. -/
inductive Event where
  | rebuilt (x : Index)
  | ran (u : Option Update)

/-- The tables are those of the last rebuild, with the update of every run since. -/
def Current (es : List Event) (y : Index) : Prop :=
  ∃ before x, ∃ us : List Update, es = before ++ .rebuilt x :: us.map (.ran ∘ some) ∧
    y = us.foldl (fun z u ↦ u.apply z) x

theorem current_rebuilt (es : List Event) (x : Index) : Current (es ++ [.rebuilt x]) x :=
  ⟨es, x, [], rfl, rfl⟩

theorem Current.ran {es : List Event} {y : Index} (h : Current es y) (u : Update) :
    Current (es ++ [.ran (some u)]) (u.apply y) := by
  obtain ⟨before, x, us, rfl, rfl⟩ := h
  refine ⟨before, x, us ++ [u], ?_, ?_⟩
  · rw [map_append, append_assoc]
    rfl
  · rw [foldl_append]
    rfl

/-- The events of one store among those of all. -/
def eventsOf (store : Nat) (es : List (Nat × Event)) : List Event :=
  (es.filter (·.1 = store)).map (·.2)

theorem eventsOf_append_same (store : Nat) (es : List (Nat × Event)) (es' : List Event) :
    eventsOf store (es ++ es'.map (store, ·)) = eventsOf store es ++ es' := by
  rw [eventsOf, filter_append, map_append, ← eventsOf, filter_eq_self.2, map_map]
  · exact congrArg _ (map_id _)
  · simp

theorem eventsOf_append_other {store other : Nat} (h : store ≠ other) (es : List (Nat × Event))
    (es' : List Event) : eventsOf store (es ++ es'.map (other, ·)) = eventsOf store es := by
  have hnone : (es'.map (other, ·)).filter (·.1 = store) = [] :=
    filter_eq_nil_iff.2 (by simpa using fun _ _ ↦ h.symm)
  rw [eventsOf, filter_append, hnone, append_nil, eventsOf]

/-- All stores that are not stale are current. -/
def AllCurrent (stores : List Index) (es : List (Nat × Event)) : Prop :=
  ∀ k y, stores[k]? = some y → y.isStale = false → Current (eventsOf k es) y

/-- Events at one store, and what they do to its tables. -/
theorem AllCurrent.modify {stores : List Index} {es : List (Nat × Event)} (h : AllCurrent stores es)
    {k : Nat} {f : Index → Index} (es' : List Event)
    (hf : ∀ y, stores[k]? = some y → (f y).isStale = false →
      Current (eventsOf k es ++ es') (f y)) :
    AllCurrent (stores.modify k f) (es ++ es'.map (k, ·)) := by
  intro j y hy hfresh
  by_cases hj : j = k
  · subst hj
    rw [getElem?_modify_eq] at hy
    obtain ⟨z, hz, rfl⟩ := Option.map_eq_some_iff.1 hy
    rw [eventsOf_append_same]
    exact hf z hz hfresh
  · rw [getElem?_modify_ne f stores (Ne.symm hj)] at hy
    rw [eventsOf_append_other hj]
    exact h j y hy hfresh

end Index

namespace Desk

open Index

/-- The update that the index is due after a run, if the history tells of the latest commits. -/
def due? (d : Desk) (files : List String) (vs : List Violation) : Option Update := do
  let since ← d.host.now.minusDays? d.session.config.memory.historyDays
  let commits ← ((d.host.history d.session.adapter).commitsSince d.session.root since).toOption
  return ⟨since, commits, files, d.rows vs⟩

theorem Answers.due?_eq {d : Desk} {since : Instant} {cs : List Commit} (h : d.Answers since cs)
    (files : List String) (vs : List Violation) :
    d.due? files vs = some ⟨since, cs, files, d.rows vs⟩ := by
  simp [due?, h.horizon, h.commits, Except.toOption]

theorem due?_eq_none {d : Desk} (h : ¬d.Ready) (hindex : d.session.index.isSome)
    (files : List String) (vs : List Violation) : d.due? files vs = none := by
  rw [Option.eq_none_iff_forall_ne_some]
  intro u hu
  obtain ⟨since, hsince, hu⟩ := Option.bind_eq_some_iff.1 hu
  obtain ⟨cs, hcs, -⟩ := Option.bind_eq_some_iff.1 hu
  refine h ⟨hindex, since, cs, hsince, ?_⟩
  cases hcommits : (d.host.history d.session.adapter).commitsSince d.session.root since with
  | error x => simp [hcommits, Except.toOption] at hcs
  | ok cs' =>
    rw [hcommits] at hcs
    exact congrArg _ (Option.some.inj hcs)

/-! ## Moves of the index -/

namespace Basis

/-- The basis after the index was marked stale. -/
def outdated (b : Basis) : Basis := { b.modified Index.markStale with indexStale := true }

/-- The basis after a run came to the index with an update that was due. -/
def advanced (b : Basis) (u : Option Update) : Basis :=
  if b.indexStale then b else u.elim b.outdated fun u => b.modified u.apply

/-- The index is open, the session knows whether it is stale, and stores that are not are current. -/
structure Sound (b : Basis) (es : List (Nat × Event)) : Prop where
  open_index : ∃ x y, b.index = some x ∧ b.stores[x.store]? = some y ∧ b.indexStale = y.isStale
  stores : AllCurrent b.stores es

variable {b : Basis} {es : List (Nat × Event)} {x : IndexHandle}

theorem Sound.isSome_index (h : b.Sound es) : b.index.isSome := by
  obtain ⟨x, y, hx, -⟩ := h.open_index
  rw [hx]
  rfl

/-- One move: the tables change, events tell of it, and the session knows what became of it. -/
theorem Sound.move (h : b.Sound es) (hx : b.index = some x) {b' : Basis} (f : Index → Index)
    (es' : List Event) (hindex : b'.index = b.index)
    (hstores : b'.stores = b.stores.modify x.store f)
    (hstale : ∀ y, b.indexStale = y.isStale → b'.indexStale = (f y).isStale)
    (hf : ∀ y, b.stores[x.store]? = some y → (f y).isStale = false →
      Current (eventsOf x.store es ++ es') (f y)) :
    b'.Sound (es ++ es'.map (x.store, ·)) := by
  obtain ⟨x', y, hx', hy, hknown⟩ := h.open_index
  obtain rfl := Option.some.inj (hx'.symm.trans hx)
  refine ⟨⟨x', f y, hindex.trans hx, ?_, hstale y hknown⟩, ?_⟩
  · rw [hstores, getElem?_modify_eq, hy]
    rfl
  · rw [hstores]
    exact h.stores.modify es' hf

theorem stores_modified (hx : b.index = some x) (f : Index → Index) :
    (b.modified f).stores = b.stores.modify x.store f := by
  rw [modified, hx, Option.elim_some]

theorem Sound.outdated (h : b.Sound es) : b.outdated.Sound es := by
  obtain ⟨x, y, hx, -⟩ := h.open_index
  rw [← append_nil es]
  exact h.move hx Index.markStale [] rfl (stores_modified hx _) (fun _ _ ↦ rfl)
    fun _ _ hfresh ↦ by cases hfresh

theorem Sound.rebuilt (h : b.Sound es) (hx : b.index = some x) {y : Index}
    (hy : y.isStale = false) : (b.rebuilt y).Sound (es ++ [(x.store, .rebuilt y)]) :=
  h.move hx (fun _ ↦ y) [.rebuilt y] rfl (stores_modified hx _) (fun _ _ ↦ hy.symm)
    fun _ _ _ ↦ current_rebuilt _ y

theorem Sound.advanced (h : b.Sound es) (hx : b.index = some x) (u : Option Update) :
    (b.advanced u).Sound (es ++ [(x.store, .ran u)]) := by
  obtain ⟨x', z, hx', hz, hknown⟩ := h.open_index
  obtain rfl := Option.some.inj (hx'.symm.trans hx)
  rw [Basis.advanced]
  split_ifs with hstale
  · -- A stale index stays as it is, and so does what is known of it.
    refine h.move hx id [.ran u] rfl (modify_id _ _).symm (fun y hknown ↦ hknown)
      fun y hy hfresh ↦ ?_
    obtain rfl := Option.some.inj (hz.symm.trans hy)
    cases hstale.symm.trans (hknown.trans hfresh)
  · cases u with
    | none =>
      exact h.move hx Index.markStale [.ran none] rfl (stores_modified hx _) (fun _ _ ↦ rfl)
        fun _ _ hfresh ↦ by cases hfresh
    | some u =>
      refine h.move hx u.apply [.ran (some u)] rfl (stores_modified hx _) (fun y hknown ↦ ?_)
        fun y hy hfresh ↦ ?_
      · exact hknown.trans (sameMark_apply u y).isStale.symm
      · rw [(sameMark_apply u y).isStale] at hfresh
        exact (h.stores _ y hy hfresh).ran u

end Basis

end Desk

open Desk

namespace Work

/-! ## Work that leaves the index alone -/

section Basis

variable {b : Basis}

theorem record_basis (entry : Ledger.Entry) : Preserves (·.basis = b) (record entry) := by
  refine triple_iff.2 fun e he ↦ ?_
  simp only [record_apply, Ledger.Log.append, Disk.append, bind, EStateM.bind]
  cases Disk.update e.host.now e.session.log.path _ e.host.tree with
  | ok _ tree => exact he
  | error x tree => exact he

theorem runTarget_basis (id raw : String) : Preserves (·.basis = b) (runTarget id raw) := by
  have hrecord := @record_basis b
  mvcgen [runTarget, resolve, workspace, fail, hrecord]

theorem deny_basis {α : Type} (kind : ActionKind) (target : String) (run : Option String)
    (x : Decision) : Preserves (·.basis = b) (deny kind target run x : Work α) := by
  have hrecord := @record_basis b
  mvcgen [deny, fail, hrecord]

theorem clearance_basis (mode : RunMode) (id target : String) (p : Path) :
    Preserves (·.basis = b) (clearance mode id target p) := by
  have hrecord := @record_basis b
  mvcgen [clearance, preflight, fail, hrecord]

theorem runSurvey_basis (id target : String) (p : Path) :
    Preserves (·.basis = b) (runSurvey id target p) := by
  have hrecord := @record_basis b
  mvcgen [runSurvey, survey, fail, hrecord]

theorem healFile_basis (id : String) (made : Option Decision) (h : Healing) (file : String) :
    Preserves (·.basis = b) (healFile id made h file) := by
  have hrecord := @record_basis b
  mvcgen [healFile, writeDecision, fixFile, hrecord]

theorem treat_basis (mode : RunMode) (id target : String) (made : Option Decision)
    (vs : List Violation) : Preserves (·.basis = b) (treat mode id target made vs) := by
  have hfile := @healFile_basis b
  mvcgen [treat, healFiles, hfile]
  invariants
  · post⟨fun _ e => ⌜e.basis = b⌝, fun _ e => ⌜e.basis = b⌝⟩
  case vc5 => exact fun he ↦ he

theorem stage_basis (mode : RunMode) (raw : String) : Preserves (·.basis = b) (stage mode raw) := by
  have htarget := @runTarget_basis b
  have hdeny := @deny_basis b
  have hclear := @clearance_basis b
  have hsurvey := @runSurvey_basis b
  have htreat := @treat_basis b
  mvcgen [stage, drawRun_spec, htarget, workspace, hdeny, hclear, hsurvey, htreat]

theorem close_basis (mode : RunMode) (g : Stage) : Preserves (·.basis = b) (close mode g) := by
  have hrecord := @record_basis b
  mvcgen [close, hrecord]

theorem authorize_basis (kind : ActionKind) (raw : String) :
    Preserves (·.basis = b) (authorize kind raw) := by
  have hrecord := @record_basis b
  mvcgen [authorize, resolve, workspace, fail, hrecord]

/-! ## Work that moves the index -/

theorem basis_modify {e : Desk} {x : IndexHandle} (hx : e.session.index = some x)
    (f : Index → Index) :
    (⟨{ e.host with stores := e.host.stores.modify x.store f }, e.session⟩ : Desk).basis =
      e.basis.modified f := by
  simp only [Desk.basis, Basis.modified, hx, Option.elim_some]
  rfl

theorem markStale_basis (hindex : b.index.isSome) :
    ⦃fun e => ⌜e.basis = b⌝⦄ markStale
      ⦃⇓ _ e => ⌜e.basis = b.outdated⌝⦄ := by
  mvcgen [markStale, IndexHandle.modify]
  case vc1 e he _ hnone =>
    rw [← he, Desk.basis, show e.session.index = none from hnone] at hindex
    cases hindex
  case vc2 e he _ x hx _ =>
    have hx : e.session.index = some x := hx
    rw [← he, Basis.outdated, ← basis_modify hx]
    rfl

theorem refreshIndex_basis {d : Desk} (hindex : d.session.index.isSome) (files : List String)
    (vs : List Violation) :
    ⦃fun e => ⌜e = d⌝⦄ refreshIndex files vs
      ⦃post⟨fun _ e => ⌜e.basis = d.basis.advanced (d.due? files vs)⌝,
        fun _ e => ⌜e.basis = d.basis⌝⟩⦄ := by
  have hupdate := @updateIndex_spec d files vs
  have hmark := markStale_basis (b := d.basis) hindex
  have hadvanced (hfresh : ¬d.session.indexStale) (u : Option Index.Update) :
      d.basis.advanced u = u.elim d.basis.outdated fun u => d.basis.modified u.apply := by
    rw [Basis.advanced]
    exact if_neg hfresh
  mvcgen [refreshIndex, hupdate, hmark]
  case vc1 e he hstale =>
    subst he
    rw [Basis.advanced]
    exact (if_pos hstale).symm
  case vc2 e he _ =>
    subst he
    exact ⟨rfl, rfl⟩
  case vc3 e he hfresh _ e' he' =>
    subst he
    obtain ⟨-, since, cs, hanswers, hbasis⟩ := he'
    rw [hbasis, hadvanced hfresh, hanswers.due?_eq]
    rfl
  case vc5 he => exact he.1.basis
  case vc6 e he hfresh _ _ _ _ hready _ _ =>
    subst he
    rw [hadvanced hfresh, due?_eq_none hready.2 hindex]
    exact fun hbasis ↦ hbasis
  case vc7 he => exact he.1.basis

/-- A run up to the ledger: what it has, and the update that the index was due. -/
def indexed (mode : RunMode) (raw : String) : Work (Stage × Option Index.Update) := do
  let g ← stage mode raw
  let vs ← openAfter g.healing
  let d ← get
  refreshIndex g.survey.examined vs
  return (g, d.due? g.survey.examined vs)

theorem run_eq_indexed (mode : RunMode) (raw : String) :
    run mode raw = (do
      let r ← indexed mode raw
      close mode r.1) := by
  rw [run_eq]
  simp only [indexed, bind_assoc, pure_bind]
  rfl

theorem indexed_basis (hindex : b.index.isSome) (mode : RunMode) (raw : String) :
    ⦃fun e => ⌜e.basis = b⌝⦄ indexed mode raw
      ⦃post⟨fun r e => ⌜e.basis = b.advanced r.2⌝, fun _ e => ⌜e.basis = b⌝⟩⦄ := by
  have hstage := @stage_basis b
  have hrefresh := @refreshIndex_basis
  mvcgen [indexed, hstage, openAfter, hrefresh]
  case vc2 he _ =>
    subst he
    exact hindex
  case vc3 hmid _ _ _ he => rw [he, hmid]
  case vc4 hmid _ _ _ => exact fun he ↦ he.trans hmid

theorem openedIndex_basis (hindex : b.index.isSome) :
    ⦃fun e => ⌜e.basis = b⌝⦄ openedIndex
      ⦃⇓ x e => ⌜e.basis = b ∧ e.session.index = some x⌝⦄ := by
  mvcgen [openedIndex]
  case vc2 he hnone =>
    subst he
    rw [Desk.basis, hnone] at hindex
    cases hindex

theorem refillIndex_basis (hindex : b.index.isSome) :
    ⦃fun e => ⌜e.basis = b⌝⦄ refillIndex
      ⦃post⟨fun _ e => ⌜∃ y : Index, y.isStale = false ∧ e.basis = b.rebuilt y⌝,
        fun _ e => ⌜e.basis = b⌝⟩⦄ := by
  have hopened := openedIndex_basis hindex
  mvcgen [refillIndex, horizon, Job.daysAgo, survey, Job.ofExcept, Job.fail, commitsSince, askHistory,
    findings, fail, hopened, IndexHandle.modify]
  case vc2 x e he _ _ _ =>
    obtain ⟨rfl, hx⟩ := he
    exact ⟨_, Index.not_isStale_rebuild _ _ _,
      congrArg (fun b : Basis ↦ { b with indexStale := false }) (basis_modify hx _)⟩

/-- A rebuild up to the ledger. -/
def refilled : Work (String × Except Fault (RebuildSummary × Counts)) := do
  let run ← job Job.drawRun
  let decision ← judge ⟨.scan, (← get).session.root⟩
  unless decision.allowed do deny .scan "." (some run) decision
  return (run, ← attempt refillIndex)

/-- The rest of a rebuild. -/
def closeRebuild (run : String) : Except Fault (RebuildSummary × Counts) → Work RebuildSummary
  | .ok (summary, skipped) => do
    record
      { action := "Scan", target := ".", allowed := true, run := some run,
        status := some "index-rebuilt", filesExamined := some summary.filesExamined, skipped }
    return summary
  | .error (.error e) => do
    markStale
    record
      { action := "Scan", target := ".", allowed := true, run := some run,
        status := some "failed", error := some e.kind }
    fail e
  | .error .calendar => throw .calendar

theorem rebuildIndex_eq :
    rebuildIndex = (do
      let r ← refilled
      closeRebuild r.1 r.2) := by
  simp only [rebuildIndex, refilled, bind_assoc]
  refine bind_congr fun run ↦ bind_congr fun d ↦ bind_congr fun x ↦ ?_
  cases hx : x.allowed with
  | true =>
    simp only [if_true, bind_assoc, pure_bind]
    refine bind_congr fun r ↦ ?_
    rcases r with (_ | _) | ⟨_, _⟩ <;> rfl
  | false =>
    simp only [Bool.false_eq_true, if_false, bind_assoc, pure_bind]
    refine bind_congr fun _ ↦ bind_congr fun r ↦ ?_
    rcases r with (_ | _) | ⟨_, _⟩ <;> rfl

theorem refilled_basis (hindex : b.index.isSome) :
    ⦃fun e => ⌜e.basis = b⌝⦄ refilled
      ⦃post⟨fun r e => ⌜if r.2.isOk then ∃ y : Index, y.isStale = false ∧ e.basis = b.rebuilt y
          else e.basis = b⌝, fun _ e => ⌜e.basis = b⌝⟩⦄ := by
  have hdeny := @deny_basis b
  have hrefill := refillIndex_basis hindex
  mvcgen [refilled, drawRun_spec, hdeny, hrefill]

/-- The tables of the index as they are. -/
def present : Work Index := do
  match (← get).session.index with
  | some x => job x.tables
  | none => fail .indexStale

theorem freshIndex_apply (d : Desk) :
    freshIndex d =
      if d.session.indexStale || d.session.index.isNone then (do let _ ← rebuildIndex; present) d
      else present d := by
  split_ifs with h
  · simp only [freshIndex, bind, EStateM.bind, get, getThe, MonadStateOf.get, EStateM.get, h, if_true]
    rfl
  · simp only [freshIndex, bind, EStateM.bind, get, getThe, MonadStateOf.get, EStateM.get, h]
    rfl

theorem present_basis : Preserves (·.basis = b) present := by
  mvcgen [present, IndexHandle.tables, fail]

theorem dated_basis {α : Type} (f : Desk → Option α) :
    Preserves (·.basis = b) (do job (Job.dated (f (← get))) : Work α) := by
  mvcgen [Job.dated]

end Basis

/-! ## Calls -/

section Calls

variable {d : Desk} {es : List (Nat × Index.Event)} {α β : Type}

/-- Work that leaves the index alone keeps what depends on it alone. -/
theorem keeps_of_basis {w : Work α}
    (h : ∀ b : Basis, Preserves (·.basis = b) w) (P : Basis → Prop) :
    Preserves (fun e ↦ P e.basis) w := by
  refine triple_iff.2 fun e he ↦ ?_
  have hw := triple_iff.1 (h e.basis) e rfl
  cases hrun : w e with
  | ok _ f | error _ f =>
    rw [hrun] at hw
    rwa [← hw] at he

theorem sound_of_basis {w : Work α}
    (h : ∀ b : Basis, Preserves (·.basis = b) w) :
    Preserves (·.basis.Sound es) w :=
  keeps_of_basis h fun b ↦ b.Sound es

theorem markStale_sound : Preserves (·.basis.Sound es) markStale := by
  refine triple_iff.2 fun e he ↦ ?_
  obtain ⟨_, f, hrun, hmark⟩ | ⟨_, _, _, ⟨⟩⟩ := cases_of_triple (markStale_basis he.isSome_index) rfl
  rw [hrun]
  show f.basis.Sound es
  rw [show f.basis = e.basis.outdated from hmark]
  exact he.outdated

theorem closeRebuild_sound (run : String) (r : Except Fault (RebuildSummary × Counts)) :
    Preserves (·.basis.Sound es) (closeRebuild run r) := by
  have hrecord (entry : Ledger.Entry) := @sound_of_basis es _ _ fun b ↦ @record_basis b entry
  have hmark := @markStale_sound es
  rcases r with (_ | _) | ⟨_, _⟩
  · mvcgen [closeRebuild, hmark, hrecord, fail]
  · mvcgen [closeRebuild]
  · mvcgen [closeRebuild, hrecord]

theorem triple_after_iff {P : Desk → Prop} {w : Work α} :
    (⦃fun e => ⌜e = d⌝⦄ w ⦃post⟨fun _ e => ⌜P e⌝, fun _ e => ⌜P e⌝⟩⦄) ↔ P (w.after d) := by
  rw [triple_iff, forall_eq, after]
  cases w d <;> rfl

/-- What the rest of some work keeps holds at its end if it holds where the rest begins. -/
theorem after_bind {P : Desk → Prop} {w : Work α} {rest : α → Work β}
    (hrest : ∀ a, Preserves P (rest a))
    (h : P (w.after d)) : P ((w >>= rest).after d) := by
  rw [after] at h ⊢
  simp only [bind, EStateM.bind]
  cases hw : w d with
  | error x e =>
    rw [hw] at h
    exact h
  | ok a e =>
    rw [hw] at h
    have hnext := triple_iff.1 (hrest a) e h
    cases hx : rest a e with
    | ok _ f | error _ f =>
      rw [hx] at hnext
      simpa only [hx] using hnext

end Calls

end Work

namespace Desk

open Index

/-- Events at the index of the session. -/
def located (d : Desk) (es : List Event) : List (Nat × Event) :=
  d.session.index.toList.flatMap fun x => es.map (x.store, ·)

/-- What a run does to the index: if it comes to it at all, it has an update or not. -/
def runEvents (d : Desk) (mode : RunMode) (raw : String) : List Event :=
  match Work.indexed mode raw d with
  | .ok r _ => [.ran r.2]
  | .error _ _ => []

/-- What a rebuild does to the index. -/
def rebuildEvents (d : Desk) : List Event :=
  match Work.refilled d with
  | .ok (_, .ok _) e => e.basis.tables?.toList.map .rebuilt
  | _ => []

variable {d : Desk} {es : List (Nat × Event)}

theorem located_eq {x : IndexHandle} (hx : d.session.index = some x) (es : List Event) :
    d.located es = es.map (x.store, ·) := by
  rw [located, hx, Option.toList_some, flatMap_singleton]

theorem Basis.Sound.run (h : d.basis.Sound es) (mode : RunMode) (raw : String) :
    ((Work.run mode raw).after d).basis.Sound (es ++ d.located (d.runEvents mode raw)) := by
  obtain ⟨x, -, hx, -⟩ := h.open_index
  have hindexed := triple_iff.1 (Work.indexed_basis h.isSome_index mode raw) d rfl
  rw [located_eq hx, Work.run_eq_indexed]
  refine Work.after_bind (P := fun e ↦ e.basis.Sound _)
    (fun r ↦ Work.sound_of_basis fun b ↦ @Work.close_basis b mode r.1) ?_
  rw [runEvents, Work.after]
  cases hrun : Work.indexed mode raw d with
  | ok r e =>
    rw [hrun] at hindexed
    exact hindexed ▸ h.advanced hx r.2
  | error y e =>
    rw [hrun] at hindexed
    simpa [hindexed] using h

theorem Basis.Sound.rebuildIndex (h : d.basis.Sound es) :
    (Work.rebuildIndex.after d).basis.Sound (es ++ d.located d.rebuildEvents) := by
  obtain ⟨x, y, hx, hy, -⟩ := h.open_index
  have hrefilled := triple_iff.1 (Work.refilled_basis h.isSome_index) d rfl
  rw [located_eq hx, Work.rebuildIndex_eq]
  refine Work.after_bind (P := fun e ↦ e.basis.Sound _)
    (fun r ↦ Work.closeRebuild_sound r.1 r.2) ?_
  rw [rebuildEvents, Work.after]
  cases hrun : Work.refilled d with
  | error z e =>
    rw [hrun] at hrefilled
    simpa [hrefilled] using h
  | ok r e =>
    rw [hrun] at hrefilled
    rcases r with ⟨run, z | summary⟩
    · simpa [Except.isOk, Except.toBool] using hrefilled ▸ h
    · obtain ⟨z, hz, hbasis⟩ := hrefilled
      have htables : e.basis.tables? = some z := by
        rw [hbasis]
        exact (d.basis.tables?_modified fun _ ↦ z).trans (by simp [tables?, hx, hy])
      show e.basis.Sound (es ++ (e.basis.tables?.toList.map Event.rebuilt).map (x.store, ·))
      rw [htables, hbasis]
      exact h.rebuilt hx hz

/-- The tables are asked for after a rebuild, unless the session takes them for fresh. -/
theorem Basis.Sound.query (h : d.basis.Sound es) {α : Type} (f : Index → Desk → Option α) :
    ((Work.query f).after d).basis.Sound (es ++
      if d.session.indexStale || d.session.index.isNone then d.located d.rebuildEvents else []) := by
  have hpresent {es : List (Nat × Event)} := @Work.sound_of_basis es _ _ @Work.present_basis
  refine Work.after_bind (P := fun e ↦ e.basis.Sound _)
    (fun x ↦ Work.sound_of_basis fun b ↦ @Work.dated_basis b _ (f x)) ?_
  rw [Work.after, Work.freshIndex_apply]
  split_ifs with hstale
  · exact Work.after_bind (P := fun e ↦ e.basis.Sound _) (fun _ ↦ hpresent) h.rebuildIndex
  · rw [append_nil]
    exact (Work.triple_after_iff (P := fun e ↦ e.basis.Sound es)).1 fun e he ↦
      hpresent e (show e.basis.Sound es from he ▸ h)

end Desk

namespace Errand

open Desk

/-- What a call does to the index. -/
def events (c : Errand) (d : Desk) : List (Nat × Index.Event) :=
  match c with
  | run mode raw => d.located (d.runEvents mode raw)
  | authorize _ _ => []
  | rebuildIndex => d.located d.rebuildEvents
  | activity _ | staleTodos _ | opportunities =>
    if d.session.indexStale || d.session.index.isNone then d.located d.rebuildEvents else []

theorem sound_after {d : Desk} {es : List (Nat × Index.Event)} (h : d.basis.Sound es)
    (c : Errand) : (c.work.after d).basis.Sound (es ++ c.events d) := by
  have hanswer {α : Type} {w : Work α} {es : List (Nat × Index.Event)}
      (hw : (w.after d).basis.Sound es) :
      ((do let _ ← w : Work Unit).after d).basis.Sound es :=
    Work.after_bind (P := fun e ↦ e.basis.Sound es) (fun _ ↦ by mvcgen) hw
  cases c with
  | run mode raw => exact hanswer (h.run mode raw)
  | authorize kind raw =>
    rw [events, append_nil]
    refine hanswer ((Work.triple_after_iff (P := fun e ↦ e.basis.Sound es)).1 fun e he ↦ ?_)
    exact Work.sound_of_basis (fun b ↦ @Work.authorize_basis b kind raw) e
      (show e.basis.Sound es from he ▸ h)
  | rebuildIndex => exact hanswer h.rebuildIndex
  | activity days => exact hanswer (h.query fun x d ↦ x.activity? days d.host.now)
  | staleTodos days =>
    exact hanswer (h.query fun x d ↦
      x.staleTodos? (days.getD d.session.config.memory.staleTodoDays) d.host.now)
  | opportunities =>
    exact hanswer (h.query fun x d ↦ x.opportunities? d.session.config.memory.staleTodoDays
      d.session.config.memory.hotspotThreshold d.host.now)

end Errand

/-! ## Sessions one after the other -/

/-- The stores after an index was opened: there may be an empty one more. -/
def Grown (S : List Index) (h : Host) : Prop := h.stores = S ∨ h.stores = S ++ [({} : Index)]

theorem Grown.allCurrent {S : List Index} {h : Host} {es : List (Nat × Index.Event)}
    (hgrown : Grown S h) (hS : Index.AllCurrent S es) : Index.AllCurrent h.stores es := by
  rcases hgrown with hstores | hstores
  · rwa [hstores]
  · rw [hstores]
    intro k y hy hfresh
    rw [getElem?_append] at hy
    split_ifs at hy with hk
    · exact hS k y hy hfresh
    · rw [mem_singleton.1 (mem_of_getElem? hy)] at hfresh
      cases hfresh

theorem IndexHandle.openAt_stores (p : Path) (S : List Index) :
    ⦃fun h => ⌜h.stores = S⌝⦄ openAt p
      ⦃post⟨fun _ h => ⌜Grown S h⌝, fun _ h => ⌜Grown S h⌝⟩⦄ := by
  have hdisk {α : Type} := @Job.disk_frame α (·.stores = S) fun _ _ h ↦ h
  mvcgen [openAt, Job.fail, create, hdisk]
  case vc7 he _ => exact .inr (congrArg (· ++ [({} : Index)]) he)
  case vc8 | vc9 => exact fun he ↦ .inl he
  all_goals exact .inl ‹_›

namespace Session

theorem openIndex_stores (p : Path) (S : List Index) :
    ⦃fun h => ⌜h.stores = S⌝⦄ openIndex p
      ⦃⇓ r h => ⌜Grown S h ∧ ∀ x ∈ r.1, r.2 = (h.stores.getD x.store {}).isStale⌝⦄ := by
  have hopen := IndexHandle.openAt_stores p S
  mvcgen [openIndex, hopen, IndexHandle.tables]
  case vc2 he =>
    refine ⟨he, ?_⟩
    rintro x ⟨⟩
    rfl
  case vc3 he => exact ⟨he, by simp⟩

theorem prepare_stores (reserved : Path) (config : Config) (log : Path) (S : List Index) :
    Preserves (·.stores = S) (prepare reserved config log) := by
  have hdisk {α : Type} := @Job.disk_frame α (·.stores = S) fun _ _ h ↦ h
  have hensure (label : String) (p : Path) (doing : String) (make : Disk Unit) (r : InitReport) :
      Preserves (·.stores = S) (ensure label p doing make r) := by
    mvcgen [ensure, hdisk]
  mvcgen [prepare, ensureFile, hensure, Job.ofExcept, Job.fail]

theorem openWith_stores (root : Path) (adapter : Adapter) (config : Config)
    (constitution : Constitution) (S : List Index) :
    ⦃fun h => ⌜h.stores = S⌝⦄ openWith root adapter config constitution
      ⦃post⟨fun s h => ⌜Grown S h ∧
          ∀ x ∈ s.index, s.indexStale = (h.stores.getD x.store {}).isStale⌝,
        fun _ h => ⌜Grown S h⌝⟩⦄ := by
  have hdisk {α : Type} := @Job.disk_frame α (·.stores = S) fun _ _ h ↦ h
  have hprepare (reserved : Path) (config : Config) (log : Path) :=
    prepare_stores reserved config log S
  have hindex (p : Path) := openIndex_stores p S
  mvcgen [openWith, Session.bind, Job.fail, hprepare, hdisk, hindex]
  case vc6 | vc7 | vc8 => exact fun he ↦ .inl he
  case vc9 he _ _ _ _ _ _ _ => exact .inl he

end Session

/-- A host, and the session that is open on it, if there is one. -/
structure Office where
  host : Host
  session : Option Session

namespace Office

/-- What comes of opening a session. -/
def opened : EStateM.Result Fault Host Session → Office
  | .ok s h => ⟨h, some s⟩
  | .error _ h => ⟨h, none⟩

/-- The office with the session of a desk. -/
def ofDesk (d : Desk) : Office := ⟨d.host, some d.session⟩

/-- The database of the index can be opened and read. -/
def Opens : EStateM.Result Fault Host Session → Prop
  | .ok s h => ∃ x, s.index = some x ∧ x.store < h.stores.length
  | .error _ _ => True

/-- What may happen in an office, with the events it is to the indexes. -/
inductive Step : Office → List (Nat × Index.Event) → Office → Prop where
  /-- A session is opened with any settings and rules. -/
  | opening {h : Host} {root : Path} {adapter : Adapter} {config : Config}
      {constitution : Constitution} {r : EStateM.Result Fault Host Session}
      (hopen : Session.openWith root adapter config constitution h = r) (hindex : Opens r) :
      Step ⟨h, none⟩ [] (opened r)
  | closing (h : Host) (s : Session) : Step ⟨h, some s⟩ [] ⟨h, none⟩
  /-- Files and history change, and time goes by. -/
  | elsewhere (h h' : Host) (s : Option Session) (hstores : h'.stores = h.stores) :
      Step ⟨h, s⟩ [] ⟨h', s⟩
  | call (d : Desk) (c : Errand) : Step (ofDesk d) (c.events d) (ofDesk (c.work.after d))
  /-- The session marks its index stale. -/
  | marking (d : Desk) : Step (ofDesk d) [] (ofDesk (Work.markStale.after d))
  /-- An index that no session has open is marked stale. -/
  | markingApart (h : Host) (x : IndexHandle) :
      Step ⟨h, none⟩ [] ⟨{ h with stores := h.stores.modify x.store Index.markStale }, none⟩

/-- What offices come to in which no index was built at first, with the events on the way. -/
inductive Reached : Office → List (Nat × Index.Event) → Prop where
  | start (h : Host) (hstale : ∀ y ∈ h.stores, y.isStale) : Reached ⟨h, none⟩ []
  | step {o o' : Office} {es es' : List (Nat × Index.Event)} (before : Reached o es)
      (next : Step o es' o') : Reached o' (es ++ es')

/-- What holds all the time: the session knows its index, and stores that are not stale are current. -/
structure Sound (o : Office) (es : List (Nat × Index.Event)) : Prop where
  session : ∀ s ∈ o.session, Desk.Basis.Sound (Desk.basis ⟨o.host, s⟩) es
  stores : Index.AllCurrent o.host.stores es

theorem Sound.step {o o' : Office} {es es' : List (Nat × Index.Event)} (h : o.Sound es)
    (next : Step o es' o') : o'.Sound (es ++ es') := by
  have hdesk {d : Desk} {es : List (Nat × Index.Event)} (hd : d.basis.Sound es) :
      (ofDesk d).Sound es := by
    refine ⟨?_, hd.stores⟩
    rintro s ⟨⟩
    exact hd
  cases next with
  | @opening h₀ root adapter config constitution r hopen hindex =>
    rw [append_nil]
    have hstores := triple_iff.1
      (Session.openWith_stores root adapter config constitution h₀.stores) h₀ rfl
    rw [hopen] at hstores
    cases r with
    | error x h' => exact ⟨by simp [opened], hstores.allCurrent h.stores⟩
    | ok s h' =>
      obtain ⟨hgrown, hstale⟩ := hstores
      obtain ⟨x, hx, hlt⟩ := hindex
      refine hdesk (d := ⟨h', s⟩) ⟨⟨x, h'.stores[x.store], hx, getElem?_eq_getElem hlt, ?_⟩,
        hgrown.allCurrent h.stores⟩
      exact (hstale x hx).trans (congrArg _ (getD_eq_getElem _ _ hlt))
  | closing h₀ s =>
    rw [append_nil]
    exact ⟨by simp, h.stores⟩
  | elsewhere h₀ h' s hstores =>
    rw [append_nil]
    have hcurrent : Index.AllCurrent h'.stores es := hstores.symm ▸ h.stores
    refine ⟨fun s hs ↦ ⟨?_, hcurrent⟩, hcurrent⟩
    obtain ⟨x, y, hx, hy, hknown⟩ := (h.session s hs).open_index
    exact ⟨x, y, hx, (congrArg (·[x.store]?) hstores).trans hy, hknown⟩
  | call d c => exact hdesk (Errand.sound_after (h.session _ rfl) c)
  | marking d =>
    rw [append_nil]
    refine hdesk ((Work.triple_after_iff (P := fun e ↦ e.basis.Sound es)).1 fun e he ↦ ?_)
    exact Work.markStale_sound e (show e.basis.Sound es from he ▸ h.session _ rfl)
  | markingApart h₀ x =>
    refine ⟨by simp, h.stores.modify [] fun y _ hfresh ↦ ?_⟩
    cases hfresh

theorem Reached.sound {o : Office} {es : List (Nat × Index.Event)} (h : Reached o es) :
    o.Sound es := by
  induction h with
  | start h hstale =>
    refine ⟨by simp, fun k y hy hfresh ↦ ?_⟩
    rw [hstale y (mem_of_getElem? hy)] at hfresh
    cases hfresh
  | step _ next ih => exact ih.step next

/-- What can be told of a session after it was opened. -/
theorem exists_opened {w : Job Session} {h : Host} {f : Desk → Bool}
    (hf : (do let s ← w; return f ⟨← get, s⟩ : Job Bool).run' h = some true) :
    ∃ s h', w h = .ok s h' ∧ f ⟨h', s⟩ := by
  cases hw : w h with
  | ok s h' =>
    refine ⟨s, h', rfl, ?_⟩
    simpa [EStateM.run', EStateM.run, bind, EStateM.bind, hw, get, getThe, MonadStateOf.get,
      EStateM.get, pure, EStateM.pure] using hf
  | error x h' => simp [EStateM.run', EStateM.run, bind, EStateM.bind, hw] at hf

/-- A workspace with one file that nobody has worked in. -/
def newHost : Host := { (Desk.sole "a.py" "eval(x)" ⟨"/l"⟩ {}).host with stores := [] }

end Office

end Steward
