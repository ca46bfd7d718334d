import Steward.Proofs.Index.Run

/-!
# What a call leaves in the ledger

Each decision of the rules in a call has one record in the ledger that says the same of it, and a
path that leads nowhere has one of its own. `Desk.Noted` lists the decisions and entries that came
from one desk to another; every part of a call is shown to add those it should, and `Errand.Accounts`
says what comes out of a whole call.
-/

namespace Steward

open List hiding get

set_option mvcgen.warning false

open Std.Do

/-! ## Decisions and entries -/

/-- What a decision and a record both tell: the action, its target as seen from the root, and how it
was decided. -/
structure Judgement where
  action : String
  target : String
  allowed : Bool
  deniedBy : List String
deriving DecidableEq

def Decision.judgement (root : Path) (x : Decision) : Judgement :=
  ⟨x.action.kind.name, x.action.target.relativeTo root, x.allowed, x.deniedBy⟩

def Ledger.Entry.judgement (e : Ledger.Entry) : Judgement :=
  ⟨e.action, e.target, e.allowed, e.deniedBy⟩

/-- An entry tells of a decision what there is to tell, and of which run it was. -/
structure Ledger.Entry.Tells (root : Path) (run : Option String) (x : Decision)
    (entry : Ledger.Entry) : Prop where
  judgement : entry.judgement = x.judgement root
  run : entry.run = run

theorem Ledger.Entry.Tells.of_eq {root root' : Path} {run : Option String} {x : Decision}
    {entry : Ledger.Entry} (h : entry.Tells root run x) (hroot : root = root') :
    entry.Tells root' run x := by
  rwa [← hroot]

/-- The end of a call that its caller gets as an error, be it not one of the ledger itself. -/
def Fault.isReported : Fault → Prop
  | .error x => x.kind ≠ "AuditWriteFailure"
  | .calendar => False

theorem Workspace.isAbsolute_of_resolve {w : Workspace} {t : FileTree} {raw : String} {p : Path}
    (h : w.resolve t raw = .ok p) : p.isAbsolute := by
  rw [Workspace.resolve] at h
  cases hl : Workspace.resolveLocation t raw w.root with
  | error x => simp [hl, Except.map] at h
  | ok l =>
    rw [hl] at h
    cases h
    exact Location.isAbsolute_path l

namespace Desk

/-- From `d` to `e` the rules made the decisions `ds`, and the entries `es` came into the ledger. -/
structure Noted (d : Desk) (ds : List Decision) (es : List Ledger.Entry) (e : Desk) : Prop where
  root : e.session.root = d.session.root
  decisions : e.host.decisions = d.host.decisions ++ ds
  records : ∃ rs : List Ledger.Record,
    rs.map (·.entry) = es ∧ e.host.records = d.host.records ++ rs

section Noted

variable {d e f : Desk} {ds ds' : List Decision} {es es' : List Ledger.Entry}

theorem Noted.refl (d : Desk) : d.Noted [] [] d :=
  ⟨rfl, (append_nil _).symm, [], rfl, (append_nil _).symm⟩

theorem Noted.trans (h : d.Noted ds es e) (h' : e.Noted ds' es' f) :
    d.Noted (ds ++ ds') (es ++ es') f := by
  obtain ⟨rs, rfl, hrs⟩ := h.records
  obtain ⟨rs', rfl, hrs'⟩ := h'.records
  refine ⟨h'.root.trans h.root, ?_, rs ++ rs', map_append, ?_⟩
  · rw [h'.decisions, h.decisions, append_assoc]
  · rw [hrs', hrs, append_assoc]

theorem Noted.recorded (h : d.Noted ds es e) {entry : Ledger.Entry} (h' : e.Noted [] [entry] f) :
    d.Noted ds (es ++ [entry]) f := by
  simpa using h.trans h'

/-- Work that neither asks the rules nor adds to the ledger. -/
theorem Noted.quiet (h : d.Noted ds es e) (hroot : f.session.root = e.session.root)
    (hdecisions : f.host.decisions = e.host.decisions)
    (hrecords : f.host.records = e.host.records) : d.Noted ds es f := by
  obtain ⟨rs, hes, hrs⟩ := h.records
  exact ⟨hroot.trans h.root, hdecisions.trans h.decisions, rs, hes, hrecords.trans hrs⟩

theorem Noted.judged (h : d.Noted ds es e) (a : Action) :
    d.Noted (ds ++ [e.decision a]) es (e.judged a) := by
  obtain ⟨rs, hes, hrs⟩ := h.records
  refine ⟨h.root, ?_, rs, hes, hrs⟩
  rw [← append_assoc, ← h.decisions]
  rfl

end Noted

end Desk

/-! ## The parts of a run -/

/-- What a run has when it comes to the index. -/
structure Stage where
  id : String
  target : String
  decision : Decision
  survey : Survey
  healing : Healing

namespace Stage

def report (g : Stage) (mode : RunMode) (stale : Bool) : RunReport :=
  { id := g.id, mode, target := g.target, decision := g.decision,
    violations := g.healing.violations, filesExamined := g.survey.examined.length,
    skips := g.survey.skips, files := g.healing.files, failures := g.healing.failures,
    indexStale := stale }

/-- The entry that ends a run. -/
def entry (g : Stage) (mode : RunMode) (stale : Bool) : Ledger.Entry :=
  let r := g.report mode stale
  { action := "Scan", target := g.target, allowed := true, violations := r.violationCounts,
    fixes := r.fixCounts, run := some g.id, status := some r.status.name,
    filesExamined := some r.filesExamined, skipped := r.skipCounts }

end Stage

open Desk

namespace Work

/-- The decision that a run in some mode needs before it reads its target. -/
def clearance (mode : RunMode) (id target : String) (p : Path) : Work (Option Decision) :=
  if mode = .heal then preflight id target p else pure none

/-- What a run in some mode does to the files. -/
def treat (mode : RunMode) (id target : String) (made : Option Decision) (vs : List Violation) :
    Work Healing :=
  if mode = .heal then healFiles id target made vs else pure { violations := vs }

/-- A run up to the index. -/
def stage (mode : RunMode) (raw : String) : Work Stage := do
  let id ← job Job.drawRun
  let p ← runTarget id raw
  let target := (← workspace).relative p
  let decision ← judge ⟨.scan, p⟩
  unless decision.allowed do deny .scan target (some id) decision
  let made ← clearance mode id target p
  let s ← runSurvey id target p
  let h ← treat mode id target made s.violations
  return ⟨id, target, decision, s, h⟩

/-- The rest of a run. -/
def close (mode : RunMode) (g : Stage) : Work RunReport := do
  let stale := (← get).session.indexStale
  record (g.entry mode stale)
  return g.report mode stale

theorem run_eq (mode : RunMode) (raw : String) :
    run mode raw = (do
      let g ← stage mode raw
      refreshIndex g.survey.examined (← openAfter g.healing)
      close mode g) := by
  simp only [run, stage, bind_assoc]
  refine bind_congr fun id ↦ bind_congr fun p ↦ bind_congr fun w ↦ bind_congr fun x ↦ ?_
  cases mode with
  | scan | heal =>
    cases hx : x.allowed with
    | true | false =>
      simp only [clearance, treat, close, if_true, if_false, reduceCtorEq, Bool.false_eq_true,
        bind_assoc, pure_bind]
      rfl

variable {d : Desk} {ds : List Decision} {es : List Ledger.Entry}
variable {p : Path} {vs : List Violation} {raw : String} {x : Error}

/-- Adding an entry succeeds, or the ledger itself fails. -/
theorem record_noted (entry : Ledger.Entry) (Q : PostCond Unit (.except Fault (.arg Desk .pure))) :
    ⦃fun e => ⌜(∀ f, e.Noted [] [entry] f → (Q.1 () f).down) ∧
      ∀ x f, ¬x.isReported → (Q.2.1 x f).down⌝⦄ record entry ⦃Q⦄ := by
  rintro e ⟨hok, herror⟩
  simp only [wp, EStateM.run, PredTrans.apply, record_apply, Ledger.Log.append, Disk.append, bind,
    EStateM.bind]
  cases Disk.update e.host.now e.session.log.path _ e.host.tree with
  | ok _ tree =>
    refine hok _ ⟨rfl, (append_nil _).symm, ?_⟩
    exact ⟨[e.session.log.tail.next e.host.digest e.host.now entry], rfl, rfl⟩
  | error x tree => exact herror _ _ fun h ↦ h rfl

/-- The decisions that are new when a file is healed: none if its own was made before. -/
def fresh (made : Option Decision) (x : Decision) : List Decision :=
  if made.isSome then [] else [x]

/-- Entries of a run that tell of decisions to write, by file in ascending order. -/
structure Writes (root : Path) (id : String) (ds : List Decision) (es : List Ledger.Entry) :
    Prop where
  tells : List.Forall₂ (fun x entry ↦ entry.Tells root (some id) x) ds es
  kind : ∀ x ∈ ds, x.action.kind = .write
  ascending : (es.map (·.target)).Pairwise (· < ·)

theorem mem_sortedDistinct_of_mem {x : String} {xs : List String} (h : x ∈ xs) :
    x ∈ History.sortedDistinct xs := by
  have hfoldr (ys : List String) :
      x ∈ ys → x ∈ ys.foldr (fun x rest => if rest.head? = some x then rest else x :: rest) [] := by
    induction ys with
    | nil => exact fun h ↦ h
    | cons y ys ih =>
      intro hx
      rw [foldr_cons]
      split_ifs with hhead
      · rcases mem_cons.1 hx with rfl | hx
        · exact mem_of_head? hhead
        · exact ih hx
      · exact mem_cons.2 ((mem_cons.1 hx).imp_right ih)
  exact hfoldr _ (mem_mergeSort.2 h)

/-- A single file is the only one to be healed. -/
theorem targets_of_file {target : String} (hvs : ∀ v ∈ vs, v.file = target) :
    Healing.targets vs (some target) = [target] := by
  have hmem : ∀ file ∈ Healing.targets vs (some target), file = target := by
    intro file hfile
    rcases mem_append.1 (mem_sortedDistinct hfile) with h | h
    · obtain ⟨v, hv, rfl⟩ := mem_map.1 h
      exact hvs v (mem_filter.1 hv).1
    · exact mem_singleton.1 h
  have hin : target ∈ Healing.targets vs (some target) :=
    mem_sortedDistinct_of_mem (mem_append_right _ mem_cons_self)
  have hascending : (Healing.targets vs (some target)).Pairwise (· < ·) :=
    pairwise_sortedDistinct _
  generalize Healing.targets vs (some target) = files at hmem hin hascending
  match files with
  | [] => cases hin
  | [file] => rw [hmem file mem_cons_self]
  | a :: b :: _ =>
    rw [hmem a (by simp), hmem b (by simp)] at hascending
    exact absurd (rel_of_pairwise_cons hascending mem_cons_self) (lt_irrefl _)

theorem horizon_noted : Preserves (d.Noted ds es) horizon := by
  mvcgen [horizon, Job.daysAgo]

theorem commitsSince_noted (since : Instant) : Preserves (d.Noted ds es) (commitsSince since) := by
  mvcgen [commitsSince, askHistory, fail]
  all_goals
    have h := ‹d.Noted ds es _›
    exact h.quiet rfl rfl rfl

theorem findings_noted (vs : List Violation) :
    ⦃fun e => ⌜d.Noted ds es e⌝⦄ findings vs
      ⦃⇓ _ e => ⌜d.Noted ds es e⌝⦄ := by
  mvcgen [findings]
  case vc1 he _ => exact he.quiet rfl rfl rfl

theorem updateIndex_noted (files : List String) (vs : List Violation) :
    Preserves (d.Noted ds es) (updateIndex files vs) := by
  have hhorizon := @horizon_noted d ds es
  have hcommits := @commitsSince_noted d ds es
  have hfindings := @findings_noted d ds es
  mvcgen [updateIndex, hhorizon, hcommits, hfindings, fail, IndexHandle.modify]
  case vc5 he _ _ _ => exact he.quiet rfl rfl rfl

theorem markStale_noted :
    ⦃fun e => ⌜d.Noted ds es e⌝⦄ markStale
      ⦃⇓ _ e => ⌜d.Noted ds es e⌝⦄ := by
  mvcgen [markStale, IndexHandle.modify]
  all_goals
    have h := ‹d.Noted ds es _›
    exact h.quiet rfl rfl rfl

theorem refreshIndex_noted (files : List String) (vs : List Violation) :
    PreservesElse (d.Noted ds es) (fun x _ => ¬x.isReported) (refreshIndex files vs) := by
  have hupdate := @updateIndex_noted d ds es
  have hstale := @markStale_noted d ds es
  mvcgen [refreshIndex, hupdate, hstale]
  case vc6 => exact fun he ↦ he
  case vc7 => exact fun h ↦ h

/-- What a path that leads nowhere leaves: one entry. -/
structure Lost (action : String) (id : Option String) (x : Error) (d e : Desk) : Prop where
  exists_noted : ∃ entry, d.Noted [] [entry] e ∧ entry.action = action ∧ entry.allowed = false ∧
    entry.error = some x.kind ∧ entry.run = id

/-- A question that the index answers. -/
def query {α : Type} (f : Index → Desk → Option α) : Work α := do
  let x ← freshIndex
  job (Job.dated (f x (← get)))

end Work

/-! ## Whole calls -/

/-- A call of a session. -/
inductive Errand where
  | run (mode : RunMode) (raw : String)
  | authorize (kind : ActionKind) (raw : String)
  | rebuildIndex
  | activity (days : Nat)
  | staleTodos (days : Option Nat)
  | opportunities

namespace Errand

/-- What the call does, its answer aside. -/
def work : Errand → Work Unit
  | run mode raw => do let _ ← Work.run mode raw
  | authorize kind raw => do let _ ← Work.authorize kind raw
  | rebuildIndex => do let _ ← Work.rebuildIndex
  | activity days => do let _ ← Work.activity days
  | staleTodos days => do let _ ← Work.staleTodos days
  | opportunities => do let _ ← Work.opportunities

/-- The path that the call names. -/
def raw? : Errand → Option String
  | run _ raw | authorize _ raw => some raw
  | _ => none

/-- The error of a path that leads nowhere. -/
def lost? (c : Errand) (d : Desk) : Option Error :=
  c.raw?.bind fun raw =>
    match d.workspace.resolve d.host.tree raw with
    | .ok _ => none
    | .error x => some x

/-- The run that the call is. -/
def runId? (d : Desk) : Errand → Option String
  | authorize _ _ => none
  | _ => some (Host.runId (d.host.runsDrawn + 1))

/-- Entries that account for a call: those of the rules' decisions one by one and that of a path
which leads nowhere, all of one run, and when it heals, by file and the scan last. -/
structure Accounts (c : Errand) (d : Desk) (ds : List Decision) (es : List Ledger.Entry) : Prop where
  judgements : ∃ told lost, es = told ++ lost ∧
    (told.map (·.judgement)).Perm (ds.map (·.judgement d.session.root)) ∧
    List.Forall₂ (fun entry x ↦ entry.allowed = false ∧ entry.error = some x.kind)
      lost (c.lost? d).toList
  run : ∀ entry ∈ es, entry.run = c.runId? d
  heal : ∀ raw, c = .run .heal raw → ∃ ws last, es = ws ++ [last] ∧
    (∀ entry ∈ ws, entry.action = "Write") ∧ (ws.map (·.target)).Pairwise (· < ·) ∧
    last.action = "Scan"

variable {d e : Desk}
variable {c : Errand} {raw : String}

/-- The call has entries that account for it. -/
def Accounted (c : Errand) (d e : Desk) : Prop :=
  ∃ ds es, d.Noted ds es e ∧ c.Accounts d ds es

/-- A workspace with one file to be healed. -/
def bareExceptDesk : Desk := .sole "a.py" "except:\n" ⟨"/l"⟩ {}

end Errand

end Steward
