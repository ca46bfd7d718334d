import Steward.Proofs.Index.Freshness
import Steward.Proofs.Index.Incremental
import Steward.Proofs.Index.Window

/-!
# The horizon of the index

Commits older than some days are dropped when later ones are taken in. An index holds a set of
commits with their files (`Index.Holds`), and two that hold the same look the same; so a refresh
leaves what a rebuild would, as long as the horizon is in a year without a sign.
-/

namespace Steward

open List

set_option mvcgen.warning false

open Std.Do

namespace Index

/-! ## Rows -/

section Rows

variable {r q : CommitRow} {rows : List CommitRow}

theorem mem_upsert (h : (rows.map (·.id)).Nodup) :
    q ∈ upsert r rows ↔ q = r ∨ q ∈ rows ∧ q.id ≠ r.id := by
  induction rows with
  | nil => simp [upsert]
  | cons p rows ih =>
    rw [map_cons, nodup_cons] at h
    rw [upsert]
    split_ifs with hid
    · have hother : q ∈ rows → q.id ≠ r.id := by
        rintro hq hq'
        exact h.1 (mem_map.2 ⟨q, hq, hq'.trans hid.symm⟩)
      simp only [mem_cons]
      constructor
      · exact Or.imp_right fun hq ↦ ⟨.inr hq, hother hq⟩
      · rintro (hq | ⟨rfl | hq, hne⟩)
        · exact .inl hq
        · exact absurd hid hne
        · exact .inr hq
    · rw [mem_cons, ih h.2, mem_cons]
      constructor
      · rintro (rfl | hq | hq)
        · exact .inr ⟨.inl rfl, hid⟩
        · exact .inl hq
        · exact .inr ⟨.inr hq.1, hq.2⟩
      · rintro (hq | ⟨hq | hq, hne⟩)
        · exact .inr (.inl hq)
        · exact .inl hq
        · exact .inr (.inr ⟨hq, hne⟩)

theorem nodup_upsert (h : (rows.map (·.id)).Nodup) : ((upsert r rows).map (·.id)).Nodup := by
  induction rows with
  | nil => simp [upsert]
  | cons p rows ih =>
    rw [map_cons, nodup_cons] at h
    rw [upsert]
    split_ifs with hid
    · rw [map_cons, nodup_cons, ← hid]
      exact h
    · rw [map_cons, nodup_cons]
      refine ⟨fun hmem ↦ ?_, ih h.2⟩
      obtain ⟨q, hq, hqid⟩ := mem_map.1 hmem
      rcases (mem_upsert h.2).1 hq with rfl | ⟨hq, -⟩
      · exact hid hqid.symm
      · exact h.1 (mem_map.2 ⟨q, hq, hqid⟩)

end Rows

section AddNew

variable {α : Type} [BEq α] [LawfulBEq α] {xs : List α} {a b : α}

theorem mem_addNew : b ∈ addNew xs a ↔ b ∈ xs ∨ b = a := by
  rw [addNew]
  split_ifs with h
  · exact ⟨.inl, Or.rec id fun hb ↦ hb ▸ contains_iff_mem.1 h⟩
  · rw [mem_append, mem_singleton]

theorem nodup_addNew (h : xs.Nodup) : (addNew xs a).Nodup := by
  rw [addNew]
  split_ifs with hmem
  · exact h
  · rw [← concat_eq_append]
    exact h.concat fun ha ↦ hmem (contains_iff_mem.2 ha)

end AddNew

theorem mem_foldl_addNew {id : String} {files : List String} {rows : List (String × String)}
    {p : String × String} :
    p ∈ files.foldl (fun rows f ↦ addNew rows (id, f)) rows ↔
      p ∈ rows ∨ ∃ f ∈ files, p = (id, f) := by
  induction files generalizing rows with
  | nil => simp
  | cons f files ih => simp only [foldl_cons, ih, mem_addNew, exists_mem_cons_iff, or_assoc]

theorem nodup_foldl_addNew {id : String} {files : List String} {rows : List (String × String)}
    (h : rows.Nodup) : (files.foldl (fun rows f ↦ addNew rows (id, f)) rows).Nodup := by
  induction files generalizing rows with
  | nil => exact h
  | cons f files ih => exact ih (nodup_addNew h)

/-! ## The commits an index holds -/

/-- The row of a commit. -/
def rowOf (c : Commit) : CommitRow := ⟨c.id, c.author, c.timestamp.stamp, c.summary⟩

/-- An index holds some commits with their files, and no others. -/
structure Holds (x : Index) (W : Commit → Prop) : Prop where
  mem_commits : ∀ r, r ∈ x.commits ↔ ∃ c, W c ∧ rowOf c = r
  mem_files : ∀ id file, (id, file) ∈ x.commitFiles ↔ ∃ c, W c ∧ c.id = id ∧ file ∈ c.files
  nodup_ids : (x.commits.map (·.id)).Nodup
  nodup_files : x.commitFiles.Nodup

/-- Commits that are told apart by their identities. -/
def Apart (W : Commit → Prop) : Prop := ∀ ⦃c⦄, W c → ∀ ⦃c'⦄, W c' → c.id = c'.id → c = c'

section Holds

variable {x y : Index} {W V : Commit → Prop}

theorem Holds.congr (h : x.Holds W) (hWV : ∀ c, W c ↔ V c) : x.Holds V := by
  obtain rfl : W = V := funext fun c ↦ propext (hWV c)
  exact h

theorem Holds.of_eq (h : x.Holds W) (hcommits : y.commits = x.commits)
    (hfiles : y.commitFiles = x.commitFiles) : y.Holds W := by
  refine ⟨?_, ?_, ?_, ?_⟩
  · rw [hcommits]
    exact h.mem_commits
  · rw [hfiles]
    exact h.mem_files
  · rw [hcommits]
    exact h.nodup_ids
  · rw [hfiles]
    exact h.nodup_files

theorem holds_empty (hcommits : x.commits = []) (hfiles : x.commitFiles = []) :
    x.Holds fun _ ↦ False := by
  refine ⟨?_, ?_, ?_, ?_⟩ <;> simp [hcommits, hfiles]

theorem Holds.addCommit (h : x.Holds W) {c : Commit} (hc : ∀ c', W c' → c'.id = c.id → c' = c) :
    (x.addCommit c).Holds fun c' ↦ W c' ∨ c' = c := by
  refine ⟨fun r ↦ ?_, fun id file ↦ ?_, nodup_upsert h.nodup_ids, nodup_foldl_addNew h.nodup_files⟩
  · refine (mem_upsert h.nodup_ids).trans ?_
    rw [h.mem_commits]
    constructor
    · rintro (rfl | ⟨⟨c', hc', rfl⟩, -⟩)
      · exact ⟨c, .inr rfl, rfl⟩
      · exact ⟨c', .inl hc', rfl⟩
    · rintro ⟨c', hc' | rfl, rfl⟩
      · by_cases hid : c'.id = c.id
        · rw [hc c' hc' hid]
          exact .inl rfl
        · exact .inr ⟨⟨c', hc', rfl⟩, hid⟩
      · exact .inl rfl
  · refine mem_foldl_addNew.trans ?_
    rw [h.mem_files]
    constructor
    · rintro (⟨c', hc', hid, hfile⟩ | ⟨f, hf, heq⟩)
      · exact ⟨c', .inl hc', hid, hfile⟩
      · cases heq
        exact ⟨c, .inr rfl, rfl, hf⟩
    · rintro ⟨c', hc' | rfl, rfl, hfile⟩
      · exact .inl ⟨c', hc', rfl, hfile⟩
      · exact .inr ⟨file, hfile, rfl⟩

theorem Holds.addCommits (h : x.Holds W) {cs : List Commit} (hapart : Apart fun c ↦ W c ∨ c ∈ cs) :
    (x.addCommits cs).Holds fun c ↦ W c ∨ c ∈ cs := by
  induction cs generalizing x W with
  | nil => exact h.congr fun c ↦ by simp
  | cons c cs ih =>
    have hfirst := h.addCommit (c := c) fun c' hc' hid ↦
      hapart (.inl hc') (.inr mem_cons_self) hid
    have hall (c' : Commit) : (W c' ∨ c' = c) ∨ c' ∈ cs ↔ W c' ∨ c' ∈ c :: cs := by
      rw [mem_cons, or_assoc]
    exact (ih hfirst fun a ha b hb ↦ hapart ((hall a).1 ha) ((hall b).1 hb)).congr hall

theorem Holds.dropBefore (h : x.Holds W) (hapart : Apart W) (cutoff : String) :
    (x.dropBefore cutoff).Holds fun c ↦ W c ∧ ¬c.timestamp.stamp < cutoff := by
  have hrow (r : CommitRow) : (r ∈ x.commits ∧ r.committedAt < cutoff) ↔
      ∃ c, (W c ∧ c.timestamp.stamp < cutoff) ∧ rowOf c = r := by
    rw [h.mem_commits]
    constructor
    · rintro ⟨⟨c, hc, rfl⟩, hold⟩
      exact ⟨c, ⟨hc, hold⟩, rfl⟩
    · rintro ⟨c, ⟨hc, hold⟩, rfl⟩
      exact ⟨⟨c, hc, rfl⟩, hold⟩
  refine ⟨fun r ↦ ?_, fun id file ↦ ?_, ?_, h.nodup_files.filter _⟩
  · refine mem_filter.trans ?_
    rw [h.mem_commits, Bool.not_eq_true', decide_eq_false_iff_not]
    constructor
    · rintro ⟨⟨c, hc, rfl⟩, hkept⟩
      exact ⟨c, ⟨hc, hkept⟩, rfl⟩
    · rintro ⟨c, ⟨hc, hkept⟩, rfl⟩
      exact ⟨⟨c, hc, rfl⟩, hkept⟩
  · refine mem_filter.trans ?_
    have hdropped : ((x.commits.filter (·.committedAt < cutoff)).map (·.id)).contains id ↔
        ∃ c, (W c ∧ c.timestamp.stamp < cutoff) ∧ c.id = id := by
      rw [contains_iff_mem, mem_map]
      constructor
      · rintro ⟨r, hr, rfl⟩
        obtain ⟨hr, hold⟩ := mem_filter.1 hr
        obtain ⟨c, hc, rfl⟩ := (hrow r).1 ⟨hr, of_decide_eq_true hold⟩
        exact ⟨c, hc, rfl⟩
      · rintro ⟨c, hc, rfl⟩
        obtain ⟨hr, hold⟩ := (hrow (rowOf c)).2 ⟨c, hc, rfl⟩
        exact ⟨rowOf c, mem_filter.2 ⟨hr, decide_eq_true hold⟩, rfl⟩
    rw [h.mem_files, Bool.not_eq_true', Bool.eq_false_iff, ne_eq, hdropped]
    constructor
    · rintro ⟨⟨c, hc, rfl, hfile⟩, hkept⟩
      exact ⟨c, ⟨hc, fun hold ↦ hkept ⟨c, ⟨hc, hold⟩, rfl⟩⟩, rfl, hfile⟩
    · rintro ⟨c, ⟨hc, hkept⟩, rfl, hfile⟩
      refine ⟨⟨c, hc, rfl, hfile⟩, ?_⟩
      rintro ⟨c', ⟨hc', hold⟩, hid⟩
      exact hkept (hapart hc' hc hid ▸ hold)
  · exact h.nodup_ids.sublist (filter_sublist.map _)

/-- The files in an index are those of commits in it. -/
theorem Holds.exists_commit (h : x.Holds W) {id file : String} (hrow : (id, file) ∈ x.commitFiles) :
    ∃ r ∈ x.commits, r.id = id := by
  obtain ⟨c, hc, rfl, -⟩ := (h.mem_files id file).1 hrow
  exact ⟨rowOf c, (h.mem_commits _).2 ⟨c, hc, rfl⟩, rfl⟩

theorem Holds.commits_eq_nil_iff (h : x.Holds W) : x.commits = [] ↔ ∀ c, ¬W c := by
  rw [eq_nil_iff_forall_not_mem]
  constructor
  · exact fun hnone c hc ↦ hnone (rowOf c) ((h.mem_commits _).2 ⟨c, hc, rfl⟩)
  · intro hnone r hr
    obtain ⟨c, hc, -⟩ := (h.mem_commits r).1 hr
    exact hnone c hc

/-- Two indices that hold the same commits show the same. -/
theorem Holds.commits_snapshot_eq (hx : x.Holds W) (hy : y.Holds W) :
    x.snapshot.commits = y.snapshot.commits := by
  have htrans (a b c : CommitRow) (hab : decide (a.id ≤ b.id)) (hbc : decide (b.id ≤ c.id)) :
      decide (a.id ≤ c.id) :=
    decide_eq_true ((of_decide_eq_true hab).trans (of_decide_eq_true hbc))
  have htotal (a b : CommitRow) : decide (a.id ≤ b.id) || decide (b.id ≤ a.id) := by
    rw [Bool.or_eq_true, decide_eq_true_iff, decide_eq_true_iff]
    exact le_total _ _
  have hrows : (x.commits.mergeSort fun a b ↦ a.id ≤ b.id) =
      y.commits.mergeSort fun a b ↦ a.id ≤ b.id := by
    have hperm : x.commits.Perm y.commits :=
      (perm_ext_iff_of_nodup hx.nodup_ids.of_map hy.nodup_ids.of_map).2 fun r ↦ by
        rw [hx.mem_commits, hy.mem_commits]
    refine ((mergeSort_perm _ _).trans
      (hperm.trans (mergeSort_perm _ _).symm)).eq_of_pairwise ?_
      (pairwise_mergeSort htrans htotal _) (pairwise_mergeSort htrans htotal _)
    intro a b ha hb hab hba
    refine inj_on_of_nodup_map hx.nodup_ids (mem_mergeSort.1 ha)
      (hperm.mem_iff.2 (mem_mergeSort.1 hb)) ?_
    exact le_antisymm (of_decide_eq_true hab) (of_decide_eq_true hba)
  have hfiles : x.commitFiles.Perm y.commitFiles :=
    (perm_ext_iff_of_nodup hx.nodup_files hy.nodup_files).2 fun ⟨id, file⟩ ↦ by
      rw [hx.mem_files, hy.mem_files]
  rw [snapshot, snapshot, hrows]
  refine map_congr_left fun r _ ↦ ?_
  have hsorted : (((x.commitFiles.filter (·.1 = r.id)).map (·.2)).mergeSort fun a b ↦ a ≤ b) =
      ((y.commitFiles.filter (·.1 = r.id)).map (·.2)).mergeSort fun a b ↦ a ≤ b :=
    ((mergeSort_perm _ _).trans (((hfiles.filter _).map _).trans
      (mergeSort_perm _ _).symm)).eq_of_pairwise' (pairwise_mergeSort' _ _)
      (pairwise_mergeSort' _ _)
  rw [hsorted]

theorem commits_snapshot_eq_nil_iff : x.snapshot.commits = [] ↔ x.commits = [] := by
  rw [snapshot, map_eq_nil_iff, ← length_eq_zero_iff, length_mergeSort,
    length_eq_zero_iff]

/-! ## Rebuilding and refreshing -/

theorem addFindings_frame (x : Index) (fs : List Finding) :
    (x.addFindings fs).commits = x.commits ∧ (x.addFindings fs).commitFiles = x.commitFiles := by
  induction fs generalizing x with
  | nil => exact ⟨rfl, rfl⟩
  | cons f fs ih =>
    have hstep : (x.addFinding f).commits = x.commits ∧
        (x.addFinding f).commitFiles = x.commitFiles := by
      rw [addFinding]
      split_ifs
      · exact ⟨rfl, rfl⟩
      · exact ⟨rfl, rfl⟩
    exact ⟨(ih _).1.trans hstep.1, (ih _).2.trans hstep.2⟩

theorem Holds.replaceFindings (h : x.Holds W) (files : List String) (fs : List Finding) :
    (x.replaceFindings files fs).Holds W :=
  h.of_eq (addFindings_frame _ fs).1 (addFindings_frame _ fs).2

theorem holds_rebuild (now : Instant) {cs : List Commit} (hcs : Apart (· ∈ cs)) (fs : List Finding) :
    (rebuild now cs fs).Holds (· ∈ cs) := by
  have hempty : ({ builtAt := some now.stamp } : Index).Holds fun _ ↦ False := holds_empty rfl rfl
  have hadded : (addCommits { builtAt := some now.stamp } cs).Holds (· ∈ cs) :=
    (hempty.addCommits (by simpa using hcs)).congr fun c ↦ by simp
  exact hadded.of_eq (addFindings_frame _ fs).1 (addFindings_frame _ fs).2

theorem Holds.apply (h : x.Holds W) (u : Update) (hapart : Apart fun c ↦ W c ∨ c ∈ u.commits) :
    (u.apply x).Holds fun c ↦ (W c ∨ c ∈ u.commits) ∧ ¬c.timestamp.stamp < u.since.stamp :=
  ((h.addCommits hapart).dropBefore hapart u.since.stamp).replaceFindings u.files u.rows

end Holds

end Index

/-! ## Horizons -/

namespace Instant

variable {t s : Instant}

theorem whole_eq_iff : t.whole = t ↔ t.nanos % 1000000000 = 0 := by
  obtain ⟨s, n⟩ := t
  rw [whole, Instant.mk.injEq, nanosPerSecond]
  dsimp only
  omega

theorem earlier_whole {now : Instant} (h : now.whole = now) (days : Nat) :
    (now.earlier days).whole = now.earlier days := by
  rw [whole_eq_iff] at h ⊢
  by_cases hroll : now.Rolls days
  · rw [earlier_of_rolls hroll, nanosPerSecond]
    dsimp only
    omega
  · rw [earlier_of_not_rolls hroll]
    exact h

/-- Nothing lies between a second and the instants in it. -/
theorem le_whole_iff (h : s.whole = s) : s.le t.whole ↔ s.le t := by
  rw [whole_eq_iff] at h
  rw [le_iff, le_iff, whole, nanosPerSecond]
  dsimp only
  omega

/-- The text of a commit's time tells whether it is before the horizon, unless that is in a year
with a plus sign. -/
theorem Common.not_stamp_lt_iff (hs : s.Common) (ht : t.Proper) (hwhole : t.whole = t)
    (hyear : t.date.year ≤ 9999) : ¬s.stamp < t.stamp ↔ t.le s := by
  rw [hs.stamp_lt_iff ht hyear, not_not, hwhole, le_whole_iff hwhole]

theorem Common.not_le_of_year (hs : s.Common) (hwhole : t.whole = t) (hyear : 9999 < t.date.year) :
    ¬t.le s := by
  rw [← le_whole_iff hwhole, ← hwhole, not_whole_le_iff]
  exact .inl (date_lt_iff.1 (.inl (hs.year.2.trans_lt hyear)))

end Instant

open Index

/-- A history whose commits are told apart by their identities, made in years with four digits. -/
structure Annals (H : List Commit) : Prop where
  apart : Apart (· ∈ H)
  common : ∀ c ∈ H, c.timestamp.Common

namespace Desk

/-- The history tells just the commits of a list that are not older than an instant. -/
def Tells (d : Desk) (H : List Commit) : Prop :=
  ∀ since, ∃ cs, (d.host.history d.session.adapter).commitsSince d.session.root since = .ok cs ∧
    ∀ c, c ∈ cs ↔ c ∈ H ∧ since.le c.timestamp

/-- The session has the same index at `e` as at `d`, with the same rows; all else may have changed. -/
structure SameIndex (d e : Desk) : Prop where
  index : e.session.index = d.session.index
  indexStale : e.session.indexStale = d.session.indexStale
  stores : e.host.stores = d.host.stores

theorem SameIndex.tables? {d e : Desk} (h : d.SameIndex e) : e.basis.tables? = d.basis.tables? := by
  rw [Basis.tables?, Basis.tables?]
  simp only [Desk.basis, h.index, h.stores]

end Desk

open Desk

namespace Work

variable {d : Desk}

/-- The index at a basis is that of a desk, filled anew with the commits that the history tells of. -/
def Refills (d : Desk) (b : Basis) : Prop :=
  ∃ since cs rows, d.Answers since cs ∧ b = d.basis.rebuilt (Index.rebuild d.host.now cs rows)

theorem Refills.akin {e : Desk} (h : Refills d e.basis) : d.Akin e := by
  obtain ⟨_, _, _, _, hbasis⟩ := h
  exact ⟨congrArg Basis.setting hbasis, congrArg Basis.config hbasis, congrArg Basis.digest hbasis⟩

theorem refillIndex_refills (hindex : d.session.index.isSome) :
    ⦃fun e => ⌜d.Still e⌝⦄ refillIndex
      ⦃⇓? _ e => ⌜Refills d e.basis⌝⦄ := by
  have hhorizon := horizon_spec (d := d)
  have hcommits := commitsSince_spec (d := d)
  have hfindings := findings_spec (d := d)
  mvcgen [refillIndex, hhorizon, hcommits, hfindings, survey, Job.ofExcept, Job.fail, openedIndex,
    IndexHandle.modify]
  case vc2 he _ _ => exact he.1
  case vc3 he => exact he.1
  case vc4 since e hsince s hs cs _ hcs rows e' he' x hx _ _ _ =>
    refine ⟨since, cs, rows, ⟨hsince.2, hcs.2⟩, ?_⟩
    rw [← he'.1.now]
    exact congrArg (fun b : Basis ↦ { b with indexStale := false }) (he'.1.basis_modified hx _)
  case vc5 he hnone =>
    rw [← he.1.index, hnone] at hindex
    cases hindex

theorem refilled_refills (hindex : d.session.index.isSome) :
    ⦃fun e => ⌜d.Still e⌝⦄ refilled
      ⦃⇓? r e => ⌜r.2.isOk → Refills d e.basis⌝⦄ := by
  have hrefill := refillIndex_refills hindex
  have hrecord (entry : Ledger.Entry) := triple_true (record entry)
  have hdeny (run : String) (x : Decision) :
      ⦃fun _ => ⌜True⌝⦄ (deny .scan "." (some run) x : Work Unit)
        ⦃⇓? _ _ => ⌜False⌝⦄ := by
    mvcgen [deny, fail, hrecord]
  mvcgen [refilled, drawRun_spec, hrefill, hdeny]
  case vc1 he _ _ => exact (he.trans (still_drawn _)).trans (still_judged _ _)
  case vc2 he => exact fun _ ↦ he
  case vc3 => exact fun hok ↦ by cases hok

theorem closeRebuild_refills (run : String) (r : Except Fault (RebuildSummary × Counts)) :
    ⦃fun e => ⌜r.isOk → Refills d e.basis⌝⦄ closeRebuild run r
      ⦃⇓? _ e => ⌜Refills d e.basis⌝⦄ := by
  rcases r with (_ | _) | ⟨_, _⟩
  · have hmark := triple_true markStale
    have hrecord (entry : Ledger.Entry) := triple_true (record entry)
    mvcgen [closeRebuild, hmark, hrecord, fail]
  · mvcgen [closeRebuild]
  · have hrecord (entry : Ledger.Entry) :=
      keeps_of_basis (fun b ↦ @record_basis b entry) (Refills d)
    mvcgen [closeRebuild, hrecord]
    case vc1 he => exact he rfl

/-- A rebuild puts the commits that the history tells of into the index. -/
theorem refills_of_rebuildIndex (hindex : d.session.index.isSome) {summary : RebuildSummary}
    {e : Desk} (h : rebuildIndex d = .ok summary e) : Refills d e.basis := by
  have hrefilled := refilled_refills hindex
  have hclose := @closeRebuild_refills d
  have hspec : ⦃fun e => ⌜d.Still e⌝⦄ rebuildIndex
      ⦃⇓? _ e => ⌜Refills d e.basis⌝⦄ := by
    rw [rebuildIndex_eq]
    mvcgen [hrefilled, hclose]
  exact ok_of_triple hspec ⟨rfl, rfl⟩ h

end Work

namespace Desk

/-! ## Refresh after refresh -/

/-- States of a session that starts with a rebuild of its index and goes on by refreshes, while the
history gains commits and the clock goes as it likes. -/
inductive KeptUp : Desk → List Commit → Prop
  | rebuilt {d e : Desk} {H : List Commit} {x : Index} {summary : RebuildSummary}
    (open_index : d.basis.tables? = some x) (annals : Annals H) (tells : d.Tells H)
    (run : Work.rebuildIndex d = .ok summary e) : KeptUp e H
  | refreshed {d e f : Desk} {H H' : List Commit} {since : Instant} {files : List String}
    {vs : List Violation} (before : KeptUp d H) (same : d.SameIndex e) (grown : H ⊆ H')
    (annals : Annals H') (tells : e.Tells H')
    (horizon : e.host.now.minusDays? e.session.config.memory.historyDays = some since)
    (run : Work.refreshIndex files vs e = .ok () f) : KeptUp f H'

/-- The index is open and fresh, and it holds commits of the history. -/
structure Holding (d : Desk) (H : List Commit) (x : Index) (W : Commit → Prop) : Prop where
  tables : d.basis.tables? = some x
  fresh : d.session.indexStale = false
  holds : x.Holds W
  known : ∀ c, W c → c ∈ H

section KeptUp

variable {d e f : Desk} {H H' : List Commit} {since : Instant} {cs : List Commit} {x : Index}
  {W : Commit → Prop}

theorem Tells.mem_iff (h : d.Tells H) (hanswers : d.Answers since cs) {c : Commit} :
    c ∈ cs ↔ c ∈ H ∧ since.le c.timestamp := by
  obtain ⟨cs', hcs', hmem⟩ := h since
  cases hanswers.commits.symm.trans hcs'
  exact hmem c

theorem Tells.of_akin (h : d.Tells H) (he : d.Akin e) : e.Tells H := by
  intro since
  rw [he.history.1, he.root]
  exact h since

/-- After a rebuild the index holds the commits since the horizon. -/
theorem Tells.holding_of_refills (h : d.Tells H) (hannals : Annals H)
    (hopen : d.basis.tables? = some x) (hrefills : Work.Refills d e.basis) :
    ∃ since z, d.host.now.minusDays? d.session.config.memory.historyDays = some since ∧
      e.Holding H z fun c ↦ c ∈ H ∧ since.le c.timestamp := by
  obtain ⟨since, cs, rows, hanswers, hbasis⟩ := hrefills
  have hmem (c : Commit) := h.mem_iff hanswers (c := c)
  have hcs : Apart (· ∈ cs) := fun c hc c' hc' ↦
    hannals.apart ((hmem c).1 hc).1 ((hmem c').1 hc').1
  refine ⟨since, _, hanswers.horizon, ?_, congrArg Basis.indexStale hbasis,
    (holds_rebuild d.host.now hcs rows).congr hmem, fun c hc ↦ hc.1⟩
  rw [hbasis]
  exact (d.basis.tables?_modified _).trans (by rw [hopen]; rfl)

/-- One refresh: what is told of comes in, and what is before the horizon in the order of texts goes
out. -/
theorem Holding.refresh (h : d.Holding H x W) (hsame : d.SameIndex e) (hgrown : H ⊆ H')
    (hannals : Annals H') (htells : e.Tells H')
    (hsince : e.host.now.minusDays? e.session.config.memory.historyDays = some since)
    (files : List String) (vs : List Violation) :
    ∃ f y, Work.refreshIndex files vs e = .ok () f ∧ e.Akin f ∧ f.host.now = e.host.now ∧
      f.Holding H' y fun c ↦
        (W c ∨ c ∈ H' ∧ since.le c.timestamp) ∧ ¬c.timestamp.stamp < since.stamp := by
  have htables : e.basis.tables? = some x := hsame.tables?.trans h.tables
  have hready : e.Ready := by
    obtain ⟨cs, hcs, -⟩ := htells since
    exact ⟨Basis.isSome_index htables, since, cs, hsince, hcs⟩
  obtain ⟨u, f, hresult, -, hakin, ⟨-, hstale | hnot⟩ | ⟨-, since', cs, hanswers, hbasis⟩⟩ |
    ⟨y, f, -, hnot⟩ := cases_of_triple (Work.refreshIndex_spec (d := e) files vs) ⟨rfl, rfl⟩
  · rw [hsame.indexStale, h.fresh] at hstale
    cases hstale
  · exact absurd hready hnot
  · cases hsince.symm.trans hanswers.horizon
    have hmem (c : Commit) := htells.mem_iff hanswers (c := c)
    have hapart : Apart fun c ↦ W c ∨ c ∈ cs := by
      have hknown {c : Commit} (hc : W c ∨ c ∈ cs) : c ∈ H' :=
        hc.elim (fun hc ↦ hgrown (h.known c hc)) fun hc ↦ ((hmem c).1 hc).1
      exact fun c hc c' hc' ↦ hannals.apart (hknown hc) (hknown hc')
    have hfresh : f.session.indexStale = e.session.indexStale := congrArg Basis.indexStale hbasis
    refine ⟨f, _, hresult, hakin, congrArg Basis.now hbasis, ?_, ?_,
      (h.holds.apply ⟨since, cs, files, e.rows vs⟩ hapart).congr fun c ↦ by rw [hmem], ?_⟩
    · rw [hbasis, Basis.tables?_modified, htables]
      rfl
    · rw [hfresh, hsame.indexStale, h.fresh]
    · rintro c ⟨hc | hc, -⟩
      · exact hgrown (h.known c hc)
      · exact hc.1
  · exact absurd hready hnot

/-- All along the index holds commits of the history. -/
theorem KeptUp.holding (h : KeptUp d H) : ∃ x W, d.Holding H x W := by
  induction h with
  | rebuilt hopen hannals htells hrun =>
    obtain ⟨since, z, -, hz⟩ := htells.holding_of_refills hannals hopen
      (Work.refills_of_rebuildIndex (Basis.isSome_index hopen) hrun)
    exact ⟨z, _, hz⟩
  | refreshed _ hsame hgrown hannals htells hsince hrun ih =>
    obtain ⟨x, W, hx⟩ := ih
    obtain ⟨f, y, hf, -, -, hy⟩ := hx.refresh hsame hgrown hannals htells hsince _ _
    cases hf.symm.trans hrun
    exact ⟨y, _, hy⟩

/-- After every refresh the index holds what a rebuild would put there, unless the horizon is in a
year that needs a plus sign: then nothing goes out. -/
theorem refresh_slides_window (hd : KeptUp d H) (hsame : d.SameIndex e) (hgrown : H ⊆ H')
    (hannals : Annals H') (htells : e.Tells H') (hproper : e.host.now.Proper)
    (hwhole : e.host.now.whole = e.host.now)
    (hsince : e.host.now.minusDays? e.session.config.memory.historyDays = some since)
    (files : List String) (vs : List Violation) :
    ∃ x f y, d.basis.tables? = some x ∧ Work.refreshIndex files vs e = .ok () f ∧
      KeptUp f H' ∧ f.basis.tables? = some y ∧
      (∀ id file, (id, file) ∈ y.commitFiles → ∃ r ∈ y.commits, r.id = id) ∧
      (since.date.year ≤ 9999 → y.Holds fun c ↦ c ∈ H' ∧ since.le c.timestamp) ∧
      (9999 < since.date.year → y.snapshot.commits = x.snapshot.commits) ∧
      ∀ summary g, Work.rebuildIndex f = .ok summary g → ∃ z, g.basis.tables? = some z ∧
        (z.Holds fun c ↦ c ∈ H' ∧ since.le c.timestamp) ∧
        (y.snapshot.commits = z.snapshot.commits ↔ since.date.year ≤ 9999 ∨ x.commits = []) := by
  obtain ⟨x, W, hx⟩ := hd.holding
  obtain ⟨f, y, hf, hakin, hnow, hy⟩ := hx.refresh hsame hgrown hannals htells hsince files vs
  have hcut := (Instant.eq_earlier_of_minusDays? hsince).1
  have hcutProper : since.Proper := hcut ▸ hproper.earlier _
  have hcutWhole : since.whole = since := by
    rw [hcut]
    exact Instant.earlier_whole hwhole _
  have hkept (hyear : since.date.year ≤ 9999) : y.Holds fun c ↦ c ∈ H' ∧ since.le c.timestamp := by
    refine hy.holds.congr fun c ↦ ⟨fun hc ↦ ?_, fun hc ↦ ⟨.inr hc, ?_⟩⟩
    · have hmem := hy.known c hc
      exact ⟨hmem, ((hannals.common c hmem).not_stamp_lt_iff hcutProper hcutWhole hyear).1 hc.2⟩
    · exact ((hannals.common c hc.1).not_stamp_lt_iff hcutProper hcutWhole hyear).2 hc.2
  have hnone (hyear : 9999 < since.date.year) (c : Commit) : ¬(c ∈ H' ∧ since.le c.timestamp) :=
    fun hc ↦ (hannals.common c hc.1).not_le_of_year hcutWhole hyear hc.2
  have hall (hyear : 9999 < since.date.year) : y.Holds W := by
    refine hy.holds.congr fun c ↦ ⟨fun hc ↦ hc.1.resolve_right (hnone hyear c), fun hc ↦ ?_⟩
    have hmem := hgrown (hx.known c hc)
    exact ⟨.inl hc, ((hannals.common c hmem).lt_stamp_of_sign (.inr hyear)).asymm⟩
  refine ⟨x, f, y, hx.tables, hf, .refreshed hd hsame hgrown hannals htells hsince hf, hy.tables,
    fun _ _ hrow ↦ hy.holds.exists_commit hrow, hkept,
    fun hyear ↦ (hall hyear).commits_snapshot_eq hx.holds, fun summary g hrebuild ↦ ?_⟩
  obtain ⟨since', z, hsince', hz⟩ := (htells.of_akin hakin).holding_of_refills hannals hy.tables
    (Work.refills_of_rebuildIndex (Basis.isSome_index hy.tables) hrebuild)
  rw [hnow, hakin.config] at hsince'
  cases hsince.symm.trans hsince'
  refine ⟨z, hz.tables, hz.holds, ?_⟩
  rcases le_or_gt since.date.year 9999 with hyear | hyear
  · exact iff_of_true ((hkept hyear).commits_snapshot_eq hz.holds) (.inl hyear)
  · have hempty : z.snapshot.commits = [] :=
      commits_snapshot_eq_nil_iff.2 (hz.holds.commits_eq_nil_iff.2 (hnone hyear))
    rw [hempty, commits_snapshot_eq_nil_iff, (hall hyear).commits_eq_nil_iff,
      ← hx.holds.commits_eq_nil_iff, or_iff_right hyear.not_ge]

end KeptUp

/-- A commit in 2001. -/
def soleCommit : Commit := ⟨"c", "Ada", ⟨1000000000, 0⟩, "", ["a.py"]⟩

/-- The desk of a workspace with one commit, of which no days are kept. -/
def briefDesk : Desk :=
  let d := Desk.sole "a.py" "" ⟨"/l"⟩ {}
  { d with
    host.given.commitsSince := fun _ since => .ok ([soleCommit].filter fun c => since.le c.timestamp)
    session.config.memory.historyDays := 0 }

theorem briefDesk_tells {d : Desk} (h : briefDesk.Akin d) : d.Tells [soleCommit] := by
  refine Tells.of_akin (fun since ↦ ⟨_, rfl, fun c ↦ ?_⟩) h
  rw [mem_filter]

theorem annals_soleCommit : Annals [soleCommit] := by
  refine ⟨fun c hc c' hc' _ ↦ ?_, ?_⟩
  · rw [mem_singleton.1 hc, mem_singleton.1 hc']
  · exact forall_mem_singleton.2 ⟨⟨by decide, by decide⟩, by decide⟩

/-- The commit stays when the clock comes to the year 10000, and a rebuild drops it. -/
theorem refresh_slides_window_late :
    ∃ summary d f y again g z, Work.rebuildIndex briefDesk = .ok summary d ∧
      KeptUp d [soleCommit] ∧
      Work.refreshIndex [] [] (d.atTime ⟨253402387139, 0⟩) = .ok () f ∧
      f.basis.tables? = some y ∧ Work.rebuildIndex f = .ok again g ∧ g.basis.tables? = some z ∧
      y.snapshot.commits ≠ z.snapshot.commits := by
  let d := Work.rebuildIndex.after briefDesk
  let e := d.atTime ⟨253402387139, 0⟩
  obtain ⟨summary, hrebuild⟩ :=
    Work.exists_ok_of_run' (w := Work.rebuildIndex) (d := briefDesk) (by decide +kernel)
  have htended : KeptUp d [soleCommit] :=
    .rebuilt rfl annals_soleCommit (briefDesk_tells ⟨rfl, rfl, rfl⟩) hrebuild
  have hakin : briefDesk.Akin d := (Work.refills_of_rebuildIndex rfl hrebuild).akin
  have hsince : e.host.now.minusDays? e.session.config.memory.historyDays =
      some ⟨253402387139, 0⟩ := by decide +kernel
  obtain ⟨x, f, y, hx, hf, -, hy, -, -, -, hz⟩ := refresh_slides_window (e := e) htended
    ⟨rfl, rfl, rfl⟩ (List.Subset.refl _) annals_soleCommit
    (briefDesk_tells (hakin.trans ⟨rfl, rfl, rfl⟩)) ⟨by decide, by decide⟩ (by decide)
    hsince [] []
  obtain ⟨again, hagain⟩ : ∃ again, Work.rebuildIndex f = .ok again (Work.rebuildIndex.after f) := by
    obtain ⟨again, h⟩ := Work.exists_ok_of_run' (w := Work.rebuildIndex)
      (d := (Work.refreshIndex [] []).after e) (by decide +kernel)
    rw [Work.after, hf] at h
    exact ⟨again, h⟩
  obtain ⟨z, hz, -, hiff⟩ := hz again _ hagain
  refine ⟨summary, d, f, y, again, _, z, hrebuild, htended, hf, hy, hagain, hz, ?_⟩
  rw [ne_eq, hiff, not_or]
  refine ⟨by decide, fun hnil ↦ ?_⟩
  have hone : d.basis.tables?.map (·.commits.length) = some 1 := by decide +kernel
  rw [hx, Option.map_some, hnil] at hone
  cases hone

end Desk

end Steward
