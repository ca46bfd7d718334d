import Steward.Constitution.Standard
import Steward.Proofs.Location

/-!
# What the rules allow

An action is allowed if every rule allows it, `Constitution.allowed_judge_iff`. A decision goes
through the rules in order, and a rule that is added at the end can only deny more:
`Constitution.judge_conjoins`. The standard rules allow a place in the workspace to be written
exactly if it is tracked, is not the root, and has no name on the way that tells of credentials,
`Rule.standard_allows_write_iff`.
-/

namespace Steward

open Location List

theorem Text.contains_iff {needle cs : List Char} : Text.contains needle cs ↔ needle <:+: cs := by
  induction cs with
  | nil => simp [Text.contains]
  | cons c cs ih => simp [Text.contains, ih, infix_cons_iff]

namespace Constitution

theorem allowed_judge_iff {c : Constitution} {a : Action} {w : Workspace} :
    (c.judge a w).allowed ↔ ∀ r ∈ c.rules, r.predicate a w = .allow := by
  simp [judge, Decision.allowed, dissenters]

end Constitution

/-! ## Decisions and rules -/

/-- The decision tells of the rules, each in its place: what every rule says, and for the rules that
deny, in the same order, their ids and their words. -/
structure Decision.Tells (d : Decision) (rules : List Rule) (w : Workspace) : Prop where
  evaluations : List.Forall₂ (fun r e ↦ e.ruleId = r.id ∧ e.domain = r.domain ∧
    e.verdict = r.predicate d.action w) rules d.evaluations
  deniedBy : List.Forall₂ (fun r id ↦ id = r.id)
    (rules.filter fun r ↦ r.predicate d.action w ≠ .allow) d.deniedBy
  violations : List.Forall₂ (fun r text ↦ ∃ detail, r.predicate d.action w = .deny detail ∧
    text = s!"{r.id}: {r.description} ({detail})")
    (rules.filter fun r ↦ r.predicate d.action w ≠ .allow) d.violations

namespace Constitution

variable {c : Constitution} {r : Rule} {a : Action} {w : Workspace}

theorem forall₂_complaint? (rules : List Rule) (a : Action) (w : Workspace) :
    List.Forall₂ (fun r text ↦ ∃ detail, r.predicate a w = .deny detail ∧
      text = s!"{r.id}: {r.description} ({detail})")
      (rules.filter fun r ↦ r.predicate a w ≠ .allow) (rules.filterMap (·.complaint? a w)) := by
  induction rules with
  | nil => exact .nil
  | cons r rules ih =>
    cases h : r.predicate a w with
    | allow => simpa [Rule.complaint?, h] using ih
    | deny detail =>
      have hcomplaint : r.complaint? a w = some s!"{r.id}: {r.description} ({detail})" := by
        rw [Rule.complaint?, h]
      rw [filter_cons_of_pos (by simp [h]),
        filterMap_cons_some (f := fun r : Rule ↦ r.complaint? a w) hcomplaint]
      exact .cons ⟨detail, h, rfl⟩ ih

theorem tells_judge (c : Constitution) (a : Action) (w : Workspace) :
    (c.judge a w).Tells c.rules w where
  evaluations := by
    refine forall₂_map_right_iff.2 (forall₂_same.2 fun r _ ↦ ?_)
    exact ⟨rfl, rfl, rfl⟩
  deniedBy := forall₂_map_right_iff.2 (forall₂_same.2 fun r _ ↦ rfl)
  violations := forall₂_complaint? c.rules a w

theorem rules_extend (c : Constitution) (rs : List Rule) :
    (rs.foldl withRule c).rules = c.rules ++ rs := by
  induction rs generalizing c with
  | nil => simp
  | cons r rs ih => simp [ih, withRule]

theorem deniedBy_extend (c : Constitution) (rs : List Rule) (a : Action) (w : Workspace) :
    ((rs.foldl withRule c).judge a w).deniedBy =
      (c.judge a w).deniedBy ++ (rs.filter fun r ↦ r.predicate a w ≠ .allow).map (·.id) := by
  simp [judge, dissenters, rules_extend]

/-- A decision is the conjunction of the rules, and rules that are added only restrict it. -/
theorem judge_conjoins (c : Constitution) (a : Action) (w : Workspace) :
    (c.judge a w).action = a ∧ (c.judge a w).Tells c.rules w ∧
      ((c.judge a w).allowed ↔ ∀ r ∈ c.rules, r.predicate a w = .allow) ∧
      ((c.judge a w).allowed ↔ (c.judge a w).deniedBy = []) ∧
      (∀ r, (((c.withRule r).judge a w).allowed ↔
          (c.judge a w).allowed ∧ r.predicate a w = .allow) ∧
        ((c.withRule r).judge a w).deniedBy =
          (c.judge a w).deniedBy ++ if r.predicate a w = .allow then [] else [r.id]) ∧
      ∀ rs : List Rule, (((rs.foldl withRule c).judge a w).allowed ↔
          (c.judge a w).allowed ∧ ∀ r ∈ rs, r.predicate a w = .allow) ∧
        (c.judge a w).deniedBy <+: ((rs.foldl withRule c).judge a w).deniedBy := by
  have hextend (rs : List Rule) : ((rs.foldl withRule c).judge a w).allowed ↔
      (c.judge a w).allowed ∧ ∀ r ∈ rs, r.predicate a w = .allow := by
    simp [allowed_judge_iff, rules_extend, or_imp, forall_and]
  refine ⟨rfl, tells_judge c a w, allowed_judge_iff, List.isEmpty_iff, fun r ↦ ⟨?_, ?_⟩, fun rs ↦
    ⟨hextend rs, ?_⟩⟩
  · simpa using hextend [r]
  · have hdenied := deniedBy_extend c [r] a w
    rw [List.foldl_cons, List.foldl_nil] at hdenied
    rw [hdenied]
    split_ifs with h <;> simp [h]
  · rw [deniedBy_extend]
    exact List.prefix_append _ _

end Constitution

namespace Rule

variable {w : Workspace} {p : Path}

theorem trackedSource_allows_write_iff :
    trackedSource.predicate ⟨.write, p⟩ w = .allow ↔ w.history.isTracked p = .ok true := by
  simp only [trackedSource]
  rcases w.history.isTracked p with e | (_ | _) <;> simp [trackedVerdict]

theorem rootImmutable_allows_write_iff :
    rootImmutable.predicate ⟨.write, p⟩ w = .allow ↔ p.same w.root = false := by
  simp [rootImmutable]

theorem markIn?_eq_none_iff {n : String} :
    markIn? n = none ↔ ∀ m ∈ credentialMarks, ¬m.toList <:+: n.toList.map foldLetter := by
  simp [markIn?, find?_eq_none, Text.contains_iff]

theorem credentialExclusion_allows_iff {kind : ActionKind} (hkind : kind.isWrite) :
    credentialExclusion.predicate ⟨kind, p⟩ w = .allow ↔
      (segments w p).head? = some Workspace.reservedName ∨
        ∀ n ∈ segments w p, ∀ m ∈ credentialMarks, ¬m.toList <:+: n.toList.map foldLetter := by
  have hnone : markedSegment? (segments w p) = none ↔
      ∀ n ∈ segments w p, ∀ m ∈ credentialMarks, ¬m.toList <:+: n.toList.map foldLetter := by
    simp [markedSegment?, findSome?_eq_none_iff, markIn?_eq_none_iff]
  rw [← hnone]
  by_cases hown : (segments w p).head? = some Workspace.reservedName
  · simp [credentialExclusion, hown]
  · cases hmark : markedSegment? (segments w p) with
    | none => simp [credentialExclusion, hmark]
    | some x => simp [credentialExclusion, hkind, hown, hmark]

theorem segments_path {r ns : Location} (h : Proper (r ++ ns)) (hw : w.root = r.path) :
    segments w (r ++ ns).path = ns := by
  rw [segments, hw, stripPrefix?_path h]
  simp [filterMap_map]

/-- What the standard rules say about writing to a place in the workspace. -/
theorem standard_allows_write_iff {r ns : Location} (h : Proper (r ++ ns)) (hw : w.root = r.path) :
    (∀ rule ∈ Constitution.standard.rules, rule.predicate ⟨.write, (r ++ ns).path⟩ w = .allow) ↔
      w.history.isTracked (r ++ ns).path = .ok true ∧ ns ≠ [] ∧
        (ns.head? = some Workspace.reservedName ∨
          ∀ n ∈ ns, ∀ m ∈ credentialMarks, ¬m.toList <:+: n.toList.map foldLetter) := by
  have hroot : (r ++ ns).path.same w.root = false ↔ ns ≠ [] := by
    rw [hw, Path.same, decide_eq_false_iff_not, not_iff_not]
    constructor
    · intro hsame
      simpa using eq_of_components_path_eq h ((proper_append r ns).1 h).1 hsame
    · rintro rfl
      rw [append_nil]
  have hscan : scanConfinement.predicate ⟨.write, (r ++ ns).path⟩ w = .allow := by
    simp [scanConfinement]
  simp only [Constitution.standard, forall_mem_cons, trackedSource_allows_write_iff,
    credentialExclusion_allows_iff (show ActionKind.write.isWrite from rfl),
    rootImmutable_allows_write_iff, segments_path h hw, hroot, hscan, true_and, not_mem_nil, false_implies, implies_true, and_true]
  tauto

theorem trackedSource_allows_scan_iff :
    trackedSource.predicate ⟨.scan, p⟩ w = .allow ↔
      ∃ root, w.history.repoRoot = .ok root ∧ p.isUnder root := by
  simp only [trackedSource, History.inRepository]
  cases w.history.repoRoot with
  | error e => simp [Except.map, trackedVerdict]
  | ok root =>
    simp only [Except.map, Except.ok.injEq, exists_eq_left']
    cases p.isUnder root <;> simp [trackedVerdict]

/-- What is below a place that the standard rules allow to be scanned may be scanned as well. -/
theorem standard_allows_scan_of_isUnder {q : Path} (hq : q.isUnder p)
    (h : ∀ rule ∈ Constitution.standard.rules, rule.predicate ⟨.scan, p⟩ w = .allow) :
    ∀ rule ∈ Constitution.standard.rules, rule.predicate ⟨.scan, q⟩ w = .allow := by
  have hunder {base : Path} (hp : p.isUnder base) : q.isUnder base :=
    isPrefixOf_iff_prefix.2
      ((List.isPrefixOf_iff_prefix.1 hp).trans (List.isPrefixOf_iff_prefix.1 hq))
  have hcontains : w.contains p := by
    have hconfined := h scanConfinement (by simp [Constitution.standard])
    simpa [scanConfinement] using hconfined
  obtain ⟨root, hroot, hp⟩ :=
    trackedSource_allows_scan_iff.1 (h trackedSource (by simp [Constitution.standard]))
  have hinside : w.contains q := hunder hcontains
  simp only [Constitution.standard, forall_mem_cons, not_mem_nil, false_implies,
    implies_true, and_true]
  refine ⟨trackedSource_allows_scan_iff.2 ⟨root, hroot, hunder hp⟩, ?_, ?_, ?_⟩
  · simp [credentialExclusion, ActionKind.isWrite]
  · simp [scanConfinement, hinside]
  · simp [rootImmutable]

end Rule

end Steward
