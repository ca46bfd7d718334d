import Mathlib
import Steward.Index

/-!
# Findings in the index

Equal violations of a file are told apart by counting, so the findings of a file depend on the
violations in this file alone, `Finding.mem_ofViolations_filter`. The index keeps one finding of
each identity. As long as identities tell findings apart it is a set of findings, and its snapshot
does not depend on how they came, `Index.findings_snapshot_eq`.
-/

namespace Steward

open List

namespace Finding

/-! ## Occurrences -/

section Occurrences

variable {α κ : Type} [BEq κ] {key : α → κ} {seen : List κ} {xs : List α} {n : Nat} {a : α}

theorem mem_of_mem_occurrences (h : (n, a) ∈ occurrences key seen xs) : a ∈ xs := by
  induction xs generalizing seen with
  | nil => cases h
  | cons x xs ih =>
    rcases mem_cons.1 h with h | h
    · cases h
      exact mem_cons_self
    · exact mem_cons_of_mem _ (ih h)

theorem count_le_of_mem_occurrences (h : (n, a) ∈ occurrences key seen xs) :
    seen.count (key a) ≤ n := by
  induction xs generalizing seen with
  | nil => cases h
  | cons x xs ih =>
    rcases mem_cons.1 h with h | h
    · cases h
      exact le_rfl
    · exact (count_le_count_cons).trans (ih h)

variable [LawfulBEq κ]

/-- A key and a number of items before determine an item. -/
theorem nodup_occurrences (key : α → κ) (seen : List κ) (xs : List α) :
    ((occurrences key seen xs).map fun x ↦ (key x.2, x.1)).Nodup := by
  induction xs generalizing seen with
  | nil => exact nodup_nil
  | cons x xs ih =>
    refine nodup_cons.2 ⟨fun h ↦ ?_, ih _⟩
    obtain ⟨⟨n, a⟩, hmem, heq⟩ := mem_map.1 h
    obtain ⟨hkey, hcount⟩ := Prod.mk.inj heq
    have hle := count_le_of_mem_occurrences hmem
    dsimp only at hkey hcount hle
    rw [hkey, count_cons_self] at hle
    omega

/-- Items that are told from the others by their keys are counted among themselves. -/
theorem mem_occurrences_filter {p : α → Bool} (hp : ∀ a b, key a = key b → p a = p b)
    {seen' : List κ} (hseen : ∀ b, p b → seen'.count (key b) = seen.count (key b)) (ha : p a) :
    (n, a) ∈ occurrences key seen' (xs.filter p) ↔ (n, a) ∈ occurrences key seen xs := by
  induction xs generalizing seen seen' with
  | nil => exact Iff.rfl
  | cons x xs ih =>
    by_cases hx : p x
    · have hnext (b : α) (hb : p b) :
          (key x :: seen').count (key b) = (key x :: seen).count (key b) := by
        rw [count_cons, count_cons, hseen b hb]
      rw [filter_cons_of_pos hx, occurrences, occurrences, mem_cons, mem_cons,
        hseen x hx, ih hnext]
    · have hne : (n, a) ≠ (seen.count (key x), x) := by
        rintro ⟨⟩
        exact hx ha
      rw [filter_cons_of_neg hx, occurrences, mem_cons, or_iff_right hne]
      refine ih fun b hb ↦ ?_
      have hkey : key x ≠ key b := fun h ↦ hx (hp x b h ▸ hb)
      rw [count_cons_of_ne hkey, hseen b hb]

end Occurrences

/-! ## Findings of violations -/

section OfViolations

variable {digest : Digest} {root : Path} {h h' : History} {t t' : FileTree} {now now' : Instant}
  {vs : List Violation} {f : Finding}

theorem mem_ofViolations_iff :
    f ∈ ofViolations digest root h t now vs ↔ ∃ n v,
      (n, v) ∈ occurrences keyOf [] (vs.filter (!·.fixed)) ∧
        ofViolation digest root h t now n v = f := by
  rw [ofViolations, mem_map]
  exact ⟨fun ⟨⟨n, v⟩, hmem, hf⟩ ↦ ⟨n, v, hmem, hf⟩, fun ⟨n, v, hmem, hf⟩ ↦ ⟨(n, v), hmem, hf⟩⟩

/-- A finding is of a file with a violation. -/
theorem exists_file_of_mem_ofViolations (hf : f ∈ ofViolations digest root h t now vs) :
    ∃ v ∈ vs, v.file = f.file := by
  obtain ⟨n, v, hmem, rfl⟩ := mem_ofViolations_iff.1 hf
  exact ⟨v, (mem_filter.1 (mem_of_mem_occurrences hmem)).1, rfl⟩

/-- Only the violations of its own file matter to a finding. -/
theorem mem_ofViolations_filter :
    f ∈ ofViolations digest root h t now (vs.filter (·.file = f.file)) ↔
      f ∈ ofViolations digest root h t now vs := by
  have hfile {v : Violation} {n : Nat} (hv : ofViolation digest root h t now n v = f) :
      decide (v.file = f.file) := by
    subst hv
    exact decide_eq_true rfl
  have hkeys (a b : Violation) (hkey : keyOf a = keyOf b) :
      decide (a.file = f.file) = decide (b.file = f.file) := by
    rw [show a.file = b.file from congrArg Key.file hkey]
  rw [mem_ofViolations_iff, mem_ofViolations_iff, filter_comm]
  refine exists_congr fun n ↦ exists_congr fun v ↦ and_congr_left fun hv ↦ ?_
  exact mem_occurrences_filter hkeys (fun _ _ ↦ rfl) (hfile hv)

/-- Findings are the same if their dates are. -/
theorem ofViolations_congr (hdate : ∀ v ∈ vs, dateOf h t now (root.join v.file) v.line =
      dateOf h' t' now' (root.join v.file) v.line) :
    ofViolations digest root h t now vs = ofViolations digest root h' t' now' vs := by
  refine map_congr_left fun ⟨n, v⟩ hmem ↦ ?_
  have hv : v ∈ vs := (mem_filter.1 (mem_of_mem_occurrences hmem)).1
  simp only [ofViolation, hdate v hv]

/-- The occurrences of some violations get identities of their own. -/
def Apart (digest : Digest) (vs : List Violation) : Prop :=
  ∀ x ∈ occurrences keyOf [] vs, ∀ y ∈ occurrences keyOf [] vs,
    idOf digest (keyOf x.2) x.1 = idOf digest (keyOf y.2) y.1 → keyOf x.2 = keyOf y.2 ∧ x.1 = y.1

instance (digest : Digest) (vs : List Violation) : Decidable (Apart digest vs) :=
  inferInstanceAs (Decidable (∀ x ∈ occurrences keyOf [] vs, ∀ y ∈ occurrences keyOf [] vs,
    idOf digest (keyOf x.2) x.1 = idOf digest (keyOf y.2) y.1 →
      keyOf x.2 = keyOf y.2 ∧ x.1 = y.1))

theorem nodup_ids_ofViolations (hopen : ∀ v ∈ vs, v.fixed = false) (hids : Apart digest vs) :
    ((ofViolations digest root h t now vs).map (·.id)).Nodup := by
  have hall : vs.filter (!·.fixed) = vs := filter_eq_self.2 fun v hv ↦ by simp [hopen v hv]
  rw [ofViolations, hall, map_map]
  refine List.Nodup.map_on ?_ (nodup_occurrences keyOf [] vs).of_map
  rintro x hx y hy hid
  refine inj_on_of_nodup_map (nodup_occurrences keyOf [] vs) hx hy ?_
  obtain ⟨hkey, hcount⟩ := hids x hx y hy hid
  rw [hkey, hcount]

end OfViolations

end Finding

namespace Index

/-! ## Changes to the findings -/

section Changes

variable {x y : Index} {f : Finding} {fs : List Finding}

@[simp]
theorem findings_addCommits (x : Index) (cs : List Commit) :
    (x.addCommits cs).findings = x.findings := by
  rw [addCommits]
  induction cs generalizing x with
  | nil => rfl
  | cons c cs ih => exact ih (x.addCommit c)

@[simp]
theorem findings_recordCommits (x : Index) (cs : List Commit) (horizon : Instant) :
    (x.recordCommits cs horizon).findings = x.findings :=
  findings_addCommits x cs

theorem any_id_iff : (x.findings.any fun g ↦ g.id = f.id) ↔ f.id ∈ x.findings.map (·.id) := by
  simp

theorem addFinding_of_mem (h : f.id ∈ x.findings.map (·.id)) : x.addFinding f = x :=
  if_pos (any_id_iff.2 h)

theorem findings_addFinding_of_not_mem (h : f.id ∉ x.findings.map (·.id)) :
    (x.addFinding f).findings = x.findings ++ [f] := by
  rw [addFinding, if_neg (any_id_iff.not.2 h)]

/-- What becomes of the findings does not depend on the commits. -/
theorem findings_addFindings_congr (h : x.findings = y.findings) (fs : List Finding) :
    (x.addFindings fs).findings = (y.addFindings fs).findings := by
  induction fs generalizing x y with
  | nil => exact h
  | cons f fs ih =>
    refine ih ?_
    by_cases hf : f.id ∈ x.findings.map (·.id)
    · rw [addFinding_of_mem hf, addFinding_of_mem (h ▸ hf), h]
    · rw [findings_addFinding_of_not_mem hf, findings_addFinding_of_not_mem (h ▸ hf), h]

theorem findings_rebuild (now : Instant) (cs : List Commit) (fs : List Finding) :
    (rebuild now cs fs).findings = (addFindings {} fs).findings := by
  rw [rebuild]
  refine findings_addFindings_congr ?_ fs
  exact findings_addCommits _ cs

theorem findings_replaceFindings (x : Index) (files : List String) (fs : List Finding) :
    (x.replaceFindings files fs).findings =
      (addFindings { findings := x.findings.filter (·.file ∉ files) } fs).findings := by
  rw [replaceFindings]
  refine findings_addFindings_congr (filter_congr fun f _ ↦ ?_) fs
  rw [contains_eq_mem, decide_not]

/-- What is in the index stays first. -/
theorem isPrefix_addFindings (x : Index) (fs : List Finding) :
    x.findings <+: (x.addFindings fs).findings := by
  induction fs generalizing x with
  | nil => exact prefix_refl _
  | cons f fs ih =>
    refine List.IsPrefix.trans ?_ (ih (x.addFinding f))
    by_cases hf : f.id ∈ x.findings.map (·.id)
    · rw [addFinding_of_mem hf]
    · rw [findings_addFinding_of_not_mem hf]
      exact prefix_append _ _

theorem mem_of_mem_addFindings (h : f ∈ (x.addFindings fs).findings) : f ∈ x.findings ∨ f ∈ fs := by
  induction fs generalizing x with
  | nil => exact .inl h
  | cons g fs ih =>
    rcases ih h with h | h
    · by_cases hg : g.id ∈ x.findings.map (·.id)
      · rw [addFinding_of_mem hg] at h
        exact .inl h
      · rw [findings_addFinding_of_not_mem hg, mem_append, mem_singleton] at h
        exact h.imp_right fun (h : f = g) ↦ h ▸ mem_cons_self
    · exact .inr (mem_cons_of_mem _ h)

theorem nodup_ids_addFindings (h : (x.findings.map (·.id)).Nodup) (fs : List Finding) :
    ((x.addFindings fs).findings.map (·.id)).Nodup := by
  induction fs generalizing x with
  | nil => exact h
  | cons f fs ih =>
    refine ih ?_
    by_cases hf : f.id ∈ x.findings.map (·.id)
    · rwa [addFinding_of_mem hf]
    · rw [findings_addFinding_of_not_mem hf, map_append, map_singleton,
        ← concat_eq_append, nodup_concat]
      exact ⟨hf, h⟩

/-- Where identities tell findings apart, all that are added are there. -/
theorem mem_addFindings_iff
    (hids : ∀ f g, f ∈ x.findings ∨ f ∈ fs → g ∈ x.findings ∨ g ∈ fs → f.id = g.id → f = g) :
    f ∈ (x.addFindings fs).findings ↔ f ∈ x.findings ∨ f ∈ fs := by
  refine ⟨mem_of_mem_addFindings, ?_⟩
  induction fs generalizing x with
  | nil => simp [addFindings]
  | cons g fs ih =>
    intro hf
    -- Either way, the first of the new findings is among the old ones from now on.
    have hg : g ∈ (x.addFinding g).findings := by
      by_cases hmem : g.id ∈ x.findings.map (·.id)
      · obtain ⟨k, hk, hid⟩ := mem_map.1 hmem
        rw [addFinding_of_mem hmem, ← hids k g (.inl hk) (.inr mem_cons_self) hid]
        exact hk
      · rw [findings_addFinding_of_not_mem hmem]
        exact mem_append_right _ mem_cons_self
    have hold (k : Finding) (hk : k ∈ x.findings) : k ∈ (x.addFinding g).findings :=
      (isPrefix_addFindings x [g]).subset hk
    have hnew (k : Finding) (hk : k ∈ (x.addFinding g).findings ∨ k ∈ fs) :
        k ∈ x.findings ∨ k ∈ g :: fs := by
      rcases hk with hk | hk
      · have hk : k ∈ (x.addFindings [g]).findings := hk
        refine (mem_of_mem_addFindings hk).imp_right fun hk ↦ ?_
        rw [mem_singleton.1 hk]
        exact mem_cons_self
      · exact .inr (mem_cons_of_mem _ hk)
    refine ih (fun k l hk hl ↦ hids k l (hnew k hk) (hnew l hl)) ?_
    rcases hf with hf | hf
    · exact .inl (hold f hf)
    · exact (mem_cons.1 hf).imp (fun (h : f = g) ↦ h ▸ hg) id

theorem nodup_ids_rebuild (now : Instant) (cs : List Commit) (fs : List Finding) :
    ((rebuild now cs fs).findings.map (·.id)).Nodup := by
  rw [findings_rebuild]
  exact nodup_ids_addFindings (x := {}) nodup_nil fs

theorem mem_rebuild_iff {now : Instant} {cs : List Commit}
    (hids : ∀ f ∈ fs, ∀ g ∈ fs, f.id = g.id → f = g) :
    f ∈ (rebuild now cs fs).findings ↔ f ∈ fs := by
  rw [findings_rebuild, mem_addFindings_iff, or_iff_right not_mem_nil]
  intro f g hf hg
  exact hids f (hf.resolve_left not_mem_nil) g (hg.resolve_left not_mem_nil)

theorem nodup_ids_replaceFindings (h : (x.findings.map (·.id)).Nodup) (files : List String)
    (fs : List Finding) : ((x.replaceFindings files fs).findings.map (·.id)).Nodup :=
  nodup_ids_addFindings (h.sublist (filter_sublist.map _)) fs

theorem mem_replaceFindings_iff {files : List String}
    (hids : ∀ f g, f ∈ x.findings ∧ f.file ∉ files ∨ f ∈ fs →
      g ∈ x.findings ∧ g.file ∉ files ∨ g ∈ fs → f.id = g.id → f = g) :
    f ∈ (x.replaceFindings files fs).findings ↔ f ∈ x.findings ∧ f.file ∉ files ∨ f ∈ fs := by
  rw [findings_replaceFindings, mem_addFindings_iff]
  · simp
  · intro f g hf hg
    exact hids f g (by simpa using hf) (by simpa using hg)

end Changes

/-! ## Snapshots -/

/-- The parts of a finding by which a snapshot is ordered. -/
def rank (f : Finding) : String ×ₗ (ℤ ×ₗ String) := toLex (f.file, toLex (signed f.line, f.id))

theorem findingLe_iff {a b : Finding} : findingLe a b ↔ rank a ≤ rank b := by
  rw [findingLe, rank, rank, Prod.Lex.toLex_le_toLex, Prod.Lex.toLex_le_toLex]
  split_ifs with hfile hline
  · simp [hfile]
  · rw [not_not] at hfile
    simp [hfile, hline]
  · rw [not_not] at hfile hline
    simp [hfile, hline]

theorem pairwise_findings_snapshot (x : Index) :
    x.snapshot.findings.Pairwise fun a b ↦ rank a ≤ rank b := by
  have htrans (a b c : Finding) (hab : findingLe a b) (hbc : findingLe b c) : findingLe a c :=
    findingLe_iff.2 ((findingLe_iff.1 hab).trans (findingLe_iff.1 hbc))
  have htotal (a b : Finding) : findingLe a b || findingLe b a := by
    rw [Bool.or_eq_true, findingLe_iff, findingLe_iff]
    exact le_total _ _
  exact (pairwise_mergeSort htrans htotal x.findings).imp findingLe_iff.1

theorem mem_findings_snapshot {x : Index} {f : Finding} :
    f ∈ x.snapshot.findings ↔ f ∈ x.findings := mem_mergeSort

theorem findings_snapshot_congr {x y : Index} (h : x.findings = y.findings) :
    x.snapshot.findings = y.snapshot.findings := by rw [snapshot, snapshot, h]

/-- New findings in place of those of some files are all there is just if nothing was of another
file. -/
theorem findings_replaceFindings_eq_iff {x y : Index} {files : List String} {fs : List Finding}
    (hfs : ∀ f ∈ fs, f.file ∈ files) (hy : y.findings = (addFindings {} fs).findings) :
    (x.replaceFindings files fs).snapshot.findings = y.snapshot.findings ↔
      ∀ f ∈ x.findings, f.file ∈ files := by
  constructor
  · intro heq f hf
    by_contra hnot
    -- What is left over comes first in the one and is not in the other.
    have hleft : f ∈ (x.replaceFindings files fs).findings := by
      rw [findings_replaceFindings]
      exact (isPrefix_addFindings _ fs).subset (mem_filter.2 ⟨hf, decide_eq_true hnot⟩)
    have hright : f ∈ y.findings := by
      rwa [← mem_findings_snapshot, ← heq, mem_findings_snapshot]
    rw [hy] at hright
    exact hnot (hfs f ((mem_of_mem_addFindings hright).resolve_left (by simp)))
  · intro hall
    refine findings_snapshot_congr ?_
    rw [findings_replaceFindings, hy]
    refine findings_addFindings_congr (filter_eq_nil_iff.2 fun f hf ↦ ?_) fs
    simpa using hall f hf

/-- The same findings give the same snapshot, however they came. -/
theorem findings_snapshot_eq {x y : Index} (hx : (x.findings.map (·.id)).Nodup)
    (hy : (y.findings.map (·.id)).Nodup) (h : ∀ f, f ∈ x.findings ↔ f ∈ y.findings) :
    x.snapshot.findings = y.snapshot.findings := by
  have hperm : x.snapshot.findings.Perm y.snapshot.findings :=
    (mergeSort_perm _ _).trans
      (((perm_ext_iff_of_nodup hx.of_map hy.of_map).2 h).trans (mergeSort_perm _ _).symm)
  refine hperm.eq_of_pairwise ?_ (pairwise_findings_snapshot x) (pairwise_findings_snapshot y)
  intro a b ha hb hab hba
  have hid : a.id = b.id := congrArg (fun r ↦ (ofLex (ofLex r).2).2) (le_antisymm hab hba)
  exact inj_on_of_nodup_map hx (mem_findings_snapshot.1 ha)
    ((h b).2 (mem_findings_snapshot.1 hb)) hid

end Index

end Steward
