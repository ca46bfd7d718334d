import Steward.Proofs.FileTree.NoLinks

/-!
# Containment of resolved paths

A path that is resolved comes out inside the root, with names only: `Workspace.resolve_contained`.
It is followed on disk up to the first name that is missing and taken at its word from there on. If
a `..` takes the path back from there to what exists, the names after it are not looked up any more,
so that they may be links. The outcome can be trusted exactly if each of its names is either there,
under that name, or missing; and it can whenever the path does not come back, `Workspace.ComesBack`.
-/

namespace Steward.Workspace

open FileTree Location List

/-- An outcome that can be trusted: what exists of it is its own canonical place, it resolves to
itself, and it leads to nothing outside. -/
structure Contained (t : FileTree) (root : Path) (l : Location) : Prop where
  canonical : ∀ k : Location, k <+: l → ∀ m, t.canonical k.path = .ok m → m = k
  again : resolveLocation t l.path.text root = .ok l
  inside : ∀ r m, t.canonical root = .ok r → t.canonical l.path = .ok m → r <+: m

/-- Every name of a place, as far as the places before it exist, is there under that name or
missing. -/
def Plain (t : FileTree) (l : Location) : Prop :=
  ∀ k n, k ++ [n] <+: l → t.canonical k.path = .ok k →
    t.canonical (k ++ [n]).path = .ok (k ++ [n]) ∨
      t.canonical (k ++ [n]).path = .error .notFound

/-- A path that has left what exists is taken back to it by a `..`. -/
def ComesBack (t : FileTree) (p : Path) : Prop :=
  ∃ before after l m, p.components = before ++ .up :: after ∧
    before.foldlM (step t) ⟨[], true⟩ = .ok ⟨l, false⟩ ∧
      t.canonical (Location.path l.dropLast) = .ok m

/-! ## Steps -/

/-- How far a path has come if it did not come back: to a canonical place, or beyond one at which a
name is missing. -/
inductive Progress.Sound (t : FileTree) : Progress → Prop where
  | on {l} (h : t.canonical l.path = .ok l) : Sound t ⟨l, true⟩
  | off {g n} (rest) (h : t.canonical g.path = .ok g)
      (hn : t.canonical (g ++ [n]).path = .error .notFound) : Sound t ⟨g ++ n :: rest, false⟩

variable {t : FileTree} {s s' : Progress} {c : Component} {cs : List Component} {p : Path}
  {n raw : String} {l r : Location} {w : Workspace}

theorem Progress.Sound.step (h : s.Sound t) (ht : t.NulFree)
    (hback : c = .up → s.onDisk = false → ∀ m, t.canonical (Location.path s.at_.dropLast) ≠ .ok m)
    (hs : Workspace.step t s c = .ok s') : s'.Sound t := by
  cases c with
  | top | here =>
    cases hs
    exact h
  | up =>
    cases hs
    cases h with
    | on h => exact .on (canonical_above ht (isAbsolute_path _) h (List.dropLast_prefix _))
    | @off g n rest h hn =>
      have hrest : rest ≠ [] := by
        rintro rfl
        exact hback rfl rfl g (by simpa using h)
      have hlast : (g ++ n :: rest).dropLast = g ++ n :: rest.dropLast := by
        rw [dropLast_append_of_ne_nil (cons_ne_nil n rest),
          dropLast_cons_of_ne_nil hrest]
      simp only [hlast]
      exact .off _ h hn
  | name n =>
    cases h with
    | @on l h =>
      simp only [Workspace.step, if_true] at hs
      split at hs
      · rename_i m hm
        cases hs
        exact .on (canonical_above ht (isAbsolute_path _) hm (prefix_refl _))
      · rename_i hm
        cases hs
        exact .off [] h hm
      · cases hs
    | off rest h hn =>
      cases hs
      simp only [append_assoc, cons_append]
      exact .off _ h hn

theorem step_proper (h : s.at_.Proper) (hc : ∀ n, c = .name n → ProperName n)
    (hs : step t s c = .ok s') : s'.at_.Proper := by
  cases c with
  | top | here =>
    cases hs
    exact h
  | up =>
    cases hs
    exact h.of_isPrefix (List.dropLast_prefix _)
  | name n =>
    have hname : (s.at_ ++ [n]).Proper := by simpa using ⟨h, hc n rfl⟩
    rw [step] at hs
    split_ifs at hs
    · split at hs
      · rename_i m hm
        cases hs
        exact (real_of_canonical (isAbsolute_path _) hm).1.proper
      · cases hs
        exact hname
      · cases hs
    · cases hs
      exact hname

/-! ## Whole paths -/

theorem foldlM_cons_eq_ok (h : (c :: cs).foldlM (step t) s = .ok s') :
    ∃ s₁, step t s c = .ok s₁ ∧ cs.foldlM (step t) s₁ = .ok s' := by
  rw [foldlM_cons] at h
  cases hs : step t s c with
  | error e =>
    rw [hs] at h
    cases h
  | ok s₁ =>
    rw [hs] at h
    exact ⟨s₁, rfl, h⟩

theorem Progress.Sound.foldlM {cs : List Component} {s s' : Progress} (h : s.Sound t)
    (ht : t.NulFree)
    (hback : ∀ before after l m, cs = before ++ .up :: after →
      before.foldlM (Workspace.step t) s = .ok ⟨l, false⟩ →
        t.canonical (Location.path l.dropLast) ≠ .ok m)
    (hs : cs.foldlM (Workspace.step t) s = .ok s') : s'.Sound t := by
  induction cs generalizing s with
  | nil =>
    cases hs
    exact h
  | cons c cs ih =>
    obtain ⟨s₁, hstep, hrest⟩ := foldlM_cons_eq_ok hs
    refine ih (h.step ht ?_ hstep) ?_ hrest
    · intro hc hdisk m
      refine hback [] cs s.at_ m (by rw [hc]; rfl) ?_
      rw [← hdisk]
      rfl
    · intro before after l m hcs hl
      refine hback (c :: before) after l m (by rw [hcs]; rfl) ?_
      rw [foldlM_cons, hstep]
      exact hl

theorem foldlM_proper (h : s.at_.Proper) (hcs : ∀ n, .name n ∈ cs → ProperName n)
    (hs : cs.foldlM (step t) s = .ok s') : s'.at_.Proper := by
  induction cs generalizing s with
  | nil =>
    cases hs
    exact h
  | cons c cs ih =>
    obtain ⟨s₁, hstep, hrest⟩ := foldlM_cons_eq_ok hs
    refine ih (step_proper h (fun n hc ↦ hcs n ?_) hstep)
      (fun n hn ↦ hcs n (mem_cons_of_mem _ hn)) hrest
    rw [hc]
    exact mem_cons_self

theorem properName_of_mem_components (h : .name n ∈ p.components) : ProperName n := by
  have hbody : .name n ∈ (Path.split p.text).filterMap Path.componentOf? := by
    rw [Path.components] at h
    split_ifs at h <;> simpa using h
  obtain ⟨s, hs, hc⟩ := mem_filterMap.1 hbody
  rw [Path.componentOf?] at hc
  split_ifs at hc with hdots hup
  · cases hc
  · cases hc
    rw [Bool.or_eq_true, not_or, decide_eq_true_iff, decide_eq_true_iff] at hdots
    exact ⟨hdots.1, hdots.2, hup, Path.slash_not_mem_of_mem_split hs⟩

theorem canonical_top (ht : t.NulFree) : t.canonical (Location.path []) = .ok [] :=
  canonical_of_real ht .top (by decide)

theorem settle_path (h : l.Proper) :
    settle t l.path = ((l.map .name).foldlM (step t) ⟨[], true⟩).map (·.at_) := by
  rw [settle, components_path h, foldlM_cons]
  rfl

theorem settle_eq_ok (h : settle t p = .ok l) :
    ∃ s, p.components.foldlM (step t) ⟨[], true⟩ = .ok s ∧ s.at_ = l := by
  rw [settle] at h
  cases hs : p.components.foldlM (step t) ⟨[], true⟩ with
  | error e =>
    rw [hs] at h
    cases h
  | ok s =>
    rw [hs] at h
    exact ⟨s, rfl, Except.ok.inj h⟩

theorem settle_proper (h : settle t p = .ok l) : l.Proper := by
  obtain ⟨s, hs, rfl⟩ := settle_eq_ok h
  exact foldlM_proper (by simp) (fun n hn ↦ properName_of_mem_components hn) hs

/-! ## Plain places -/

/-- Where a path ends up that did not come back is plain. -/
theorem Progress.Sound.plain {s : Progress} (h : s.Sound t) (ht : t.NulFree)
    (hproper : s.at_.Proper) : Plain t s.at_ := by
  intro k n hk hcanon
  have hkproper : k.Proper := hproper.of_isPrefix ((prefix_append k [n]).trans hk)
  cases h with
  | on h => exact .inl (canonical_above ht (isAbsolute_path _) h hk)
  | @off g m rest h hm =>
    rcases prefix_or_prefix_of_prefix hk (prefix_append g (m :: rest)) with hkg | hgk
    · exact .inl (canonical_above ht (isAbsolute_path _) h hkg)
    · rcases prefix_concat_iff.1 hgk with rfl | ⟨tl, rfl⟩
      · exact .inl h
      · rw [append_assoc, prefix_append_right_inj] at hk
        cases tl with
        | nil =>
          obtain rfl : n = m := by simpa using (cons_prefix_cons.1 hk).1
          exact .inr (by simpa using hm)
        | cons m' tl =>
          -- The missing name would be among those of a place that exists.
          obtain rfl : m' = m := by simpa using (cons_prefix_cons.1 hk).1
          exact absurd hm (canonical_above_ne_notFound hkproper hcanon ⟨tl, by simp⟩)

theorem step_name (h : t.canonical (l ++ [n]).path = .ok (l ++ [n])) :
    step t ⟨l, true⟩ (.name n) = .ok ⟨l ++ [n], true⟩ := by
  simp [step, h]

theorem step_name_missing (h : t.canonical (l ++ [n]).path = .error .notFound) :
    step t ⟨l, true⟩ (.name n) = .ok ⟨l ++ [n], false⟩ := by
  simp [step, h]

theorem foldlM_concat (h : (l.map .name).foldlM (step t) ⟨[], true⟩ = .ok s) :
    ((l ++ [n]).map .name).foldlM (step t) ⟨[], true⟩ = step t s (.name n) := by
  rw [map_append, foldlM_append, h]
  simp only [bind, Except.bind, map_cons, map_nil, foldlM_cons, foldlM_nil]
  cases step t s (.name n) <;> rfl

theorem foldlM_names_of_plain (ht : t.NulFree) (h : Plain t l) :
    ∃ b, (l.map .name).foldlM (step t) ⟨[], true⟩ = .ok ⟨l, b⟩ ∧
      (b = true → t.canonical l.path = .ok l) := by
  induction l using List.reverseRecOn with
  | nil => exact ⟨true, rfl, fun _ ↦ canonical_top ht⟩
  | append_singleton l n ih =>
    obtain ⟨b, hfold, hb⟩ := ih fun k m hk ↦ h k m (hk.trans (prefix_append l [n]))
    rw [foldlM_concat hfold]
    cases b with
    | false => exact ⟨false, rfl, by simp⟩
    | true =>
      rcases h l n (prefix_refl _) (hb rfl) with hn | hn
      · exact ⟨true, step_name hn, fun _ ↦ hn⟩
      · exact ⟨false, step_name_missing hn, by simp⟩

/-- Names are followed on disk as long as each leads to itself. -/
theorem foldlM_names_of_above (h : ∀ k : Location, k <+: l → t.canonical k.path = .ok k) :
    (l.map .name).foldlM (step t) ⟨[], true⟩ = .ok ⟨l, true⟩ := by
  induction l using List.reverseRecOn with
  | nil => rfl
  | append_singleton l n ih =>
    rw [foldlM_concat (ih fun k hk ↦ h k (hk.trans (prefix_append l [n]))),
      step_name (h _ (prefix_refl _))]

/-- The names of a canonical place are followed on disk. -/
theorem foldlM_names_of_canonical (ht : t.NulFree) (h : t.canonical l.path = .ok l) :
    (l.map .name).foldlM (step t) ⟨[], true⟩ = .ok ⟨l, true⟩ :=
  foldlM_names_of_above fun _ hk ↦ canonical_above ht (isAbsolute_path _) h hk

/-- What exists of a plain place is canonical. -/
theorem Plain.canonical (ht : t.NulFree) (h : Plain t l) (hl : l.Proper) {k : Location}
    (hk : k <+: l) {m : Location} (hm : t.canonical k.path = .ok m) : m = k := by
  -- from the top down: what is before an existing place is not missing, so it is canonical
  have hgrown (j : Location) (hj : j <+: k) : t.canonical j.path = .ok j := by
    induction j using List.reverseRecOn with
    | nil => exact canonical_top ht
    | append_singleton j n ih =>
      refine (h j n (hj.trans hk) (ih ((prefix_append j [n]).trans hj))).resolve_right ?_
      exact canonical_above_ne_notFound (hl.of_isPrefix hk) hm hj
  rw [hgrown k (prefix_refl k)] at hm
  exact (Except.ok.inj hm).symm

/-! ## Containment -/

theorem resolveLocation_eq_ok_iff {root : Path} :
    resolveLocation t raw root = .ok l ↔
      ∃ r, t.canonical root = .ok r ∧ settle t (candidate r raw) = .ok l ∧ r <+: l := by
  rw [resolveLocation]
  cases hr : t.canonical root with
  | error e => simp [Except.mapError, bind, Except.bind]
  | ok r =>
    cases hl : settle t (candidate r raw) with
    | error e => simp [Except.mapError, bind, Except.bind, hl]
    | ok k =>
      by_cases hp : r <+: k
      · have hpb : r.isPrefixOf k = true := isPrefixOf_iff_prefix.2 hp
        simp only [Except.mapError, bind, Except.bind, hl, hpb, if_true, Except.ok.injEq,
          exists_eq_left']
        constructor
        · intro h
          cases h
          exact ⟨rfl, hp⟩
        · rintro ⟨rfl, -⟩
          rfl
      · have hpb : r.isPrefixOf k = false := by
          rw [Bool.eq_false_iff]
          exact fun h ↦ hp (List.isPrefixOf_iff_prefix.1 h)
        simp only [Except.mapError, bind, Except.bind, hl, hpb, Except.ok.injEq, exists_eq_left']
        constructor
        · intro h
          cases h
        · rintro ⟨rfl, h⟩
          exact absurd h hp

theorem candidate_path (r l : Location) : candidate r l.path.text = l.path := by
  have h : l.path.text.toList.head? = some '/' := by simpa [Path.isAbsolute] using isAbsolute_path l
  rw [candidate, Path.join, if_pos h]

theorem contained_iff_plain (ht : t.NulFree) {root : Path} (hr : t.canonical root = .ok r)
    (hl : l.Proper) (hrl : r <+: l) : Contained t root l ↔ Plain t l := by
  constructor
  · intro h k n hk hcanon
    obtain ⟨tl, htl⟩ := hk
    obtain ⟨r', -, hsettle, -⟩ := resolveLocation_eq_ok_iff.1 h.again
    -- The names of `k` are followed on disk, so the next one cannot fail but by being missing.
    have hfold := foldlM_names_of_canonical ht hcanon
    cases hn : t.canonical (k ++ [n]).path with
    | ok m => rw [h.canonical (k ++ [n]) ⟨tl, htl⟩ m hn]; exact .inl rfl
    | error e =>
      right
      rw [candidate_path, settle_path hl, ← htl, map_append, foldlM_append,
        foldlM_concat hfold] at hsettle
      cases e <;> simp [step, hn, bind, Except.bind, Except.map] at hsettle ⊢
  · intro h
    have hcanonical : ∀ k : Location, k <+: l → ∀ m, t.canonical k.path = .ok m → m = k :=
      fun k hk m hm ↦ h.canonical ht hl hk hm
    refine ⟨hcanonical, resolveLocation_eq_ok_iff.2 ⟨r, hr, ?_, hrl⟩, ?_⟩
    · obtain ⟨b, hfold, -⟩ := foldlM_names_of_plain ht h
      rw [candidate_path, settle_path hl, hfold]
      rfl
    · intro r' m hr' hm
      rw [hr] at hr'
      cases hr'
      rw [hcanonical l (prefix_refl l) m hm]
      exact hrl

/-- **What a resolved path can be trusted for.** It lies inside the root and has no `.` and no `..`.
It can be trusted, `Contained`, exactly if it is `Plain`, and it is so whenever the path that was
given does not come back from a missing name to what exists. And if no link stands on it, a dangling
one included, then nothing else is reached through it, also not by writing. -/
theorem resolve_contained (ht : t.NulFree) {raw : String} {root : Path} {l : Location}
    (h : resolveLocation t raw root = .ok l) :
    ∃ r, t.canonical root = .ok r ∧ r <+: l ∧ l.path.components = .top :: l.map .name ∧
      (Contained t root l ↔ Plain t l) ∧
      (¬ComesBack t (candidate r raw) → Contained t root l) ∧
      ((∀ k, k <+: l → ∀ target, t.get? k ≠ some (.link target)) →
        ∀ last s, t.spot last l.path = .ok s → s = .entry l ∨ s = .vacant l) := by
  obtain ⟨r, hr, hsettle, hrl⟩ := resolveLocation_eq_ok_iff.1 h
  have hproper : l.Proper := settle_proper hsettle
  obtain ⟨s, hfold, rfl⟩ := settle_eq_ok hsettle
  have hiff := contained_iff_plain ht hr hproper hrl
  refine ⟨r, hr, hrl, components_path hproper, hiff, fun hback ↦ hiff.2 ?_, fun hlink last s' hs' ↦
    spot_path_of_clear hlink hproper hs'⟩
  have hsound : s.Sound t := Progress.Sound.foldlM (.on (canonical_top ht)) ht
    (fun before after l m hcs hl hm ↦ hback ⟨before, after, l, m, hcs, hl, hm⟩) hfold
  exact hsound.plain ht hproper

/-- A root with a link out of it. -/
def linkTree : FileTree where
  entries := [(["ws"], .dir), (["ws", "link"], .link "/out"), (["out"], .dir),
    (["out", "secret"], .file [] ⟨0, 0⟩)]

theorem resolve_contained_link :
    (resolveLocation linkTree "gone/../link/secret" ⟨"/ws"⟩ = .ok ["ws", "link", "secret"] ∧
      ¬Contained linkTree ⟨"/ws"⟩ ["ws", "link", "secret"]) ∧
    (resolveLocation linkTree "gone/b" ⟨"/ws"⟩ = .ok ["ws", "gone", "b"] ∧
      Contained linkTree ⟨"/ws"⟩ ["ws", "gone", "b"]) := by
  have ht : linkTree.NulFree := nulFree_of_entries (by decide)
  have hlink : resolveLocation linkTree "gone/../link/secret" ⟨"/ws"⟩ =
      .ok ["ws", "link", "secret"] := by decide
  have hgone : resolveLocation linkTree "gone/b" ⟨"/ws"⟩ = .ok ["ws", "gone", "b"] := by decide
  refine ⟨⟨hlink, fun h ↦ ?_⟩, hgone, ?_⟩
  · obtain ⟨r, -, -, -, hiff, -, -⟩ := resolve_contained ht hlink
    have hplain := hiff.1 h ["ws"] "link" (by decide) (by decide)
    exact absurd hplain (by decide)
  · obtain ⟨r, hr, -, -, -, hback, -⟩ := resolve_contained ht hgone
    obtain rfl : r = ["ws"] := by
      have : linkTree.canonical ⟨"/ws"⟩ = .ok ["ws"] := by decide
      rw [this] at hr
      exact (Except.ok.inj hr).symm
    refine hback ?_
    rintro ⟨before, after, -, -, hcs, -⟩
    have hup : Component.up ∈ (candidate ["ws"] "gone/b").components := by simp [hcs]
    exact absurd hup (by decide)

/-! ## Places without links -/

/-- Where there is no link, a path leads where its names say or nowhere. -/
theorem foldlM_names_of_clear (hclear : t.Clear l) (hl : l.Proper)
    (h : (l.map .name).foldlM (step t) ⟨[], true⟩ = .ok s) : s.at_ = l := by
  induction l using List.reverseRecOn generalizing s with
  | nil =>
    cases h
    rfl
  | append_singleton l n ih =>
    have habove : l <+: l ++ [n] := prefix_append l [n]
    cases hs : (l.map .name).foldlM (step t) ⟨[], true⟩ with
    | error e =>
      rw [map_append, foldlM_append, hs] at h
      cases h
    | ok s₀ =>
      have hat := ih (hclear.of_isPrefix habove) (hl.of_isPrefix habove) hs
      rw [foldlM_concat hs, step, hat] at h
      split_ifs at h
      · cases hk : t.canonical (Location.path (l ++ [n])) with
        | ok k =>
          rw [hk] at h
          cases h
          exact canonical_path hclear hl hk
        | error e =>
          rw [hk] at h
          cases e with
          | notFound =>
            cases h
            rfl
          | _ => cases h
      · cases h
        rfl

theorem settle_of_clear {k : Location} (hclear : t.Clear l) (hl : l.Proper)
    (h : settle t l.path = .ok k) : k = l := by
  rw [settle_path hl] at h
  cases hs : (l.map .name).foldlM (step t) ⟨[], true⟩ with
  | error e =>
    rw [hs] at h
    cases h
  | ok s =>
    rw [hs] at h
    exact (Except.ok.inj h).symm.trans (foldlM_names_of_clear hclear hl hs)

theorem resolve_eq_ok_iff :
    w.resolve t raw = .ok p ↔ ∃ l, resolveLocation t raw w.root = .ok l ∧ l.path = p := by
  rw [resolve]
  cases resolveLocation t raw w.root with
  | error e => simp [Except.map]
  | ok l => simp [Except.map]

/-- The name of a real place leads there. -/
theorem resolve_relative {ns : Location} (hw : w.root = r.path) (hns : ns ≠ [])
    (hreal : Real t (r ++ ns)) (hzero : '\x00' ∉ (r ++ ns).path.text.toList)
    (hlong : isOverlong (r ++ ns).path = false) :
    w.resolve t (Location.relative ns) = .ok (r ++ ns).path := by
  have habove (k : Location) (hk : k <+: r ++ ns) : t.canonical k.path = .ok k :=
    (hreal.of_isPrefix hk).canonical (fun h ↦ hzero ((toList_path_isPrefix hk).subset h))
      (isOverlong_of_isPrefix hk hlong)
  have hr : r <+: r ++ ns := prefix_append r ns
  refine resolve_eq_ok_iff.2 ⟨r ++ ns, resolveLocation_eq_ok_iff.2 ⟨r, ?_, ?_, hr⟩, rfl⟩
  · rw [hw]
    exact habove r hr
  · rw [candidate, join_relative hreal.proper hns, settle_path hreal.proper,
      foldlM_names_of_above habove]
    rfl

/-- In a workspace without links the name of a place leads there or nowhere. -/
theorem eq_of_resolve_relative {ns : Location} (hw : w.root = r.path) (hns : ns ≠ [])
    (hclear : t.Clear (r ++ ns)) (hproper : Proper (r ++ ns))
    (h : w.resolve t (Location.relative ns) = .ok p) : p = (r ++ ns).path := by
  have hr : r <+: r ++ ns := prefix_append r ns
  obtain ⟨l, hl, rfl⟩ := resolve_eq_ok_iff.1 h
  obtain ⟨r', hr', hsettle, -⟩ := resolveLocation_eq_ok_iff.1 hl
  rw [hw] at hr'
  obtain rfl := canonical_path (hclear.of_isPrefix hr) (hproper.of_isPrefix hr) hr'
  rw [candidate, join_relative hproper hns] at hsettle
  rw [settle_of_clear hclear hproper hsettle]

/-- In a workspace without links a path leads to a place below the root. -/
theorem exists_of_resolve (hw : w.root = r.path) (hclear : t.Clear r) (hproper : Proper r)
    (h : w.resolve t raw = .ok p) : ∃ ns, p = (r ++ ns).path ∧ Proper (r ++ ns) := by
  obtain ⟨l, hl, rfl⟩ := resolve_eq_ok_iff.1 h
  obtain ⟨r', hr', hsettle, ns, rfl⟩ := resolveLocation_eq_ok_iff.1 hl
  rw [hw] at hr'
  obtain rfl := canonical_path hclear hproper hr'
  exact ⟨ns, rfl, settle_proper hsettle⟩

end Steward.Workspace
