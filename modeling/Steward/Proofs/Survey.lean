import Steward.Proofs.FileTree.NoLinks

/-!
# The files of a survey

A survey names files as seen from the root. Every file that it reports a violation of is the target
or lies below it, `Survey.file_of_mem_violations`.
-/

namespace Steward

open Location List

namespace FileTree

theorem get?_isSome_of_mem {t : FileTree} {l : Location} {e : Entry} (h : (l, e) ∈ t.entries) :
    (t.get? l).isSome := by
  rw [get?]
  split_ifs
  · rfl
  · rw [lookup_isSome_iff]
    exact ⟨(l, e), h, by simp⟩

theorem proper_of_mem_below {t : FileTree} (ht : t.ProperNames) {l names : Location} {e : Entry}
    (h : (names, e) ∈ t.below l) : Proper names := by
  obtain ⟨⟨k, e'⟩, hk, hx⟩ := mem_filterMap.1 (mem_mergeSort.1 h)
  dsimp only at hx
  split_ifs at hx with hbelow
  cases hx
  rw [Bool.and_eq_true, isPrefixOf_iff_prefix] at hbelow
  obtain ⟨⟨ns, rfl⟩, -⟩ := hbelow
  obtain ⟨e'', hget⟩ := Option.isSome_iff_exists.1 (get?_isSome_of_mem hk)
  rw [drop_left]
  exact ((proper_append l ns).1 (ht _ _ hget)).2

end FileTree

/-- A violation is found in the file that was read, and is not fixed at first. -/
theorem Violation.of_mem_ofText {file : String} {limit : Nat} {source : List Char} {v : Violation}
    (h : v ∈ Violation.ofText file limit source) : v.file = file ∧ v.fixed = false := by
  obtain ⟨⟨line, i⟩, -, hv⟩ := mem_filterMap.1 h
  obtain ⟨d, -, rfl⟩ := Option.map_eq_some_iff.1 hv
  exact ⟨rfl, rfl⟩

namespace Survey

variable {cfg : Config.Scanner} {v : Violation} {t : FileTree} {target : Path}

theorem foldl_join_path {l names : Location} (hl : l.Proper) (h : Proper names) :
    names.foldl Path.join l.path = (l ++ names).path := by
  induction names generalizing l with
  | nil => simp
  | cons n names ih =>
    have hn : ProperName n := h n mem_cons_self
    rw [foldl_cons, join_path_name l hl hn.no_slash,
      ih (by simp [hl, hn]) fun m hm ↦ h m (mem_cons_of_mem _ hm)]
    simp

theorem of_mem_ofFile {file : String} {bytes : List UInt8}
    (h : v ∈ (ofFile cfg file bytes).violations) : v.file = file ∧ v.fixed = false := by
  rw [ofFile] at h
  split at h
  · simp at h
  · split at h
    · simp at h
    · exact Violation.of_mem_ofText h

/-- The files with violations lie at or below the target. -/
theorem file_of_mem_violations (ht : t.ProperNames) {r ms : Location} (h : Proper (r ++ ms))
    {s : Survey} (hs : Survey.of cfg r.path t (r ++ ms).path = .ok s) (hv : v ∈ s.violations) :
    ∃ ns, ms <+: ns ∧ Proper (r ++ ns) ∧ v.file = relative ns := by
  rw [Survey.of, ofTarget] at hs
  cases hl : t.locate (r ++ ms).path with
  | error e => simp [hl] at hs
  | ok l =>
    simp only [hl] at hs
    split at hs
    · refine ⟨ms, prefix_refl ms, h, ?_⟩
      split_ifs at hs
      · cases hs
        rw [(of_mem_ofFile hv).1, relativeTo_path h]
      · cases hs
        simp at hv
    · cases hs
      obtain ⟨part, hpart, hv⟩ := mem_flatMap.1 hv
      obtain ⟨⟨names, e⟩, hmem, hpart⟩ := mem_filterMap.1 hpart
      have hnames := FileTree.proper_of_mem_below ht hmem
      have hproper : Proper (r ++ (ms ++ names)) := by
        rw [← append_assoc, proper_append]
        exact ⟨h, hnames⟩
      refine ⟨ms ++ names, prefix_append ms names, hproper, ?_⟩
      dsimp only at hpart
      split at hpart
      · split_ifs at hpart
        cases hpart
        rw [(of_mem_ofFile hv).1, foldl_join_path h hnames, append_assoc,
          relativeTo_path hproper]
      · cases hpart

theorem isAbsolute_foldl_join (h : target.isAbsolute) (names : Location) :
    (names.foldl Path.join target).isAbsolute := by
  induction names generalizing target with
  | nil => exact h
  | cons n names ih => exact ih (Path.isAbsolute_join h n)

theorem hasExtension_of_fileName? {extensions : List String} {p q : Path} {n : String}
    (hp : p.fileName? = some n) (hq : q.fileName? = some n) :
    hasExtension extensions p = hasExtension extensions q := by
  rw [hasExtension, hasExtension, Path.extension?, Path.extension?, hp, hq]

theorem exists_fileName?_of_hasExtension {extensions : List String} {p : Path}
    (h : hasExtension extensions p) : ∃ n, p.fileName? = some n := by
  cases hn : p.fileName? with
  | some n => exact ⟨n, rfl⟩
  | none => simp [hasExtension, Path.extension?, hn] at h

/-- However names are spelled, a file with violations is an absolute path as seen from the root, and
has one of the extensions. -/
theorem exists_path_of_mem_violations {root : Path} (h : target.isAbsolute) {s : Survey}
    (hs : Survey.of cfg root t target = .ok s) (hv : v ∈ s.violations) :
    ∃ p : Path, p.isAbsolute ∧ v.file = p.relativeTo root ∧
      hasExtension (cfg.extensions.map plainExtension) p := by
  rw [Survey.of, ofTarget] at hs
  cases hl : t.locate target with
  | error e => simp [hl] at hs
  | ok l =>
    simp only [hl] at hs
    split at hs
    · split_ifs at hs with hextension
      · cases hs
        exact ⟨target, h, (of_mem_ofFile hv).1, hextension⟩
      · cases hs
        simp at hv
    · cases hs
      obtain ⟨part, hpart, hv⟩ := mem_flatMap.1 hv
      obtain ⟨⟨names, e⟩, -, hpart⟩ := mem_filterMap.1 hpart
      dsimp only at hpart
      split at hpart
      · split_ifs at hpart with heligible
        cases hpart
        refine ⟨_, isAbsolute_foldl_join h names, (of_mem_ofFile hv).1, ?_⟩
        simp only [eligible, Bool.and_eq_true] at heligible
        obtain ⟨n, hn⟩ := exists_fileName?_of_hasExtension heligible.1.2
        rw [← heligible.1.2]
        refine hasExtension_of_fileName? ?_ hn
        rcases eq_nil_or_concat' names with rfl | ⟨ns, m, rfl⟩
        · simp [Path.fileName?, Path.components, Path.split, Path.splitFrom, Path.isAbsolute,
            Path.startsHere, Path.componentOf?] at hn
        · rw [getLastD_concat] at hn
          rw [foldl_concat]
          exact Path.fileName?_join (isAbsolute_foldl_join h ns) hn
      · cases hpart

/-- A file can be surveyed, and all that is found is in it. -/
theorem exists_of_isFile (h : t.isFile target) (cfg : Config.Scanner) (root : Path) :
    ∃ s, Survey.of cfg root t target = .ok s ∧
      ∀ v ∈ s.violations, v.file = target.relativeTo root := by
  rw [FileTree.isFile, FileTree.find] at h
  rw [Survey.of, ofTarget]
  cases hl : t.locate target with
  | error e => simp [hl, Except.toOption] at h
  | ok l =>
    cases hget : t.get? l with
    | none => simp [hl, hget, Except.toOption] at h
    | some e =>
      obtain ⟨bytes, hbytes⟩ : ∃ bytes, e.bytes? = some bytes := by
        cases e with
        | file bytes | database => exact ⟨_, rfl⟩
        | dir | link => simp [hl, hget, Except.toOption, Entry.isFile] at h
      simp only [hget, Option.bind_some, hbytes]
      split_ifs
      · exact ⟨_, rfl, fun v hv ↦ (of_mem_ofFile hv).1⟩
      · exact ⟨_, rfl, by simp⟩

end Survey

end Steward
