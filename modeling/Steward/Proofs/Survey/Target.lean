import Steward.Proofs.Survey.Places

/-!
# Surveys of directories file by file

Any directory of a workspace can be surveyed, also one that a survey of the root leaves out. What is
said of it comes from the files that are examined, one by one: `Survey.exists_sources`. The survey of
such a file alone says the same of it, `Survey.of_source`.
-/

namespace Steward

open Location FileTree List

/-- A directory all of whose entries, all the way down, stand in directories and are no links. -/
structure FileTree.Solid (t : FileTree) (r : Location) : Prop where
  distinct : t.Distinct
  nulFree : t.NulFree
  dir : t.DirAt r
  real : ∀ l e, t.get? l = some e → r <+: l → Real t l

theorem FileTree.Solid.noLinks {t : FileTree} {r : Location} (h : t.Solid r) : t.NoLinks r := by
  intro l hl target hget
  have hreal : Real t l := by
    rcases hl with hl | hl
    · exact (h.real r _ h.dir (prefix_refl r)).of_isPrefix hl
    · exact h.real l _ hget hl
  exact hreal.clear l (prefix_refl l) target hget

theorem FileTree.Solid.of_entries {t : FileTree} {r : Location} (hdistinct : t.Distinct)
    (h : Survey.Upright t) (hdir : t.DirAt r) : t.Solid r :=
  ⟨hdistinct, h.nulFree, hdir, fun _ _ hget _ ↦ h.real hget⟩

namespace Survey

/-- The survey of the file at a place. -/
def ofSource (cfg : Config.Scanner) (t : FileTree) (r ns : Location) : Survey :=
  match (t.get? (r ++ ns)).bind (·.bytes?) with
  | some bytes => ofFile cfg (relative ns) bytes
  | none => {}

/-- A survey of the directory at `ds` examines the file at `ns`. -/
structure Source (cfg : Config.Scanner) (t : FileTree) (r ds ns : Location) : Prop where
  below : ∃ names, names ≠ [] ∧ ns = ds ++ names ∧ reads cfg names
  short : isOverlong (r ++ ns).path = false
  file : t.FileAt (r ++ ns)
  examined : (ofSource cfg t r ns).examined = [relative ns]

variable {cfg : Config.Scanner} {t u : FileTree} {r ds ns : Location} {s : Survey}

theorem Source.ne_nil (h : Source cfg t r ds ns) : ns ≠ [] := by
  obtain ⟨names, hne, rfl, -⟩ := h.below
  simp [hne]

theorem Source.reads (h : Source cfg t r ds ns) :
    hasExtension (cfg.extensions.map plainExtension) ⟨ns.getLastD ""⟩ := by
  obtain ⟨names, hne, rfl, hreads⟩ := h.below
  rw [Survey.reads, Bool.and_eq_true] at hreads
  have hlast : (ds ++ names).getLastD "" = names.getLastD "" := by
    rw [getLastD_eq_getLast?, getLastD_eq_getLast?, getLast?_append_of_ne_nil _ hne]
  rw [hlast]
  exact hreads.2

/-- A file that is not examined has no violations. -/
theorem ofFile_cases (cfg : Config.Scanner) (file : String) (bytes : List UInt8) :
    (ofFile cfg file bytes).examined = [file] ∨
      (ofFile cfg file bytes).examined = [] ∧ (ofFile cfg file bytes).violations = [] := by
  rw [ofFile]
  split_ifs
  · exact .inr ⟨rfl, rfl⟩
  · split
    · exact .inr ⟨rfl, rfl⟩
    · exact .inl rfl

theorem file_of_mem_ofSource {v : Violation} (hv : v ∈ (ofSource cfg t r ns).violations) :
    v.file = relative ns ∧ v.fixed = false := by
  rw [ofSource] at hv
  split at hv
  · exact of_mem_ofFile hv
  · cases hv

/-- Whether a survey of the directory at `ds` examines an entry below it. -/
def examines (cfg : Config.Scanner) (t : FileTree) (r ds : Location) (x : Location × Entry) : Bool :=
  reads cfg x.1 && !isOverlong (r ++ (ds ++ x.1)).path &&
    (ofSource cfg t r (ds ++ x.1)).examined = [relative (ds ++ x.1)]

theorem Source.of_examines {x : Location × Entry} (hx : x ∈ t.below (r ++ ds)) (ht : t.Distinct)
    (h : examines cfg t r ds x) : Source cfg t r ds (ds ++ x.1) := by
  obtain ⟨hne, hget⟩ := (mem_below_iff ht).1 hx
  rw [examines, Bool.and_eq_true, Bool.and_eq_true, Bool.not_eq_true', decide_eq_true_iff] at h
  obtain ⟨⟨hreads, hlong⟩, hexamined⟩ := h
  refine ⟨⟨x.1, hne, rfl, hreads⟩, hlong, ⟨x.2, by rwa [← append_assoc], ?_⟩, hexamined⟩
  rw [ofSource, ← append_assoc, hget, Option.bind_some] at hexamined
  cases hbytes : x.2.bytes? with
  | none => simp [hbytes] at hexamined
  | some bytes => exact isFile_of_bytes? hbytes

/-- What the survey of a directory takes from an entry below it. -/
theorem ofDir_entry (ht : t.Solid r) (hdir : t.DirAt (r ++ ds)) {x : Location × Entry}
    (hx : x ∈ t.below (r ++ ds)) :
    (ofDir cfg (cfg.extensions.map plainExtension) r.path (r ++ ds).path [x]).examined =
        (if examines cfg t r ds x then [relative (ds ++ x.1)] else []) ∧
      (ofDir cfg (cfg.extensions.map plainExtension) r.path (r ++ ds).path [x]).violations =
        if examines cfg t r ds x then (ofSource cfg t r (ds ++ x.1)).violations else [] := by
  obtain ⟨names, e⟩ := x
  obtain ⟨hne, hget⟩ := (mem_below_iff ht.distinct).1 hx
  rw [append_assoc] at hget
  have hproper : Proper (r ++ (ds ++ names)) :=
    (ht.real _ e hget (prefix_append _ _)).proper
  have hds : Proper (r ++ ds) := (ht.real _ _ hdir (prefix_append _ _)).proper
  have hnames : Proper names := by
    simp only [proper_append] at hproper
    exact hproper.2.2
  cases hbytes : e.bytes? with
  | none => simp [ofDir, examines, ofSource, hget, hbytes, concat]
  | some bytes =>
    have hfile : e.isFile := isFile_of_bytes? hbytes
    simp only [ofDir, examines, ofSource, hget, hbytes, Option.bind_some, eligible_eq, hfile,
      Bool.true_and, filterMap_cons, filterMap_nil, foldl_join_path hds hnames,
      append_assoc, relativeTo_path hproper]
    by_cases hread : reads cfg names && !isOverlong (r ++ (ds ++ names)).path
    · rw [if_pos hread, hread]
      obtain hexamined | ⟨hexamined, hnone⟩ := ofFile_cases cfg (relative (ds ++ names)) bytes
      · simp [concat, hexamined]
      · simp [concat, hexamined, hnone]
    · rw [if_neg hread]
      simp [hread, concat]

theorem flatMap_if {α β : Type} (p : α → Bool) (f : α → List β) (xs : List α) :
    (xs.flatMap fun x ↦ if p x then f x else []) = (xs.filter p).flatMap f := by
  induction xs with
  | nil => rfl
  | cons x xs ih =>
    rw [flatMap_cons, ih, filter_cons]
    split_ifs <;> simp

/-- The survey of a directory is put together from those of the files that it examines. -/
theorem exists_sources (ht : t.Solid r) (hdir : t.DirAt (r ++ ds))
    (hs : Survey.of cfg r.path t (r ++ ds).path = .ok s) :
    ∃ places : List Location, places.Nodup ∧ (∀ ns ∈ places, Source cfg t r ds ns) ∧
      s.examined = places.map relative ∧
      s.violations = places.flatMap fun ns ↦ (ofSource cfg t r ns).violations := by
  have hreal := ht.real _ _ hdir (prefix_append r ds)
  obtain ⟨hlocate, -⟩ := real_of_ok hreal.proper hreal.clear hs
  simp only [Survey.of, ofTarget, hlocate, show t.get? (r ++ ds) = some .dir from hdir,
    Option.bind_some, Entry.bytes?] at hs
  cases hs
  have hentry {x : Location × Entry} := @ofDir_entry cfg t r ds ht hdir x
  rw [ofDir_eq_concat]
  refine ⟨((t.below (r ++ ds)).filter (examines cfg t r ds)).map fun x ↦ ds ++ x.1, ?_, ?_, ?_, ?_⟩
  · have hnodup := ((nodup_below ht.distinct (r ++ ds)).map (append_right_injective ds))
    rw [map_map] at hnodup
    exact hnodup.sublist (filter_sublist.map _)
  · intro ns hns
    obtain ⟨x, hx, rfl⟩ := mem_map.1 hns
    obtain ⟨hx, hexamines⟩ := mem_filter.1 hx
    exact .of_examines hx ht.distinct hexamines
  · simp only [concat, flatMap_map]
    rw [flatMap_congr fun x hx ↦ (hentry hx).1, flatMap_if, map_map, map_eq_flatMap]
    rfl
  · simp only [concat, flatMap_map]
    rw [flatMap_congr fun x hx ↦ (hentry hx).2, flatMap_if]

/-- Of a file that it examines, the survey of a directory says what there is in it. -/
theorem filter_sources {places : List Location} (hnodup : places.Nodup)
    (hproper : ∀ ns ∈ places, ns.Proper) (hns : ns ∈ places) :
    (places.flatMap fun ks ↦ (ofSource cfg t r ks).violations).filter (·.file = relative ns) =
      (ofSource cfg t r ns).violations := by
  have hpart (ks : Location) (hks : ks ∈ places) :
      (ofSource cfg t r ks).violations.filter (·.file = relative ns) =
        if ks = ns then (ofSource cfg t r ns).violations else [] := by
    split_ifs with heq
    · subst heq
      exact filter_eq_self.2 fun v hv ↦ decide_eq_true (file_of_mem_ofSource hv).1
    · refine filter_eq_nil_iff.2 fun v hv hfile ↦ heq ?_
      exact relative_inj (hproper ks hks) (hproper ns hns)
        ((file_of_mem_ofSource hv).1.symm.trans (of_decide_eq_true hfile))
  have hfilter : places.filter (fun ks ↦ decide (ks = ns)) = [ns] := by
    rw [filter_eq, count_eq_one_of_mem hnodup hns]
    rfl
  have hsplit := flatMap_if (fun ks ↦ decide (ks = ns))
    (fun _ ↦ (ofSource cfg t r ns).violations) places
  simp only [decide_eq_true_iff] at hsplit
  rw [filter_flatMap, flatMap_congr hpart, hsplit, hfilter, flatMap_singleton]

/-- The survey of a file alone. -/
theorem of_source (h : Source cfg t r ds ns) (hreal : Real u (r ++ ns))
    (hzero : '\x00' ∉ (r ++ ns).path.text.toList) (hfile : u.FileAt (r ++ ns)) :
    Survey.of cfg r.path u (r ++ ns).path = .ok (ofSource cfg u r ns) := by
  obtain ⟨e, hget, hfile⟩ := hfile
  obtain ⟨ks, n, rfl⟩ := (eq_nil_or_concat' ns).resolve_left h.ne_nil
  have hextension := h.reads
  rw [getLastD_eq_getLast?, getLast?_concat, Option.getD_some,
    ← hasExtension_path (append_assoc r ks [n] ▸ hreal.proper), append_assoc] at hextension
  obtain ⟨bytes, hbytes⟩ : ∃ bytes, e.bytes? = some bytes := by
    cases e with
    | file | database => exact ⟨_, rfl⟩
    | dir | link => cases hfile
  simp only [Survey.of, ofTarget, locate_of_real hreal hzero h.short, hget, hbytes, Option.bind_some,
    if_pos hextension, ofSource, relativeTo_path hreal.proper]

end Survey

end Steward
