import Steward.Proofs.Sweep.Run

/-!
# A directory is healed as its files are

Healing a directory and healing the files in it one by one, in any order, leave the same outside the
reserved directory, `Work.heal_directory_eq_heal_each`. Both are sweeps over files that have nothing
to do with each other. The ledger has to be in the reserved directory: it does tell the two apart,
`Work.heal_each_adds_to_ledger`.
-/

namespace Steward

open Location FileTree Steward.Fix List

/-! ## Files below a directory -/

theorem Location.suffix_relative (ks : Location) (n : String) :
    n.toList <:+ (relative (ks ++ [n])).toList := by
  have hsuffix : '/' :: n.toList <:+ '/' :: (relative (ks ++ [n])).toList := by
    rw [relative, if_neg (by simp), cons_toList_intercalate (by simp)]
    simp
  rcases suffix_cons_iff.1 hsuffix with heq | hsuffix
  · rw [List.cons.inj heq |>.2]
  · exact (suffix_cons '/' n.toList).trans hsuffix

theorem exists_map_of_subset {α β : Type} {f : α → β} {xs : List α} {ys : List β}
    (h : ∀ y ∈ ys, y ∈ xs.map f) : ∃ zs : List α, zs.map f = ys ∧ ∀ z ∈ zs, z ∈ xs := by
  have hrange : ys ∈ Set.range (List.map fun x : { x // x ∈ xs } ↦ f x.1) := by
    rw [Set.range_list_map]
    intro y hy
    obtain ⟨x, hx, rfl⟩ := mem_map.1 (h y hy)
    exact ⟨⟨x, hx⟩, rfl⟩
  obtain ⟨zs, rfl⟩ := hrange
  refine ⟨zs.map Subtype.val, ?_, fun z hz ↦ ?_⟩
  · rw [map_map]
    rfl
  · obtain ⟨⟨x, hx⟩, -, rfl⟩ := mem_map.1 hz
    exact hx

theorem Fix.Near.isPrefix {n m : String} (h : Near n m) : n.toList <+: m.toList := by
  rcases h with rfl | rfl | rfl | rfl
  · exact prefix_refl _
  · rw [String.toList_append]
    exact prefix_append _ _
  · rw [String.toList_append]
    exact prefix_append _ _
  · rw [String.toList_append, String.toList_append, append_assoc]
    exact prefix_append _ _

theorem FileTree.DirAt.not_isFile {t : FileTree} {l : Location} (h : t.DirAt l) (hreal : Real t l) :
    ¬t.isFile l.path := by
  rw [isFile]
  cases hfind : t.find l.path with
  | error => simp [Except.toOption]
  | ok e =>
    have hget := ((find_path_eq_ok_iff hreal.clear hreal.proper).1 hfind).2.2.2
    cases hget.symm.trans h
    simp [Except.toOption, Entry.isFile]

theorem FileTree.Real.isFile_path {t : FileTree} {l : Location} (h : Real t l)
    (hzero : '\x00' ∉ l.path.text.toList) (hshort : isOverlong l.path = false)
    (hfile : t.FileAt l) : t.isFile l.path := by
  obtain ⟨e, hget, hfile⟩ := hfile
  rw [isFile, (find_path_eq_ok_iff h.clear h.proper).2 ⟨h, hzero, hshort, hget⟩]
  simpa [Except.toOption] using hfile

theorem Survey.ofSource_congr {cfg : Config.Scanner} {t u : FileTree} {r ns : Location}
    (h : t.content (r ++ ns) = u.content (r ++ ns)) : ofSource cfg u r ns = ofSource cfg t r ns := by
  have hbytes (v : FileTree) :
      (v.get? (r ++ ns)).bind (·.bytes?) = (v.content (r ++ ns)).bind (·.bytes?) := by
    rw [content]
    cases v.get? (r ++ ns) with
    | none => rfl
    | some e => exact (Entry.bytes?_undated e).symm
  rw [ofSource, ofSource, hbytes, hbytes, h]

/-- The place is in the reserved directory of the workspace at `r`. -/
def Reserved (r q : Location) : Prop := r ++ [Workspace.reservedName] <+: q

instance (r q : Location) : Decidable (Reserved r q) :=
  inferInstanceAs (Decidable (r ++ [Workspace.reservedName] <+: q))

namespace Survey.Source

variable {cfg : Config.Scanner} {t : FileTree} {r ds ns q : Location}

theorem real (h : Source cfg t r ds ns) (ht : t.Solid r) : Real t (r ++ ns) := by
  obtain ⟨e, hget, -⟩ := h.file
  exact ht.real _ e hget (prefix_append r ns)

theorem below_root (h : Source cfg t r ds ns) (ht : t.Solid r) : Below r ns :=
  ⟨h.ne_nil, (h.real ht).proper⟩

theorem noZero (h : Source cfg t r ds ns) (ht : t.Solid r) :
    '\x00' ∉ (r ++ ns).path.text.toList := (h.real ht).nulFree ht.nulFree

/-- What is near the files below a directory is in the reserved directory exactly if that one is:
files that are hidden are not read. -/
theorem reserved_iff (h : Source cfg t r ds ns) (ht : t.Solid r) (hq : Nearby (r ++ ns) q) :
    Reserved r q ↔ ds.head? = some Workspace.reservedName := by
  have hproper := (h.real ht).proper
  obtain ⟨names, hne, rfl, hreads⟩ := h.below
  obtain ⟨ks, n, rfl⟩ := (eq_nil_or_concat' names).resolve_left hne
  rw [← append_assoc, ← append_assoc, nearby_concat] at hq
  obtain ⟨m, rfl, hm⟩ := hq
  rw [Reserved, append_assoc, append_assoc, prefix_append_right_inj]
  have hplain : ∀ k ∈ ks ++ [n], ¬".".toList <+: k.toList := by
    intro k hk hdot
    rw [Survey.reads, Bool.and_eq_true, Bool.and_eq_true, all_eq_true] at hreads
    have hstarts := hreads.1.1 k hk
    rw [String.startsWith_string_iff.2 hdot] at hstarts
    cases hstarts
  cases ds with
  | cons a ds => simp [eq_comm]
  | nil =>
    simp only [nil_append, head?_nil, reduceCtorEq, iff_false]
    intro hreserved
    cases ks with
    | cons k ks =>
      rw [cons_append, cons_prefix_cons] at hreserved
      exact hplain k (by simp) (hreserved.1 ▸ by decide)
    | nil =>
      obtain rfl : Workspace.reservedName = m := by simpa using hreserved
      have hdot : ".".toList <+: Workspace.reservedName.toList := by decide
      rcases prefix_or_prefix_of_prefix hdot hm.isPrefix with hdot | hshort
      · exact hplain n (by simp) hdot
      · have hn := (hproper n (by simp)).toList_ne_nil
        have heq := hshort.eq_of_length (le_antisymm hshort.length_le (length_pos_iff.2 hn))
        exact hplain n (by simp) (heq ▸ prefix_refl _)

theorem isDir_dropLast (h : Source cfg t r ds ns) (ht : t.Solid r) :
    t.isDir (Location.path (r ++ ns).dropLast) := by
  have hreal := h.real ht
  have hshort := h.short
  have hzero := h.noZero ht
  generalize r ++ ns = l at hreal hshort hzero
  cases hreal with
  | top => rfl
  | @down l n e above hdir _ _ _ _ =>
    have hl : l <+: l ++ [n] := prefix_append l [n]
    rw [dropLast_concat]
    exact (isDir_path_iff above.clear above.proper).2
      ⟨above, fun hmem ↦ hzero ((toList_path_isPrefix hl).subset hmem),
        isOverlong_of_isPrefix hl hshort, hdir⟩

/-- The files below a directory can be fixed one by one, if their names are lasting and the ledger
is not near them. -/
theorem spread {places : List Location} {place : Location} (ht : t.Solid r)
    (hplaces : ∀ ns ∈ places, Source cfg t r ds ns)
    (hlasting : ∀ ns ∈ places, Lasting (relative ns))
    (haway : ∀ ns ∈ places, ¬Nearby (r ++ ns) place) : Spread t r place places where
  links := ht.noLinks
  below ns hns := (hplaces ns hns).below_root ht
  dir ns hns := (hplaces ns hns).isDir_dropLast ht
  apart ns hns ms hms q hq hq' := by
    obtain ⟨ks, n, rfl⟩ := (eq_nil_or_concat' ns).resolve_left (hplaces ns hns).ne_nil
    obtain ⟨js, m, rfl⟩ := (eq_nil_or_concat' ms).resolve_left (hplaces ms hms).ne_nil
    rw [← append_assoc, nearby_concat] at hq hq'
    obtain ⟨x, rfl, hx⟩ := hq
    obtain ⟨y, heq, hy⟩ := hq'
    obtain ⟨habove, hxy⟩ := append_inj' heq rfl
    cases hxy
    have hlast {ks : Location} {n : String} (h : Lasting (relative (ks ++ [n]))) : Lasting n :=
      ⟨fun hn ↦ h.1 (hn.trans (suffix_relative ks n)),
        fun hn ↦ h.2 (hn.trans (suffix_relative ks n))⟩
    rw [append_cancel_left habove,
      eq_of_near (hlast (hlasting _ hns)) (hlast (hlasting _ hms)) hx hy]
  away := haway

end Survey.Source

/-! ## What is to be healed -/

theorem Healing.batch_eq (vs : List Violation) (file : String) :
    Healing.batch { violations := vs } file = (vs.filter (·.file = file)).filter (·.fixable) := by
  rw [Healing.batch, filter_filter]

section Sources

variable {cfg : Config.Scanner} {t : FileTree} {r ns : Location} {places : List Location}
  {s : Survey}

theorem Survey.batch_sources (hnodup : places.Nodup) (hproper : ∀ ns ∈ places, ns.Proper)
    (hviolations : s.violations = places.flatMap fun ns ↦ (ofSource cfg t r ns).violations)
    (hns : ns ∈ places) :
    Healing.batch { violations := s.violations } (relative ns) =
      Healing.batch { violations := (ofSource cfg t r ns).violations } (relative ns) := by
  rw [Healing.batch_eq, Healing.batch_eq, hviolations, filter_sources hnodup hproper hns,
    filter_eq_self.2 fun v hv ↦ decide_eq_true (file_of_mem_ofSource hv).1]

/-- What is to be healed is among the files examined, and there is nothing to fix in the others. -/
theorem Survey.exists_targets (hproper : ∀ ns ∈ places, ns.Proper)
    (hviolations : s.violations = places.flatMap fun ns ↦ (ofSource cfg t r ns).violations) :
    ∃ nss : List Location, Healing.targets s.violations none = nss.map relative ∧ nss.Nodup ∧
      (∀ ns ∈ nss, ns ∈ places) ∧
      ∀ ns ∈ places, ns ∉ nss →
        Healing.batch { violations := s.violations } (relative ns) = [] := by
  obtain ⟨nss, hnss, hsub⟩ : ∃ nss : List Location,
      nss.map relative = Healing.targets s.violations none ∧ ∀ ns ∈ nss, ns ∈ places := by
    refine exists_map_of_subset fun file hfile ↦ ?_
    have hfile := Work.mem_sortedDistinct hfile
    rw [Option.toList_none, append_nil] at hfile
    obtain ⟨v, hv, rfl⟩ := mem_map.1 hfile
    obtain ⟨ns, hns, hv⟩ := mem_flatMap.1 (hviolations ▸ (mem_filter.1 hv).1)
    exact mem_map.2 ⟨ns, hns, (file_of_mem_ofSource hv).1.symm⟩
  have hnodup : (nss.map relative).Nodup := hnss ▸ Work.nodup_sortedDistinct _
  refine ⟨nss, hnss.symm, hnodup.of_map, hsub, fun ns hns hnot ↦ ?_⟩
  rw [Healing.batch, filter_eq_nil_iff]
  intro v hv hfixable
  rw [Bool.and_eq_true, decide_eq_true_iff] at hfixable
  have htarget : relative ns ∈ nss.map relative := by
    rw [hnss, ← hfixable.2]
    refine Work.mem_sortedDistinct_of_mem
      (mem_append_left _ (mem_map.2 ⟨v, mem_filter.2 ⟨hv, hfixable.1⟩, rfl⟩))
  obtain ⟨ms, hms, heq⟩ := mem_map.1 htarget
  exact hnot (relative_inj (hproper ms (hsub ms hms)) (hproper ns hns) heq ▸ hms)

end Sources

/-! ## Healing file by file -/

theorem Sweep.trans {cfg : Config.Fixer} {r place : Location}
    {plan : Location → Option (List Violation)} {nss mss : List Location} {t u v : FileTree}
    (h : Sweep cfg r place plan t nss u) (h' : Sweep cfg r place plan u mss v) :
    Sweep cfg r place plan t (nss ++ mss) v := by
  induction h' with
  | nil hledger =>
    rw [append_nil]
    exact h.ledger hledger
  | snoc _ hm ih =>
    rw [← append_assoc]
    exact ih.snoc hm

namespace Desk

/-- The files that a scan of the target examines. -/
def examined (d : Desk) (p : Path) : List String :=
  if (d.decision ⟨.scan, p⟩).allowed then
    match Survey.of d.session.config.scanner d.session.root d.host.tree p with
    | .ok s => s.examined
    | .error _ => []
  else []

/-- What healing does to the file at `ns`, going by what is in it now: nothing, unless the rules
allow it to be written. -/
def remedy (d : Desk) (r ns : Location) : Option (List Violation) :=
  if (d.decision ⟨.write, (r ++ ns).path⟩).allowed then
    some (Healing.batch { violations :=
      (Survey.ofSource d.session.config.scanner d.host.tree r ns).violations } (relative ns))
  else none

variable {r place : Location} {plan : Location → Option (List Violation)}
  {nss mss : List Location} {d e f : Desk}

theorem Swept.trans (h : d.Swept r place plan nss e) (h' : e.Swept r place plan mss f) :
    d.Swept r place plan (nss ++ mss) f :=
  ⟨h.akin.trans h'.akin, h.sweep.trans (h.akin.config ▸ h'.sweep)⟩

theorem still_refl (d : Desk) : d.Still d := ⟨rfl, rfl⟩

end Desk

open Desk

namespace Work

variable {r ds place ns : Location} {plan : Location → Option (List Violation)}
  {nss mss : List Location} {d e : Desk}

/-- Healing a file by its name mends that file. -/
theorem heal_file_swept (hd : d.Tidy r place) (hns : Below r ns)
    (hresolve : d.workspace.resolve d.host.tree (relative ns) = .ok (r ++ ns).path)
    (hfile : d.host.tree.isFile (r ++ ns).path)
    (hallowed : (d.decision ⟨.scan, (r ++ ns).path⟩).allowed) {s : Survey}
    (hs : Survey.of d.session.config.scanner d.session.root d.host.tree (r ++ ns).path = .ok s)
    (hplan : plan ns = if (d.decision ⟨.write, (r ++ ns).path⟩).allowed then
      some (Healing.batch { violations := s.violations } (relative ns)) else none) :
    d.Swept r place plan [ns] ((heal (relative ns)).after d) := by
  have hname : (r ++ ns).path.relativeTo d.session.root = relative ns := by
    rw [hd.root, relativeTo_path hns.2]
  have hviolations : ∀ v ∈ s.violations, v.file = relative ns := by
    obtain ⟨s', hs', hviolations⟩ :=
      Survey.exists_of_isFile hfile d.session.config.scanner d.session.root
    cases hs.symm.trans hs'
    rwa [hname] at hviolations
  have hrun := heal_swept hd hresolve hallowed hs (show ∀ ms ∈ [ns], Below r ms by simpa using hns)
    (nodup_singleton ns) (fun _ ↦ ⟨ns, rfl, rfl⟩)
    (by rw [if_pos hfile, hname, targets_of_file hviolations]; rfl) (by simpa using hplan)
  exact after_of_triple hrun d.still_refl (fun _ _ ↦ id) fun _ _ ↦ id

/-- Whatever has become of a file, healing it by its name mends that file or none. -/
theorem exists_heal_swept (hd : d.Tidy r place) (hns : Below r ns)
    (hdir : ¬d.host.tree.DirAt (r ++ ns)) :
    ∃ (plan : Location → Option (List Violation)) (mss : List Location), (∀ ms ∈ mss, ms = ns) ∧
      d.Swept r place plan mss ((heal (relative ns)).after d) := by
  by_cases hleft : ∀ p s, d.workspace.resolve d.host.tree (relative ns) = .ok p →
      (d.decision ⟨.scan, p⟩).allowed →
      Survey.of d.session.config.scanner d.session.root d.host.tree p ≠ .ok s
  · exact ⟨fun _ ↦ none, [], by simp,
      after_of_triple (heal_left hd hleft) d.still_refl (fun _ _ ↦ False.elim) fun _ _ ↦ id⟩
  · push Not at hleft
    obtain ⟨p, s, hp, hallowed, hs⟩ := hleft
    have hclear : d.host.tree.Clear (r ++ ns) := hd.links.clear (prefix_append r ns)
    obtain rfl := Workspace.eq_of_resolve_relative hd.root hns.1 hclear hns.2 hp
    obtain ⟨-, hreal, hzero, hshort⟩ := Survey.real_of_ok hns.2 hclear hs
    obtain ⟨e, hget⟩ := Option.isSome_iff_exists.1 hreal.isSome
    have hfile := hreal.isFile_path hzero hshort ⟨e, hget, isFile_of_clear hclear hget hdir⟩
    exact ⟨fun _ ↦ _, [ns], by simp, heal_file_swept hd hns hp hfile hallowed hs rfl⟩

/-- A run that is about a directory sweeps over some of the files that a scan of it examines. In the
others there is nothing to fix. -/
theorem heal_directory_swept (hd : d.Tidy r place) (ht : d.host.tree.Solid r) {raw : String}
    (hraw : d.workspace.resolve d.host.tree raw = .ok (r ++ ds).path)
    (hdir : d.host.tree.DirAt (r ++ ds)) :
    ∃ places nss : List Location,
      d.examined (r ++ ds).path = places.map relative ∧ places.Nodup ∧
      (∀ ns ∈ places, Survey.Source d.session.config.scanner d.host.tree r ds ns ∧
        (d.decision ⟨.scan, (r ++ ds).path⟩).allowed) ∧
      nss.Nodup ∧ (∀ ns ∈ nss, ns ∈ places) ∧
      (∀ ns ∈ places, ns ∉ nss → Idle (d.remedy r ns)) ∧
      d.Swept r place (d.remedy r) nss ((heal raw).after d) := by
  by_cases hleft : ∀ p s, d.workspace.resolve d.host.tree raw = .ok p →
      (d.decision ⟨.scan, p⟩).allowed →
      Survey.of d.session.config.scanner d.session.root d.host.tree p ≠ .ok s
  · have hexamined : d.examined (r ++ ds).path = [] := by
      rw [examined]
      split_ifs with hallowed
      · split
        case h_1 s hs => exact absurd hs (hleft _ s hraw hallowed)
        case h_2 => rfl
      · rfl
    exact ⟨[], [], hexamined, nodup_nil, by simp, nodup_nil, by simp, by simp,
      after_of_triple (heal_left hd hleft) d.still_refl (fun _ _ ↦ False.elim) fun _ _ ↦ id⟩
  · push Not at hleft
    obtain ⟨p, s, hp, hallowed, hs⟩ := hleft
    cases hraw.symm.trans hp
    have hexamined : d.examined (r ++ ds).path = s.examined := by rw [examined, if_pos hallowed, hs]
    have hs' := hs
    rw [hd.root] at hs'
    obtain ⟨places, hnodup, hsources, hplaces, hviolations⟩ := Survey.exists_sources ht hdir hs'
    have hproper : ∀ ns ∈ places, ns.Proper := fun ns hns ↦
      ((proper_append r ns).1 ((hsources ns hns).real ht).proper).2
    obtain ⟨nss, htargets, hnss, hsub, hidle⟩ := Survey.exists_targets hproper hviolations
    have hremedy : ∀ ns ∈ places, d.remedy r ns =
        if (d.decision ⟨.write, (r ++ ns).path⟩).allowed then
          some (Healing.batch { violations := s.violations } (relative ns)) else none :=
      fun ns hns ↦ by rw [remedy, Survey.batch_sources hnodup hproper hviolations hns]
    refine ⟨places, nss, hexamined.trans hplaces, hnodup, fun ns hns ↦ ⟨hsources ns hns, hallowed⟩,
      hnss, hsub, fun ns hns hnot vs hvs ↦ ?_, ?_⟩
    · rw [hremedy ns hns, hidle ns hns hnot] at hvs
      split_ifs at hvs
      · exact (Option.some.inj hvs).symm
      · cases hvs
    · have hnot := hdir.not_isFile (ht.real _ _ hdir (prefix_append r ds))
      have hrun := heal_swept hd hraw hallowed hs
        (fun ns hns ↦ (hsources ns (hsub ns hns)).below_root ht) hnss (fun h ↦ absurd h hnot)
        (by rw [if_neg hnot, htargets]) fun ns hns ↦ hremedy ns (hsub ns hns)
      exact after_of_triple hrun d.still_refl (fun _ _ ↦ id) fun _ _ ↦ id

/-- A file that a directory was found to have, healed by its name after others were: the run does to
it what it would have done at first. -/
theorem heal_source_swept (hd : d.Tidy r place) (hrules : d.session.constitution = .standard)
    (ht : d.host.tree.Solid r) {places : List Location}
    (hs : Spread d.host.tree r place places)
    (hsource : Survey.Source d.session.config.scanner d.host.tree r ds ns)
    (hallowed : (d.decision ⟨.scan, (r ++ ds).path⟩).allowed)
    (hnss : ∀ ms ∈ nss ++ [ns], ms ∈ places) (hnodup : (nss ++ [ns]).Nodup)
    (he : d.Swept r place (d.remedy r) nss e) :
    d.Swept r place (d.remedy r) (nss ++ [ns]) ((heal (relative ns)).after e) := by
  have hnew : ns ∉ nss := fun hmem ↦ (nodup_append.1 hnodup).2.2 ns hmem ns (by simp) rfl
  have hbefore : ∀ ms ∈ nss, ms ∈ places := fun ms hms ↦ hnss ms (mem_append_left _ hms)
  have hbelow := hsource.below_root ht
  have htidy := he.tidy hd fun ms hms ↦ hs.below ms (hbefore ms hms)
  -- The file is as it was.
  have hsame : d.host.tree.content (r ++ ns) = e.host.tree.content (r ++ ns) := by
    obtain ⟨l, n, hk, -, -⟩ := hbelow.exists_concat
    have hbeside := he.sweep.beside hs hbefore (nodup_append.1 hnodup).1 (hnss ns (by simp)) hk
    rw [Sweep.outcome, if_neg hnew] at hbeside
    rw [hk]
    exact hbeside.same n (near_self n)
  have hfile : e.host.tree.FileAt (r ++ ns) := by
    obtain ⟨x, hget, hfile⟩ := hsource.file
    obtain ⟨y, hget', hundated⟩ := content_eq_some hsame hget
    rw [← Entry.isFile_undated, ← hundated, Entry.isFile_undated] at hfile
    exact ⟨y, hget', hfile⟩
  have hreal : Real e.host.tree (r ++ ns) :=
    (he.sweep.changes hd.links fun ms hms ↦ hs.below ms (hbefore ms hms)).real_file
      (hsource.real ht) hfile
  have hzero := hsource.noZero ht
  have hscan : (e.decision ⟨.scan, (r ++ ns).path⟩).allowed := by
    obtain ⟨names, -, rfl, -⟩ := hsource.below
    rw [hd.steady.decision he.akin, Desk.decision, Constitution.allowed_judge_iff, hrules]
    refine Rule.standard_allows_scan_of_isUnder (p := (r ++ ds).path) ?_ ?_
    · have hproper := hbelow.2
      rw [← append_assoc] at hproper ⊢
      exact isPrefixOf_components_path hproper
    · rw [Desk.decision, Constitution.allowed_judge_iff, hrules] at hallowed
      exact hallowed
  have hsurvey : Survey.of e.session.config.scanner e.session.root e.host.tree (r ++ ns).path =
      .ok (Survey.ofSource d.session.config.scanner d.host.tree r ns) := by
    rw [htidy.root, he.akin.config, Survey.of_source hsource hreal hzero hfile,
      Survey.ofSource_congr hsame]
  refine he.trans (heal_file_swept htidy hbelow ?_ (hreal.isFile_path hzero hsource.short hfile)
    hscan hsurvey ?_)
  · exact Workspace.resolve_relative htidy.root hsource.ne_nil hreal hzero hsource.short
  · rw [remedy, hd.steady.decision he.akin]

/-- Files that a directory was found to have, healed one after the other. -/
theorem heal_each_swept (hd : d.Tidy r place) (hrules : d.session.constitution = .standard)
    (ht : d.host.tree.Solid r) {places : List Location} (hs : Spread d.host.tree r place places)
    (hplaces : ∀ ns ∈ places, Survey.Source d.session.config.scanner d.host.tree r ds ns ∧
        (d.decision ⟨.scan, (r ++ ds).path⟩).allowed)
    (hsub : ∀ ms ∈ nss ++ mss, ms ∈ places) (hnodup : (nss ++ mss).Nodup)
    (he : d.Swept r place (d.remedy r) nss e) :
    d.Swept r place (d.remedy r) (nss ++ mss)
      ((mss.map relative).foldl (fun e file ↦ (heal file).after e) e) := by
  induction mss generalizing nss e with
  | nil => rwa [append_nil]
  | cons ns mss ih =>
    rw [append_cons] at hsub hnodup ⊢
    have hns := hplaces ns (hsub ns (by simp))
    have hnext := heal_source_swept hd hrules ht hs hns.1 hns.2
      (fun ms hms ↦ hsub ms (mem_append_left _ hms)) (nodup_append.1 hnodup).1 he
    exact ih hsub hnodup hnext

/-- Healing files by their names leaves all but the ledger alone that is not near one of them, also
where they come in each other's way. -/
theorem heal_each_changes (hd : d.Tidy r place) (hbelow : ∀ ms ∈ mss, Below r ms)
    (hdirs : ∀ ms ∈ mss, ¬d.host.tree.DirAt (r ++ ms)) :
    ChangesOnly (fun q ↦ q = place ∨ ∃ ms ∈ mss, Nearby (r ++ ms) q) d.host.tree
      ((mss.map relative).foldl (fun e file ↦ (heal file).after e) d).host.tree := by
  induction mss generalizing d with
  | nil => exact .refl _ _
  | cons ns mss ih =>
    obtain ⟨plan, kss, hkss, hswept⟩ :=
      exists_heal_swept hd (hbelow ns mem_cons_self) (hdirs ns mem_cons_self)
    have hbelow' : ∀ ks ∈ kss, Below r ks := fun ks hks ↦
      hkss ks hks ▸ hbelow ns mem_cons_self
    have hchanges := hswept.sweep.changes hd.links hbelow'
    have hrest := ih (hswept.tidy hd hbelow') (fun ms hms ↦ hbelow ms (mem_cons_of_mem _ hms))
      fun ms hms hdir ↦ by
        rcases hchanges.files _ _ hdir with hdir | ⟨-, hfile⟩
        · exact hdirs ms (mem_cons_of_mem _ hms) hdir
        · cases hfile
    refine (hchanges.mono fun q hq _ ↦ hq.imp_right ?_).trans
      (hrest.mono fun q hq _ ↦ hq.imp_right ?_)
    · rintro ⟨ks, hks, hnear⟩
      exact ⟨ns, mem_cons_self, hkss ks hks ▸ hnear⟩
    · rintro ⟨ms, hms, hnear⟩
      exact ⟨ms, mem_cons_of_mem _ hms, hnear⟩

/-- **A directory is healed as its files are.** Let the workspace have no links, a steady history and
the standard rules, and let the ledger be in the reserved directory. If no file that a scan of a
directory examines has the name of a copy or of a file under way, then healing the directory and
healing these files by their names, in any order, leave the same everywhere outside the reserved
directory, whatever is forbidden on the way. -/
theorem heal_directory_eq_heal_each (hd : d.Tidy r place)
    (hrules : d.session.constitution = .standard) (ht : d.host.tree.Solid r)
    (hplace : Reserved r place) {raw : String} {p : Path}
    (hraw : d.workspace.resolve d.host.tree raw = .ok p) (hdir : d.host.tree.isDir p)
    (hlasting : ∀ file ∈ d.examined p, Lasting file) {files : List String}
    (hfiles : files.Perm (d.examined p)) {q : Location} (hq : ¬Reserved r q) :
    ((heal raw).after d).host.tree.content q =
      (files.foldl (fun e file ↦ (heal file).after e) d).host.tree.content q := by
  obtain ⟨ds, rfl, hproper⟩ := Workspace.exists_of_resolve hd.root
    (hd.links.clear (List.prefix_refl r)) hd.proper hraw
  have hclear := hd.links.clear (List.prefix_append r ds)
  obtain ⟨-, -, -, hdir⟩ := (isDir_path_iff hclear hproper).1 hdir
  obtain ⟨places, nss, hexamined, hnodup, hplaces, hnss, hsub, hidle, hheal⟩ :=
    heal_directory_swept hd ht hraw hdir
  rw [hexamined] at hfiles hlasting
  obtain ⟨mss, rfl, hmss⟩ := exists_map_of_subset fun _ hfile ↦ hfiles.subset hfile
  have hproper {ns : Location} (hns : ns ∈ places) : ns.Proper :=
    ((proper_append r ns).1 ((hplaces ns hns).1.real ht).proper).2
  have hall : ∀ ns ∈ places, ns ∈ mss := by
    intro ns hns
    obtain ⟨ms, hms, heq⟩ := List.mem_map.1 (hfiles.symm.subset (List.mem_map_of_mem hns))
    exact relative_inj (hproper (hmss ms hms)) (hproper hns) heq ▸ hms
  have hnodup' : mss.Nodup := by
    refine List.Nodup.of_map relative (hfiles.nodup_iff.2 (hnodup.map_on ?_))
    exact fun ns hns ms hms ↦ relative_inj (hproper hns) (hproper hms)
  have hne : q ≠ place := fun heq ↦ hq (heq ▸ hplace)
  by_cases hinside : ds.head? = some Workspace.reservedName
  · -- All that the runs are about is in the reserved directory.
    have hfar {kss : List Location} (hkss : ∀ ks ∈ kss, ks ∈ places) :
        ¬(q = place ∨ ∃ ks ∈ kss, Nearby (r ++ ks) q) := by
      rintro (heq | ⟨ks, hks, hnear⟩)
      · exact hne heq
      · exact hq (((hplaces ks (hkss ks hks)).1.reserved_iff ht hnear).2 hinside)
    have hbelow {kss : List Location} (hkss : ∀ ks ∈ kss, ks ∈ places) : ∀ ks ∈ kss, Below r ks :=
      fun ks hks ↦ (hplaces ks (hkss ks hks)).1.below_root ht
    have hone := (hheal.sweep.changes hd.links (hbelow hsub)).others q (hfar hsub)
    have hother := (heal_each_changes hd (hbelow hmss) fun ms hms ↦
      (hplaces ms (hmss ms hms)).1.file.not_dirAt).others q (hfar hmss)
    rw [content, content, hone, hother]
  · have hspread : Spread d.host.tree r place mss :=
      Survey.Source.spread ht (fun ms hms ↦ (hplaces ms (hmss ms hms)).1)
        (fun ms hms ↦ hlasting _ (List.mem_map_of_mem (hmss ms hms)))
        fun ms hms hnear ↦ hinside (((hplaces ms (hmss ms hms)).1.reserved_iff ht hnear).1 hplace)
    have heach : d.Swept r place (d.remedy r) ([] ++ mss) _ :=
      heal_each_swept hd hrules ht hspread (fun ms hms ↦ hplaces ms (hmss ms hms))
        (fun ms hms ↦ hms) hnodup' d.still_refl.swept
    exact hheal.sweep.content_eq heach.sweep hspread (fun ns hns ↦ hall ns (hsub ns hns)) hnss
      hnodup' (fun ns hns ↦ hidle ns (hmss ns hns)) hne

/-- A workspace with a file to be healed and one that may not be written. -/
def trackedDesk : Desk where
  host :=
    { tree := { entries := [(["w"], .dir), (["w", ".jarvis"], .dir),
        (["w", "a.py"], .file (Utf8.encode "except:\n".toList) ⟨0, 0⟩),
        (["w", "b.py"], .file (Utf8.encode "except:\n".toList) ⟨0, 0⟩)] }
      now := ⟨0, 0⟩
      digest := fun _ => ""
      git := fun _ => .error "no git"
      given := { History.unavailable "no history" with
        repoRoot := .ok ⟨"/w"⟩
        isTracked := fun p => .ok (p.text ≠ "/w/b.py") } }
  session :=
    { root := ⟨"/w"⟩
      adapter := .given
      config := {}
      constitution := .standard
      log := ⟨⟨"/w/.jarvis/log"⟩, ⟨"", none, false⟩⟩
      index := none
      indexPath := ⟨"/w/.jarvis/context.db"⟩
      indexStale := true
      init := { root := ⟨"/w/.jarvis"⟩ } }

theorem trackedDesk_solid : trackedDesk.host.tree.Solid ["w"] :=
  .of_entries (by decide) (by decide) (by decide)

theorem trackedDesk_tidy : trackedDesk.Tidy ["w"] ["w", ".jarvis", "log"] :=
  ⟨rfl, by decide, trackedDesk_solid.noLinks, by decide, .inl (by decide +kernel), fun _ ↦ rfl⟩

theorem trackedDesk_examined : trackedDesk.examined ⟨"/w"⟩ = ["a.py", "b.py"] := by
  have hbelow : trackedDesk.host.tree.below ["w"] = [([".jarvis"], .dir),
      (["a.py"], .file (Utf8.encode "except:\n".toList) ⟨0, 0⟩),
      (["b.py"], .file (Utf8.encode "except:\n".toList) ⟨0, 0⟩)] :=
    mergeSort_of_pairwise (by decide)
  have hlocate : trackedDesk.host.tree.locate ⟨"/w"⟩ = .ok ["w"] := by decide +kernel
  have hget : trackedDesk.host.tree.get? ["w"] = some .dir := rfl
  rw [examined, if_pos (by decide +kernel)]
  simp only [Survey.of, Survey.ofTarget, hlocate, hget, hbelow, Option.bind_some, Entry.bytes?]
  decide +kernel

theorem heal_directory_eq_heal_each_denied :
    trackedDesk.Tidy ["w"] ["w", ".jarvis", "log"] ∧
      trackedDesk.session.constitution = .standard ∧ trackedDesk.host.tree.Solid ["w"] ∧
      Reserved ["w"] ["w", ".jarvis", "log"] ∧
      trackedDesk.workspace.resolve trackedDesk.host.tree "." = .ok ⟨"/w"⟩ ∧
      trackedDesk.host.tree.isDir ⟨"/w"⟩ ∧
      (∀ file ∈ trackedDesk.examined ⟨"/w"⟩, Lasting file) ∧
      ["b.py", "a.py"].Perm (trackedDesk.examined ⟨"/w"⟩) ∧ ¬Reserved ["w"] ["w", "a.py"] ∧
      ((heal ".").after trackedDesk).host.tree.content ["w", "a.py"] =
        (["b.py", "a.py"].foldl (fun e file ↦ (heal file).after e)
          trackedDesk).host.tree.content ["w", "a.py"] := by
  have hplace : Reserved ["w"] ["w", ".jarvis", "log"] := by decide
  have hraw : trackedDesk.workspace.resolve trackedDesk.host.tree "." = .ok ⟨"/w"⟩ := by
    decide +kernel
  have hdir : trackedDesk.host.tree.isDir ⟨"/w"⟩ := by decide +kernel
  have hlasting : ∀ file ∈ trackedDesk.examined ⟨"/w"⟩, Lasting file := by
    rw [trackedDesk_examined]
    decide
  have hfiles : ["b.py", "a.py"].Perm (trackedDesk.examined ⟨"/w"⟩) := by
    rw [trackedDesk_examined]
    decide
  have hq : ¬Reserved ["w"] ["w", "a.py"] := by decide
  exact ⟨trackedDesk_tidy, rfl, trackedDesk_solid, hplace, hraw, hdir, hlasting, hfiles, hq,
    heal_directory_eq_heal_each trackedDesk_tidy rfl trackedDesk_solid hplace hraw hdir hlasting
      hfiles hq⟩

/-- A workspace with nothing to heal, and its ledger among the files. -/
def cleanDesk : Desk := .sole "a.py" "x\n" ⟨"/w/log"⟩ {}

/-- A ledger outside the reserved directory tells how the files were healed. -/
theorem heal_each_adds_to_ledger :
    cleanDesk.Tidy ["w"] ["w", "log"] ∧ cleanDesk.session.constitution = .standard ∧
      cleanDesk.host.tree.Solid ["w"] ∧
      cleanDesk.workspace.resolve cleanDesk.host.tree "." = .ok ⟨"/w"⟩ ∧
      cleanDesk.host.tree.isDir ⟨"/w"⟩ ∧ (∀ file ∈ cleanDesk.examined ⟨"/w"⟩, Lasting file) ∧
      ["a.py"].Perm (cleanDesk.examined ⟨"/w"⟩) ∧ ¬Reserved ["w"] ["w", "log"] ∧
      ((heal ".").after cleanDesk).host.tree.content ["w", "log"] ≠
        (["a.py"].foldl (fun e file ↦ (heal file).after e)
          cleanDesk).host.tree.content ["w", "log"] := by
  have hexamined : cleanDesk.examined ⟨"/w"⟩ = ["a.py"] := by decide +kernel
  have hsolid : cleanDesk.host.tree.Solid ["w"] := .of_entries (by decide) (by decide) (by decide)
  rw [hexamined]
  exact ⟨⟨rfl, by decide, hsolid.noLinks, by decide, .inl (by decide +kernel), fun _ ↦ rfl⟩, rfl,
    hsolid, by decide +kernel, by decide +kernel, by decide, by decide, by decide, by decide +kernel⟩

end Work

end Steward
