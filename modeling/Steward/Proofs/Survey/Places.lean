import Steward.Proofs.Survey

/-!
# Surveys place by place

What a survey says of a file depends on the entry at its place alone, `Survey.ofPlace`. The survey
of a target is put together from the places at and below it, `Survey.exists_places`. So it says the
same of a file as the survey of the whole workspace, `Survey.filter_violations`, and surveys of
trees that hold the same files to be read are the same, `Survey.of_root_congr`.
-/

namespace Steward

open Location FileTree List

namespace Location

variable {l k : Location}

theorem cons_le_cons_iff {m n : String} : le (m :: l) (n :: k) ↔ m < n ∨ m = n ∧ le l k := by
  rw [le]
  split_ifs with h
  · simp only [h, lt_irrefl, true_and, false_or]
  · simp only [h, false_and, or_false, decide_eq_true_iff]

theorem le_total (l k : Location) : l.le k || k.le l := by
  induction l generalizing k with
  | nil => rfl
  | cons m l ih =>
    cases k with
    | nil => rfl
    | cons n k =>
      rw [Bool.or_eq_true, cons_le_cons_iff, cons_le_cons_iff]
      rcases lt_trichotomy m n with h | rfl | h
      · exact .inl (.inl h)
      · exact (Bool.or_eq_true_iff.1 (ih k)).imp (.inr ⟨rfl, ·⟩) (.inr ⟨rfl, ·⟩)
      · exact .inr (.inl h)

theorem le_trans {m : Location} (hlk : l.le k) (hkm : k.le m) : l.le m := by
  induction l generalizing k m with
  | nil => rfl
  | cons x l ih =>
    cases k with
    | nil => cases hlk
    | cons y k =>
      cases m with
      | nil => cases hkm
      | cons z m =>
        rw [cons_le_cons_iff] at hlk hkm ⊢
        rcases hlk with hxy | ⟨rfl, hlk⟩ <;> rcases hkm with hyz | ⟨rfl, hkm⟩
        · exact .inl (hxy.trans hyz)
        · exact .inl hxy
        · exact .inl hyz
        · exact .inr ⟨rfl, ih hlk hkm⟩

theorem le_antisymm (hlk : l.le k) (hkl : k.le l) : l = k := by
  induction l generalizing k with
  | nil =>
    cases k with
    | nil => rfl
    | cons => cases hkl
  | cons m l ih =>
    cases k with
    | nil => cases hlk
    | cons n k =>
      rw [cons_le_cons_iff] at hlk hkl
      rcases hlk with h | ⟨rfl, hlk⟩
      · rcases hkl with h' | ⟨rfl, -⟩
        · exact absurd h' h.asymm
        · exact absurd h (lt_irrefl _)
      · rw [ih hlk (hkl.resolve_left (lt_irrefl m)).2]

theorem relative_inj {ns ms : Location} (hns : ns.Proper) (hms : ms.Proper)
    (h : relative ns = relative ms) : ns = ms := by
  have hleft := of_decide_eq_true (same_join_relative (r := []) hns)
  have hright := of_decide_eq_true (same_join_relative (r := []) hms)
  rw [h] at hleft
  exact eq_of_components_path_eq hns hms (hleft.symm.trans hright)

end Location

namespace Path

theorem extensionOf?_append {stem e : String} (he : '.' ∉ e.toList) :
    extensionOf? (stem ++ ("." ++ e)) = if stem = "" then none else some e := by
  have hback : (stem ++ ("." ++ e)).toList.reverse =
      e.toList.reverse ++ '.' :: stem.toList.reverse := by
    simp
  have htake : (e.toList.reverse ++ '.' :: stem.toList.reverse).takeWhile (· != '.') =
      e.toList.reverse := by
    rw [takeWhile_append_of_pos]
    · simp
    · intro c hc
      rw [bne_iff_ne]
      rintro rfl
      exact he (mem_reverse.1 hc)
  have hrest : (e.toList.reverse ++ '.' :: stem.toList.reverse).drop
      (e.toList.reverse.length + 1) = stem.toList.reverse := by
    rw [drop_append]
    simp
  simp only [extensionOf?, hback, htake, hrest]
  split <;> simp_all

theorem extensionOf?_of_no_dot {n : String} (h : '.' ∉ n.toList) : extensionOf? n = none := by
  have htake : n.toList.reverse.takeWhile (· != '.') = n.toList.reverse := by
    rw [takeWhile_eq_self_iff]
    intro c hc
    rw [bne_iff_ne]
    rintro rfl
    exact h (mem_reverse.1 hc)
  simp only [extensionOf?, htake]
  rw [drop_eq_nil_of_le (Nat.le_succ _)]

/-- The extension of a name is what stands behind its last dot, if something stands before it. -/
theorem extensionOf?_eq_some_iff {n e : String} :
    extensionOf? n = some e ↔ '.' ∉ e.toList ∧ ∃ stem, stem ≠ "" ∧ n = stem ++ ("." ++ e) := by
  constructor
  · intro h
    by_cases hdot : '.' ∈ n.toList.reverse
    · obtain ⟨ext, rest, hback, hext⟩ := eq_append_cons_of_mem hdot
      have hn : n = String.ofList rest.reverse ++ ("." ++ String.ofList ext.reverse) := by
        apply String.toList_inj.1
        rw [← reverse_inj, hback]
        simp
      have he : '.' ∉ (String.ofList ext.reverse).toList := by simpa using hext
      rw [hn, extensionOf?_append he] at h
      split_ifs at h with hstem
      cases h
      exact ⟨he, _, hstem, hn⟩
    · rw [extensionOf?_of_no_dot (by simpa using hdot)] at h
      cases h
  · rintro ⟨he, stem, hstem, rfl⟩
    rw [extensionOf?_append he, if_neg hstem]

end Path

namespace FileTree

variable {t t' : FileTree} {l : Location}

theorem locate_of_real (h : Real t l) (hzero : '\x00' ∉ l.path.text.toList)
    (hlong : isOverlong l.path = false) : t.locate l.path = .ok l := by
  obtain ⟨e, hget⟩ := Option.isSome_iff_exists.1 h.isSome
  have hfind := (find_path_eq_ok_iff h.clear h.proper).2 ⟨h, hzero, hlong, hget⟩
  rw [find] at hfind
  cases hlocate : t.locate l.path with
  | error x => simp [hlocate] at hfind
  | ok k =>
    rw [locate] at hlocate
    split at hlocate
    · cases hlocate
    · rename_i hspot
      cases hlocate
      rcases spot_path_of_clear h.clear h.proper hspot with hk | hk <;> cases hk
      rfl
    · cases hlocate

/-! ## Entries below a place -/

theorem mem_inside_iff {k ns : Location} {e e' : Entry} :
    (if l.isPrefixOf k && k != l then some (k.drop l.length, e') else none) = some (ns, e) ↔
      k = l ++ ns ∧ ns ≠ [] ∧ e' = e := by
  constructor
  · intro h
    split_ifs at h with hbelow
    cases h
    rw [Bool.and_eq_true, isPrefixOf_iff_prefix, bne_iff_ne] at hbelow
    obtain ⟨⟨ms, rfl⟩, hne⟩ := hbelow
    rw [drop_left]
    refine ⟨rfl, ?_, rfl⟩
    rintro rfl
    exact hne (append_nil l)
  · rintro ⟨rfl, hne, rfl⟩
    simp [hne]

theorem mem_below_iff (ht : t.Distinct) {ns : Location} {e : Entry} :
    (ns, e) ∈ t.below l ↔ ns ≠ [] ∧ t.get? (l ++ ns) = some e := by
  rw [below, mem_mergeSort, mem_filterMap]
  constructor
  · rintro ⟨⟨k, e'⟩, hmem, hx⟩
    obtain ⟨rfl, hne, rfl⟩ := mem_inside_iff.1 hx
    exact ⟨hne, (ht.get?_eq_some_iff (by simp [hne])).2 hmem⟩
  · rintro ⟨hne, hget⟩
    exact ⟨(l ++ ns, e), (ht.get?_eq_some_iff (by simp [hne])).1 hget,
      mem_inside_iff.2 ⟨rfl, hne, rfl⟩⟩

theorem nodup_below (ht : t.Distinct) (l : Location) : ((t.below l).map Prod.fst).Nodup := by
  refine ((mergeSort_perm _ _).map Prod.fst).nodup_iff.2 ?_
  refine pairwise_map.2 ((pairwise_map.1 ht).filterMap _ ?_)
  rintro ⟨k, e⟩ ⟨k', e'⟩ hne ⟨ns, x⟩ hx ⟨ns', x'⟩ hx' heq
  obtain ⟨rfl, -, -⟩ := mem_inside_iff.1 hx
  obtain ⟨rfl, -, -⟩ := mem_inside_iff.1 hx'
  exact hne (congrArg (l ++ ·) heq)

theorem pairwise_below (t : FileTree) (l : Location) :
    (t.below l).Pairwise fun a b ↦ a.1.le b.1 := by
  have htrans (a b c : Location × Entry) (hab : a.1.le b.1) (hbc : b.1.le c.1) : a.1.le c.1 :=
    Location.le_trans hab hbc
  exact pairwise_mergeSort htrans (fun a b ↦ a.1.le_total b.1) _

/-- What is below a place in two trees is in the same order. -/
theorem filter_below_congr (ht : t.Distinct) (ht' : t'.Distinct) {p : Location × Entry → Bool}
    (h : ∀ ns e, p (ns, e) → (t'.get? (l ++ ns) = some e ↔ t.get? (l ++ ns) = some e)) :
    (t'.below l).filter p = (t.below l).filter p := by
  have hperm : ((t'.below l).filter p).Perm ((t.below l).filter p) := by
    refine (perm_ext_iff_of_nodup ((nodup_below ht' l).of_map.filter _)
      ((nodup_below ht l).of_map.filter _)).2 ?_
    rintro ⟨ns, e⟩
    rw [mem_filter, mem_filter, mem_below_iff ht', mem_below_iff ht]
    exact and_congr_left fun hp ↦ and_congr_right fun _ ↦ h ns e hp
  refine hperm.eq_of_pairwise ?_ ((pairwise_below t' l).filter p) ((pairwise_below t l).filter p)
  intro a b ha hb hab hba
  exact inj_on_of_nodup_map (nodup_below ht l) (mem_filter.1 (hperm.subset ha)).1
    (mem_filter.1 hb).1 (Location.le_antisymm hab hba)

end FileTree

namespace Survey

/-! ## Files that are read -/

/-- Whether a survey of the root reads a file with the given names from there on. -/
def reads (cfg : Config.Scanner) (names : Location) : Bool :=
  names.all (fun n => !n.startsWith ".") &&
    names.dropLast.all (fun n => !cfg.ignoredDirs.contains n) &&
    hasExtension (cfg.extensions.map plainExtension) ⟨names.getLastD ""⟩

/-- The survey of what is at a place, if a survey of the root reads it. -/
def ofPlace (cfg : Config.Scanner) (t : FileTree) (r ns : Location) : Survey :=
  match (t.get? (r ++ ns)).bind (·.bytes?) with
  | some bytes =>
    if reads cfg ns && !FileTree.isOverlong (r ++ ns).path then ofFile cfg (relative ns) bytes
    else {}
  | none => {}

variable {cfg : Config.Scanner} {t t' : FileTree} {r ms ns : Location} {s : Survey}
variable {l : Location} {e : Entry} {bytes : List UInt8} {x n : String} {v : Violation}

theorem eligible_eq (names : Location) (e : Entry) :
    eligible cfg (cfg.extensions.map plainExtension) names e = (e.isFile && reads cfg names) := by
  simp [eligible, reads, Bool.and_assoc]

/-- The root can be surveyed: it is a directory, and each file to be read can be found. -/
structure Surveyable (cfg : Config.Scanner) (r : Location) (t : FileTree) : Prop where
  distinct : t.Distinct
  real : Real t r
  dir : t.DirAt r
  noZero : '\x00' ∉ r.path.text.toList
  short : isOverlong r.path = false
  readable : ∀ ns e, t.get? (r ++ ns) = some e → e.isFile → reads cfg ns →
    Real t (r ++ ns) ∧ '\x00' ∉ (r ++ ns).path.text.toList

/-- Each entry of a tree is a file or a directory, in a directory, and has a name that a path can
hold. -/
def Upright (t : FileTree) : Prop :=
  ∀ x ∈ t.entries, x.1.Proper ∧ t.DirAt x.1.dropLast ∧ (x.2.isDir ∨ x.2.isFile) ∧
    ∀ n ∈ x.1, n.utf8ByteSize ≤ maxName ∧ '\x00' ∉ n.toList

instance (t : FileTree) : Decidable (Upright t) :=
  inferInstanceAs (Decidable (∀ x ∈ t.entries, x.1.Proper ∧ t.DirAt x.1.dropLast ∧
    (x.2.isDir ∨ x.2.isFile) ∧ ∀ n ∈ x.1, n.utf8ByteSize ≤ maxName ∧ '\x00' ∉ n.toList))

theorem Upright.real (h : Upright t) (hget : t.get? l = some e) : Real t l := by
  induction l using List.reverseRecOn generalizing e with
  | nil => exact .top
  | append_singleton l n ih =>
    have hmem := (mem_of_get? hget).resolve_left (by simp)
    obtain ⟨hproper, habove, hkind, hnames⟩ := h _ hmem
    rw [dropLast_concat] at habove
    obtain ⟨hempty, hhere, hup, hslash⟩ := hproper n (by simp)
    refine .down (ih habove) habove ⟨hempty, hhere, hup, (hnames n (by simp)).1⟩ hslash hget ?_
    rintro target rfl
    simp [Entry.isDir, Entry.isFile] at hkind

theorem Upright.nulFree (h : Upright t) : t.NulFree :=
  nulFree_of_entries fun x hx n hn ↦ ((h x hx).2.2.2 n hn).2

/-- An upright tree can be surveyed. -/
theorem surveyable_of_entries (hdistinct : t.Distinct) (h : Upright t)
    (hdir : t.DirAt r) (hshort : isOverlong r.path = false) : Surveyable cfg r t :=
  ⟨hdistinct, h.real hdir, hdir, (h.real hdir).nulFree h.nulFree, hshort,
    fun _ _ hget _ _ ↦ ⟨h.real hget, (h.real hget).nulFree h.nulFree⟩⟩

theorem isFile_of_bytes? (h : e.bytes? = some bytes) : e.isFile := by
  cases e with
  | file | database => rfl
  | dir | link => cases h

theorem ofPlace_cases (cfg : Config.Scanner) (t : FileTree) (r ns : Location) :
    ofPlace cfg t r ns = {} ∨ ∃ e bytes, t.get? (r ++ ns) = some e ∧ e.isFile ∧
      e.bytes? = some bytes ∧ reads cfg ns ∧ isOverlong (r ++ ns).path = false ∧
        ofPlace cfg t r ns = ofFile cfg (relative ns) bytes := by
  rw [ofPlace]
  cases hget : t.get? (r ++ ns) with
  | none => exact .inl rfl
  | some e =>
    cases hbytes : e.bytes? with
    | none => exact .inl (by simp [hbytes])
    | some bytes =>
      simp only [Option.bind_some, hbytes]
      split_ifs with hreads
      · rw [Bool.and_eq_true, Bool.not_eq_true'] at hreads
        exact .inr ⟨e, bytes, rfl, isFile_of_bytes? hbytes, hbytes, hreads.1, hreads.2, rfl⟩
      · exact .inl rfl

theorem ofPlace_of_not_reads (h : reads cfg ns = false) : ofPlace cfg t r ns = {} := by
  obtain hnone | ⟨-, -, -, -, -, hreads, -⟩ := ofPlace_cases cfg t r ns
  · exact hnone
  · cases h.symm.trans hreads

theorem ofPlace_congr (h : t'.get? (r ++ ns) = t.get? (r ++ ns)) :
    ofPlace cfg t' r ns = ofPlace cfg t r ns := by
  rw [ofPlace, ofPlace, h]

theorem mem_examined_ofFile {file : String} (h : x ∈ (ofFile cfg file bytes).examined) :
    x = file := by
  rw [ofFile] at h
  split at h
  · simp at h
  · split at h
    · simp at h
    · simpa using h

/-- A file with violations was examined. -/
theorem examined_of_mem_ofFile {file : String} (h : v ∈ (ofFile cfg file bytes).violations) :
    file ∈ (ofFile cfg file bytes).examined := by
  rw [ofFile] at h ⊢
  split at h
  · simp at h
  · split at h
    · simp at h
    · simp [*]

/-- What a survey of a place with violations knows. -/
theorem of_mem_ofPlace (hv : v ∈ (ofPlace cfg t r ns).violations) :
    v.file = relative ns ∧ v.fixed = false ∧ relative ns ∈ (ofPlace cfg t r ns).examined := by
  obtain hnone | ⟨e, bytes, -, -, -, -, -, heq⟩ := ofPlace_cases cfg t r ns
  · simp [hnone] at hv
  · rw [heq] at hv ⊢
    exact ⟨(of_mem_ofFile hv).1, (of_mem_ofFile hv).2, examined_of_mem_ofFile hv⟩

theorem of_mem_examined_ofPlace (hx : x ∈ (ofPlace cfg t r ns).examined) :
    x = relative ns ∧ reads cfg ns ∧ ∃ e, t.get? (r ++ ns) = some e ∧ e.isFile := by
  obtain hnone | ⟨e, bytes, hget, hfile, -, hreads, -, heq⟩ := ofPlace_cases cfg t r ns
  · simp [hnone] at hx
  · rw [heq] at hx
    exact ⟨mem_examined_ofFile hx, hreads, e, hget, hfile⟩

/-! ## Targets -/

/-- A target that the survey of the root comes by: there is no link on the way to it, and no name on
the way is left out. -/
structure Descended (cfg : Config.Scanner) (r : Location) (t : FileTree) (ms : Location) :
    Prop where
  proper : Proper (r ++ ms)
  clear : t.Clear (r ++ ms)
  plain : ∀ n ∈ ms, n.startsWith "." = false
  above : ∀ n ∈ ms.dropLast, n ∉ cfg.ignoredDirs
  dir : t.DirAt (r ++ ms) → ∀ n ∈ ms, n ∉ cfg.ignoredDirs

theorem Surveyable.descended (h : Surveyable cfg r t) : Descended cfg r t [] where
  proper := by simpa using h.real.proper
  clear := by simpa using h.real.clear
  plain := by simp
  above := by simp
  dir := by simp

theorem reads_append (hplain : ∀ n ∈ ms, n.startsWith "." = false)
    (hnot : ∀ n ∈ ms, n ∉ cfg.ignoredDirs) (hns : ns ≠ []) :
    reads cfg (ms ++ ns) = reads cfg ns := by
  have hdots : ms.all (fun n => !n.startsWith ".") := by simpa using hplain
  have hignored : ms.all (fun n => !cfg.ignoredDirs.contains n) := by simpa using hnot
  have hlast : (ms ++ ns).getLastD "" = ns.getLastD "" := by
    rw [getLastD_eq_getLast?, getLastD_eq_getLast?, getLast?_append_of_ne_nil _ hns]
  rw [reads, reads, dropLast_append_of_ne_nil hns, all_append, all_append, hdots,
    hignored, hlast, Bool.true_and, Bool.true_and]

theorem fileName?_of_properName (hn : ProperName n) : Path.fileName? ⟨n⟩ = some n := by
  have hsplit : (Path.split n).getLast? = some n := by
    rw [Path.split, Path.splitFrom_of_not_mem hn.no_slash]
    simp
  rw [Path.fileName?, Path.getLast?_components hsplit hn.componentOf?_eq]

theorem hasExtension_path (h : Proper (l ++ [n])) (es : List String) :
    hasExtension es (l ++ [n]).path = hasExtension es ⟨n⟩ := by
  have hn : ProperName n := (proper_singleton n).1 ((proper_append l [n]).1 h).2
  rw [hasExtension, hasExtension, Path.extension?, Path.extension?, fileName?_path h,
    fileName?_of_properName hn]

/-- A name with an extension that is not looked for is not read. -/
theorem not_reads_of_extension {e : String} (hn : n ≠ "") (h : ProperName (n ++ ("." ++ e)))
    (he : '.' ∉ e.toList) (hcfg : ∀ x ∈ cfg.extensions, plainExtension x ≠ Path.asciiLower e)
    (l : Location) : reads cfg (l ++ [n ++ ("." ++ e)]) = false := by
  have hextension : Path.extensionOf? (n ++ ("." ++ e)) = some e :=
    Path.extensionOf?_eq_some_iff.2 ⟨he, n, hn, rfl⟩
  have hnone : hasExtension (cfg.extensions.map plainExtension) ⟨n ++ ("." ++ e)⟩ = false := by
    rw [hasExtension, Path.extension?, fileName?_of_properName h, Option.bind_some, hextension]
    simpa using hcfg
  rw [reads, getLastD_eq_getLast?, getLast?_concat, Option.getD_some, hnone,
    Bool.and_false]

theorem reads_of_descended (h : Descended cfg r t ms) (hms : ms ≠ []) :
    reads cfg ms = hasExtension (cfg.extensions.map plainExtension) (r ++ ms).path := by
  have hdots : ms.all (fun n => !n.startsWith ".") := by simpa using h.plain
  have hignored : ms.dropLast.all (fun n => !cfg.ignoredDirs.contains n) := by simpa using h.above
  obtain ⟨ks, n, rfl⟩ := (eq_nil_or_concat' ms).resolve_left hms
  have hproper := h.proper
  rw [← append_assoc] at hproper ⊢
  rw [reads, hdots, hignored, hasExtension_path hproper]
  simp

theorem ofDir_cons (es : List String) (root target : Path) (x : Location × Entry)
    (xs : List (Location × Entry)) :
    ofDir cfg es root target (x :: xs) =
      concat [ofDir cfg es root target [x], ofDir cfg es root target xs] := by
  simp only [ofDir, concat, filterMap_cons, filterMap_nil]
  split <;> simp

theorem ofDir_eq_concat (es : List String) (root target : Path) (xs : List (Location × Entry)) :
    ofDir cfg es root target xs = concat (xs.map fun x ↦ ofDir cfg es root target [x]) := by
  induction xs with
  | nil => rfl
  | cons x xs ih =>
    rw [ofDir_cons, ih]
    simp [concat]

/-- What the survey of a directory takes from an entry below it is the survey of its place. -/
theorem ofDir_singleton (h : Surveyable cfg r t) (hms : Descended cfg r t ms)
    (hdir : t.DirAt (r ++ ms)) {names : Location} (hmem : (names, e) ∈ t.below (r ++ ms)) :
    ofDir cfg (cfg.extensions.map plainExtension) r.path (r ++ ms).path [(names, e)] =
      ofPlace cfg t r (ms ++ names) := by
  obtain ⟨hne, hget⟩ := (mem_below_iff h.distinct).1 hmem
  rw [append_assoc] at hget
  have hreads := reads_append hms.plain (hms.dir hdir) hne
  rw [ofDir, ofPlace, hget]
  cases hbytes : e.bytes? with
  | none => simp [hbytes, concat]
  | some bytes =>
    have hfile : e.isFile := isFile_of_bytes? hbytes
    simp only [Option.bind_some, hbytes, eligible_eq, hfile, Bool.true_and, hreads,
      filterMap_cons, filterMap_nil]
    by_cases hread : reads cfg names
    · have hproper : Proper (r ++ (ms ++ names)) :=
        (h.readable _ e hget hfile (hreads.trans hread)).1.proper
      have hnames : Proper names := by
        simp only [proper_append] at hproper
        exact hproper.2.2
      rw [foldl_join_path hms.proper hnames, append_assoc, relativeTo_path hproper]
      split_ifs <;> simp [concat]
    · simp [hread, concat]

/-- What was surveyed is there. -/
theorem real_of_ok {root : Path} (hl : l.Proper) (hclear : t.Clear l)
    (hs : Survey.of cfg root t l.path = .ok s) :
    t.locate l.path = .ok l ∧ Real t l ∧ '\x00' ∉ l.path.text.toList ∧
      isOverlong l.path = false := by
  rw [Survey.of, ofTarget] at hs
  cases hlocate : t.locate l.path with
  | error x => simp [hlocate] at hs
  | ok k =>
    have hspot : t.spot .followed l.path = .ok (.entry k) := by
      rw [locate] at hlocate
      split at hlocate
      · cases hlocate
      · cases hlocate
        assumption
      · cases hlocate
    rw [spot, steps_path hl] at hspot
    obtain ⟨hzero, hlong, ⟨hk, hreal⟩ | ⟨hvacant, -⟩⟩ := look_path hclear hl hspot
    · cases hk
      exact ⟨rfl, hreal, hzero, hlong⟩
    · cases hvacant

/-- The survey of a target is that of the places at and below it, one after the other. -/
theorem exists_places (h : Surveyable cfg r t) (hms : Descended cfg r t ms)
    (hs : Survey.of cfg r.path t (r ++ ms).path = .ok s) :
    ∃ places : List Location, places.Nodup ∧ (∀ ns ∈ places, ms <+: ns) ∧
      (∀ ns, ms <+: ns → ns ∉ places → ofPlace cfg t r ns = {}) ∧
      s.violations = places.flatMap (fun ns ↦ (ofPlace cfg t r ns).violations) ∧
      s.examined = places.flatMap fun ns ↦ (ofPlace cfg t r ns).examined := by
  obtain ⟨hlocate, hreal, -, hshort⟩ := real_of_ok hms.proper hms.clear hs
  obtain ⟨e, hget⟩ := Option.isSome_iff_exists.1 hreal.isSome
  simp only [Survey.of, ofTarget, hlocate, hget, Option.bind_some] at hs
  cases hbytes : e.bytes? with
  | some bytes =>
    have hfile : e.isFile := isFile_of_bytes? hbytes
    have hnotDir : ¬t.DirAt (r ++ ms) := by
      intro hdir
      cases hget.symm.trans hdir
      cases hfile
    have hne : ms ≠ [] := by
      rintro rfl
      exact hnotDir (by simpa using h.dir)
    have hplace : ofPlace cfg t r ms =
        if reads cfg ms then ofFile cfg (relative ms) bytes else {} := by
      simp [ofPlace, hget, hbytes, hshort]
    rw [hbytes, relativeTo_path hms.proper, ← reads_of_descended hms hne] at hs
    refine ⟨[ms], nodup_singleton ms, by simp, ?_, ?_⟩
    · rintro ns ⟨ks, rfl⟩ hks
      obtain hnone | ⟨e', -, hget', hfile', -, hreads, -⟩ := ofPlace_cases cfg t r (ms ++ ks)
      · exact hnone
      · -- Nothing is below a file.
        have hks : ks ≠ [] := by simpa using hks
        have hbelow := (h.readable _ e' hget' hfile' hreads).1
        rw [← append_assoc] at hbelow
        exact absurd (hbelow.dirAt_above hks) hnotDir
    · simp only [flatMap_singleton, hplace]
      split_ifs at hs ⊢ <;> cases hs <;> simp
  | none =>
    have hdir : t.DirAt (r ++ ms) := by
      cases e with
      | dir => exact hget
      | link target => exact absurd hget (hms.clear _ (prefix_refl _) target)
      | file | database => cases hbytes
    rw [hbytes] at hs
    cases hs
    have hparts : (t.below (r ++ ms)).map (fun x ↦
        ofDir cfg (cfg.extensions.map plainExtension) r.path (r ++ ms).path [x]) =
          (t.below (r ++ ms)).map fun x ↦ ofPlace cfg t r (ms ++ x.1) :=
      map_congr_left fun x hx ↦ ofDir_singleton h hms hdir hx
    rw [ofDir_eq_concat, hparts]
    refine ⟨(t.below (r ++ ms)).map fun x ↦ ms ++ x.1, ?_, ?_, ?_, ?_, ?_⟩
    · have hnodup := (nodup_below h.distinct (r ++ ms)).map (append_right_injective ms)
      rwa [map_map] at hnodup
    · intro ns hns
      obtain ⟨x, -, rfl⟩ := mem_map.1 hns
      exact prefix_append _ _
    · rintro ns ⟨ks, rfl⟩ hks
      obtain hnone | ⟨e', -, hget', hfile', -⟩ := ofPlace_cases cfg t r (ms ++ ks)
      · exact hnone
      · refine absurd (mem_map.2 ⟨(ks, e'), ?_, rfl⟩) hks
        rw [mem_below_iff h.distinct, append_assoc]
        refine ⟨?_, hget'⟩
        rintro rfl
        rw [append_nil, hdir] at hget'
        cases hget'
        cases hfile'
    · simp only [concat, flatMap_map]
    · simp only [concat, flatMap_map]

/-! ## What surveys agree on -/

theorem proper_of_mem_ofPlace (h : Surveyable cfg r t) (hv : v ∈ (ofPlace cfg t r ns).violations) :
    ns.Proper := by
  obtain hnone | ⟨e, -, hget, hfile, -, hreads, -⟩ := ofPlace_cases cfg t r ns
  · simp [hnone] at hv
  · exact ((proper_append r ns).1 (h.readable ns e hget hfile hreads).1.proper).2

/-- The survey of a target has the violations of the places at and below it. -/
theorem mem_violations_iff (h : Surveyable cfg r t) (hms : Descended cfg r t ms)
    (hs : Survey.of cfg r.path t (r ++ ms).path = .ok s) :
    v ∈ s.violations ↔ ∃ ns, ms <+: ns ∧ v ∈ (ofPlace cfg t r ns).violations := by
  obtain ⟨places, -, hbelow, hrest, hviolations, -⟩ := exists_places h hms hs
  rw [hviolations, mem_flatMap]
  constructor
  · rintro ⟨ns, hns, hv⟩
    exact ⟨ns, hbelow ns hns, hv⟩
  · rintro ⟨ns, hns, hv⟩
    refine ⟨ns, not_not.1 fun hnot ↦ ?_, hv⟩
    simp [hrest ns hns hnot] at hv

theorem mem_examined_iff (h : Surveyable cfg r t) (hms : Descended cfg r t ms)
    (hs : Survey.of cfg r.path t (r ++ ms).path = .ok s) :
    x ∈ s.examined ↔ ∃ ns, ms <+: ns ∧ x ∈ (ofPlace cfg t r ns).examined := by
  obtain ⟨places, -, hbelow, hrest, -, hexamined⟩ := exists_places h hms hs
  rw [hexamined, mem_flatMap]
  constructor
  · rintro ⟨ns, hns, hx⟩
    exact ⟨ns, hbelow ns hns, hx⟩
  · rintro ⟨ns, hns, hx⟩
    refine ⟨ns, not_not.1 fun hnot ↦ ?_, hx⟩
    simp [hrest ns hns hnot] at hx

/-- Of some places, only that of a file has violations in it. -/
theorem filter_places (h : Surveyable cfg r t) {places : List Location} (hnodup : places.Nodup)
    (hns : ns.Proper) :
    (places.flatMap fun ks ↦ (ofPlace cfg t r ks).violations).filter (·.file = relative ns) =
      if ns ∈ places then (ofPlace cfg t r ns).violations else [] := by
  have hpart (ks : Location) : (ofPlace cfg t r ks).violations.filter (·.file = relative ns) =
      if ks = ns then (ofPlace cfg t r ns).violations else [] := by
    split_ifs with hks
    · subst hks
      exact filter_eq_self.2 fun v hv ↦ decide_eq_true (of_mem_ofPlace hv).1
    · refine filter_eq_nil_iff.2 fun v hv hfile ↦ hks ?_
      have hsame : relative ks = relative ns :=
        (of_mem_ofPlace hv).1.symm.trans (of_decide_eq_true hfile)
      exact relative_inj (proper_of_mem_ofPlace h hv) hns hsame
  rw [filter_flatMap]
  simp only [hpart]
  induction places with
  | nil => rfl
  | cons k ks ih =>
    obtain ⟨hk, hks⟩ := nodup_cons.1 hnodup
    rw [flatMap_cons, ih hks]
    by_cases hkns : k = ns
    · subst hkns
      simp [hk]
    · simp [hkns, Ne.symm hkns]

/-- Of a file at or below the target, the survey says what the entry at its place does; of any other
it says nothing. -/
theorem filter_violations (h : Surveyable cfg r t) (hms : Descended cfg r t ms)
    (hs : Survey.of cfg r.path t (r ++ ms).path = .ok s) (hns : ns.Proper) :
    s.violations.filter (·.file = relative ns) =
      if ms <+: ns then (ofPlace cfg t r ns).violations else [] := by
  obtain ⟨places, hnodup, hbelow, hrest, hviolations, -⟩ := exists_places h hms hs
  rw [hviolations, filter_places h hnodup hns]
  by_cases hmem : ns ∈ places
  · rw [if_pos hmem, if_pos (hbelow ns hmem)]
  · rw [if_neg hmem]
    split_ifs with hprefix
    · rw [hrest ns hprefix hmem]
    · rfl

/-- The survey of a place where a file is read has the violations there; there is none if the file is
missing or has too long a path. -/
theorem of_place (h : Surveyable cfg r t) (hns : Proper (r ++ ns)) (hclear : t.Clear (r ++ ns))
    (hdir : ¬t.DirAt (r ++ ns)) (hreads : reads cfg ns) :
    (∃ s, Survey.of cfg r.path t (r ++ ns).path = .ok s ∧
        s.violations = (ofPlace cfg t r ns).violations) ∨
      (∃ x, Survey.of cfg r.path t (r ++ ns).path = .error x) ∧ ofPlace cfg t r ns = {} := by
  have hplain := hreads
  simp only [reads, Bool.and_eq_true, all_eq_true, Bool.not_eq_true', contains_eq_mem,
    decide_eq_false_iff_not] at hplain
  have hdescended : Descended cfg r t ns :=
    ⟨hns, hclear, hplain.1.1, hplain.1.2, fun h ↦ absurd h hdir⟩
  have hne : ns ≠ [] := by
    rintro rfl
    exact hdir (by simpa using h.dir)
  cases hof : Survey.of cfg r.path t (r ++ ns).path with
  | error x =>
    refine .inr ⟨⟨x, rfl⟩, ?_⟩
    obtain hnone | ⟨e, bytes, hget, hfile, hbytes, -, hshort, -⟩ := ofPlace_cases cfg t r ns
    · exact hnone
    · obtain ⟨hreal, hzero⟩ := h.readable ns e hget hfile hreads
      simp [Survey.of, ofTarget, locate_of_real hreal hzero hshort, hget, hbytes,
        ← reads_of_descended hdescended hne, hreads] at hof
  | ok s =>
    refine .inl ⟨s, rfl, ?_⟩
    have hfilter := filter_violations h hdescended hof ((proper_append r ns).1 hns).2
    rw [if_pos (prefix_refl ns)] at hfilter
    rw [← hfilter, eq_comm, filter_eq_self]
    intro v hv
    obtain ⟨_, ⟨ks, rfl⟩, hv⟩ := (mem_violations_iff h hdescended hof).1 hv
    obtain hnone | ⟨e, -, hget, hfile, -, hks, -⟩ := ofPlace_cases cfg t r (ns ++ ks)
    · simp [hnone] at hv
    have hreal := (h.readable _ e hget hfile hks).1
    rw [← append_assoc] at hreal
    have hnil : ks = [] := not_not.1 fun hks ↦ hdir (hreal.dirAt_above hks)
    rw [decide_eq_true_iff, (of_mem_ofPlace hv).1, hnil, append_nil]

theorem of_root (h : Surveyable cfg r t) :
    Survey.of cfg r.path t r.path =
      .ok (ofDir cfg (cfg.extensions.map plainExtension) r.path r.path (t.below r)) := by
  rw [Survey.of, ofTarget, locate_of_real h.real h.noZero h.short]
  simp only [show t.get? r = some .dir from h.dir, Option.bind_some, Entry.bytes?]

theorem ofDir_filter (es : List String) (root target : Path) (xs : List (Location × Entry)) :
    ofDir cfg es root target (xs.filter fun x ↦ eligible cfg es x.1 x.2) =
      ofDir cfg es root target xs := by
  rw [ofDir, ofDir, filterMap_filter]
  refine congrArg concat (filterMap_congr fun x _ ↦ ?_)
  by_cases hx : eligible cfg es x.1 x.2
  · rw [if_pos hx]
  · rw [if_neg hx]
    cases hbytes : x.2.bytes? <;> simp [hx, hbytes]

/-- The survey of the root depends on the files to be read alone. -/
theorem of_root_congr (h : Surveyable cfg r t) (h' : Surveyable cfg r t')
    (hsame : ∀ ns, reads cfg ns → t'.get? (r ++ ns) = t.get? (r ++ ns)) :
    Survey.of cfg r.path t' r.path = Survey.of cfg r.path t r.path := by
  rw [of_root h, of_root h', ← ofDir_filter _ _ _ (t'.below r), ← ofDir_filter _ _ _ (t.below r),
    filter_below_congr h.distinct h'.distinct]
  intro ns e hns
  rw [eligible_eq, Bool.and_eq_true] at hns
  rw [hsame ns hns.2]

end Survey

end Steward
