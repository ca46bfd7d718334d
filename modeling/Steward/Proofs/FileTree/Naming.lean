import Steward.Proofs.Ledger.Place
import Steward.Proofs.Sibling

/-!
# Names in directories

A path that ends in a name says a directory, which the steps before the name lead to with all links
followed, and a name in it: `FileTree.Hosts`. What such a path names is the entry there, be it a link
itself. The directory stays the same as long as directories and links do, `FileTree.Hosts.of_steers`,
and it is the same for all siblings of a path, `FileTree.Hosts.eq_of_sibling`. Where every entry
stands in a directory, a path to a file always ends in a name, `FileTree.Rooted.hosts`.
-/

namespace Steward

open Location List

namespace FileTree

variable {t t' : FileTree} {last : LastStep} {links : Nat} {at_ k l : Location} {ss : List String}
  {s : String} {p : Path} {sp : Spot}
variable {r : Reached}

/-- What a place is to a look-up that ends there. -/
def standing (t : FileTree) (l : Location) : Spot :=
  if (t.get? l).isSome then .entry l else .vacant l

/-- The place of the entry that a path names, or would name if there were one. A link is followed on
the way but not at the end. -/
def Names (t : FileTree) (p : Path) (l : Location) : Prop :=
  t.spotOfName p = .ok (.entry l) ∨ t.spotOfName p = .ok (.vacant l)

/-- What a path names is no link. -/
def NamesNoLink (t : FileTree) (p : Path) : Prop :=
  ∀ l, t.Names p l → ∀ target, t.get? l ≠ some (.link target)

theorem names_of_standing (h : t.spotOfName p = .ok (t.standing l)) : t.Names p l := by
  rw [standing] at h
  split_ifs at h
  · exact .inl h
  · exact .inr h

theorem Names.unique (h : t.Names p l) (h' : t.Names p k) : l = k := by
  obtain h | h := h <;> obtain h' | h' := h' <;> rw [h] at h' <;> cases h'
  · rfl
  · rfl

/-- A path that meets no link names the place that it leads to. -/
theorem Leads.eq_of_names (h : t.Leads p l) (hk : t.Names p k) : k = l := by
  have hplace := (placeFrom_names (t.startOf p) p.text).trans h.place
  rcases hk with hk | hk <;> simpa [hplace] using look_place h.clear_names hk

/-! ## The last step of a way -/

theorem Walks.split_last (h : Walks t last links at_ (ss ++ [s]) sp) :
    ∃ k n, Walks t .followed links at_ ss (.entry k) ∧ Walks t last n k [s] sp := by
  obtain ⟨k, n, m, hnm, hk, hlast⟩ := h.split (cons_ne_nil s [])
  exact ⟨k, m, hk.mono (by omega), hlast⟩

/-- A name is looked up in a directory. What stands there is what is found, unless that is a link
to be followed. -/
theorem Walks.single (h : Walks t last links k [s] sp) (hs : ProperName s) :
    t.DirAt k ∧ IsName s ∧
      ((∀ target, t.get? (k ++ [s]) = some (.link target) → last = .kept) →
        sp = t.standing (k ++ [s])) := by
  have hend {r : Reached} (h : Advances t last k [s] r) :
      t.DirAt k ∧ IsName s ∧
        ((∀ target, t.get? (k ++ [s]) = some (.link target) → last = .kept) →
          r = .entry (k ++ [s]) ∧ (t.get? (k ++ [s])).isSome ∨
            r = .vacant (k ++ [s]) ∧ t.get? (k ++ [s]) = none) := by
    cases h with
    | stay _ hdot => exact absurd hdot (not_or.2 ⟨hs.ne_empty, hs.ne_here⟩)
    | up => exact absurd rfl hs.ne_up
    | free hdir hname hget => exact ⟨hdir, hname, fun _ ↦ .inr ⟨rfl, hget⟩⟩
    | keep hdir hname hget => exact ⟨hdir, hname, fun _ ↦ .inl ⟨rfl, by rw [hget]; rfl⟩⟩
    | turn hdir hname hget hrest =>
      exact ⟨hdir, hname, fun hlink ↦ absurd (hlink _ hget) (hrest rfl)⟩
    | enter hdir hname hget _ _ next =>
      cases next
      exact ⟨hdir, hname, fun _ ↦ .inl ⟨rfl, by rw [hget]; rfl⟩⟩
  cases h with
  | entry h =>
    obtain ⟨hdir, hname, hr⟩ := hend h
    refine ⟨hdir, hname, fun hlink ↦ ?_⟩
    obtain ⟨hr, hsome⟩ | ⟨hr, -⟩ := hr hlink <;> cases hr
    rw [standing, if_pos hsome]
  | vacant h =>
    obtain ⟨hdir, hname, hr⟩ := hend h
    refine ⟨hdir, hname, fun hlink ↦ ?_⟩
    obtain ⟨hr, -⟩ | ⟨hr, hnone⟩ := hr hlink <;> cases hr
    rw [standing, hnone, if_neg (by simp)]
  | detour h =>
    obtain ⟨hdir, hname, hr⟩ := hend h
    refine ⟨hdir, hname, fun hlink ↦ ?_⟩
    obtain ⟨hr, -⟩ | ⟨hr, -⟩ := hr hlink <;> cases hr

/-- The converse of `Walks.single` for a way that ends in a name. -/
theorem Walks.standing (h : Walks t .followed links at_ ss (.entry k)) (hdir : t.DirAt k)
    (hs : IsName s) (hlink : ∀ target, t.get? (k ++ [s]) = some (.link target) → last = .kept) :
    Walks t last links at_ (ss ++ [s]) (t.standing (k ++ [s])) := by
  have hend : Walks t last 0 k [s] (t.standing (k ++ [s])) := by
    rw [FileTree.standing]
    cases hget : t.get? (k ++ [s]) with
    | none => exact .vacant (.free hdir hs hget)
    | some e =>
      by_cases he : ∃ target, e = .link target
      · obtain ⟨target, rfl⟩ := he
        exact .entry (.keep hdir hs hget (hlink target hget))
      · exact .entry (.enter hdir hs hget (fun target heq ↦ he ⟨target, heq⟩) (by simp) (.done _))
  exact .trans (closes_singleton last hs.ne_empty) h hend

/-! ## The directory and the name -/

/-- The path `p` ends in the name `s`, and the steps before it lead to the directory `k`. -/
structure Hosts (t : FileTree) (p : Path) (k : Location) (s : String) : Prop where
  short : isOverlong p = false
  zero : '\x00' ∉ p.text.toList
  name : IsName s
  dir : t.DirAt k
  way : ∃ ss, names p.text = ss ++ [s] ∧ Walks t .followed maxLinks (t.startOf p) ss (.entry k)

theorem properName_of_names (hs : s ∈ names p.text) (hhere : s ≠ ".") (hup : s ≠ "..") :
    ProperName s := by
  have hmem := mem_filter.1 hs
  exact ⟨by simpa using hmem.2, hhere, hup, Path.slash_not_mem_of_mem_split hmem.1⟩

theorem exists_names_of_endsInDots (h : Disk.endsInDots p = false) :
    ∃ ss s, names p.text = ss ++ [s] ∧ ProperName s := by
  simp only [Disk.endsInDots, Bool.or_eq_false_iff, decide_eq_false_iff_not] at h
  obtain ⟨⟨hnone, hhere⟩, hup⟩ := h
  obtain ⟨s, hs⟩ := Option.ne_none_iff_exists'.1 hnone
  obtain ⟨ss, hss⟩ := getLast?_eq_some_iff.1 hs
  rw [hs, Option.some_inj] at hhere hup
  have hmem : s ∈ names p.text := by
    rw [names, hss]
    simp
  exact ⟨ss, s, hss, properName_of_names hmem hhere hup⟩

theorem Hosts.of_look (hnames : names p.text = ss ++ [s]) (hs : ProperName s)
    (h : t.look last p (ss ++ [s]) = .ok sp) :
    ∃ k, t.Hosts p k s ∧
      ((∀ target, t.get? (k ++ [s]) = some (.link target) → last = .kept) →
        sp = t.standing (k ++ [s])) := by
  rw [look_eq_ok_iff, follow_eq_ok_iff] at h
  obtain ⟨hlong, hzero, -, hwalk⟩ := h
  obtain ⟨k, n, hk, hlast⟩ := hwalk.split_last
  obtain ⟨hdir, hname, hspot⟩ := hlast.single hs
  exact ⟨k, ⟨hlong, hzero, hname, hdir, ss, hnames, hk⟩, hspot⟩

/-- A path that does not end in dots names a place in some directory. -/
theorem Names.hosts (h : t.Names p l) (hp : Disk.endsInDots p = false) :
    ∃ k s, t.Hosts p k s ∧ l = k ++ [s] := by
  obtain ⟨ss, s, hnames, hs⟩ := exists_names_of_endsInDots hp
  obtain ⟨sp, hspot, hl⟩ : ∃ sp, t.spotOfName p = .ok sp ∧ (sp = .entry l ∨ sp = .vacant l) :=
    h.elim (fun h ↦ ⟨_, h, .inl rfl⟩) fun h ↦ ⟨_, h, .inr rfl⟩
  rw [spotOfName, hnames] at hspot
  obtain ⟨k, hk, hstanding⟩ := Hosts.of_look hnames hs hspot
  refine ⟨k, s, hk, ?_⟩
  rw [hstanding fun _ _ ↦ rfl, standing] at hl
  split_ifs at hl <;> simpa [eq_comm] using hl

theorem Names.ne_nil (h : t.Names p l) (hp : Disk.endsInDots p = false) : l ≠ [] := by
  obtain ⟨k, n, -, rfl⟩ := h.hosts hp
  simp

namespace Hosts

theorem text_ne_nil (h : t.Hosts p k s) : ¬p.text.isEmpty := by
  obtain ⟨ss, hnames, -⟩ := h.way
  intro hempty
  rw [names, Path.split, String.isEmpty_iff.1 hempty] at hnames
  simp [Path.splitFrom] at hnames

theorem properName (h : t.Hosts p k s) : ProperName s := by
  obtain ⟨ss, hnames, -⟩ := h.way
  have hmem : s ∈ names p.text := by rw [hnames]; simp
  exact properName_of_names hmem h.name.ne_here h.name.ne_up

theorem endsInDots (h : t.Hosts p k s) : Disk.endsInDots p = false := by
  obtain ⟨ss, hnames, -⟩ := h.way
  rw [names] at hnames
  simp [Disk.endsInDots, hnames, h.name.ne_here, h.name.ne_up]

theorem look (h : t.Hosts p k s)
    (hlink : ∀ target, t.get? (k ++ [s]) = some (.link target) → last = .kept) :
    t.look last p (names p.text) = .ok (t.standing (k ++ [s])) := by
  obtain ⟨ss, hnames, hway⟩ := h.way
  rw [look_eq_ok_iff, follow_eq_ok_iff, hnames]
  exact ⟨h.short, h.zero, h.text_ne_nil, hway.standing h.dir h.name hlink⟩

theorem spotOfName (h : t.Hosts p k s) : t.spotOfName p = .ok (t.standing (k ++ [s])) :=
  h.look fun _ _ ↦ rfl

/-- A path without a slash at its end leads to what it names, unless that is a link. -/
theorem spot (h : t.Hosts p k s) (hslash : p.text.toList.getLast? ≠ some '/')
    (hlink : ∀ target, t.get? (k ++ [s]) = some (.link target) → last = .kept) :
    t.spot last p = .ok (t.standing (k ++ [s])) := by
  rw [FileTree.spot, steps_eq_names hslash]
  exact h.look hlink

/-- A file that a path names is what it leads to. -/
theorem read (h : t.Hosts p k s) (hslash : p.text.toList.getLast? ≠ some '/') {bytes : List UInt8}
    {now : Instant} (hget : t.get? (k ++ [s]) = some (.file bytes now)) : t.read p = .ok bytes := by
  have hspot : t.spot .followed p = .ok (t.standing (k ++ [s])) := h.spot hslash (by simp [hget])
  rw [standing, hget, Option.isSome_some, if_pos rfl] at hspot
  simp [FileTree.read, find, locate, hspot, hget, Entry.bytes?]

/-- What a path names is found if it is there and no link. -/
theorem contains_iff (h : t.Hosts p k s) (hslash : p.text.toList.getLast? ≠ some '/')
    (hlink : ∀ target, t.get? (k ++ [s]) ≠ some (.link target)) :
    t.contains p ↔ (t.get? (k ++ [s])).isSome := by
  have hspot : t.spot .followed p = .ok (t.standing (k ++ [s])) :=
    h.spot hslash fun target hget ↦ absurd hget (hlink target)
  rw [contains, find, locate, hspot, standing]
  cases hget : t.get? (k ++ [s]) <;> simp [hget, Except.toOption]

theorem names_iff (h : t.Hosts p k s) : t.Names p l ↔ l = k ++ [s] := by
  refine ⟨fun hl ↦ hl.unique (names_of_standing h.spotOfName), ?_⟩
  rintro rfl
  exact names_of_standing h.spotOfName

end Hosts

/-! ## Directories and links that stay -/

section Changes

variable {S : Location → Prop}

theorem ChangesOnly.steers (h : ChangesOnly S t t')
    (hS : ∀ q, S q → ∀ target, t.get? q ≠ some (.link target)) : Steers t t' where
  workingDir := h.workingDir
  dirs := h.dirs
  links q target hq := by rw [h.others q fun hs ↦ hS q hs target hq, hq]

/-- When only files came and went, every directory and link was there before. -/
theorem ChangesOnly.steers_before (h : ChangesOnly S t t') : Steers t' t where
  workingDir := h.workingDir.symm
  dirs _ hq := h.dirAt_before hq
  links q _ hq := (h.files q _ hq).resolve_right (by simp [Entry.isFile])

end Changes

theorem startOf_eq_of_workingDir (h : t'.workingDir = t.workingDir) (p : Path) :
    t'.startOf p = t.startOf p := by rw [startOf, startOf, h]

/-- A path names the same place as long as directories and links stay. -/
theorem Hosts.of_steers (h : t.Hosts p k s) (h' : Steers t t') : t'.Hosts p k s := by
  obtain ⟨ss, hnames, hway⟩ := h.way
  refine ⟨h.short, h.zero, h.name, h'.dirs _ h.dir, ss, hnames, ?_⟩
  rw [startOf_eq_of_workingDir h'.workingDir]
  exact hway.of_steers h' (.of_eq ((h'.dirs _ h.dir).trans h.dir.symm))

/-- What is read at a path is the same if what it leads to is. -/
theorem read_of_steers (h : Steers t t')
    (hend : ∀ l, t.locate p = .ok l → t'.get? l = t.get? l) {bytes : List UInt8}
    (hread : t.read p = .ok bytes) : t'.read p = .ok bytes := by
  rw [FileTree.read, find] at hread ⊢
  cases hlocate : t.locate p with
  | error x => simp [hlocate] at hread
  | ok l =>
    have hsame := hend l hlocate
    have hlocate' : t'.locate p = .ok l := by
      rw [locate] at hlocate ⊢
      split at hlocate
      · cases hlocate
      · rename_i hspot
        cases hlocate
        have hspot' : t'.spot .followed p = .ok (.entry l) := look_of_steers h hspot (.of_eq hsame)
        rw [hspot']
      · cases hlocate
    rw [hlocate'] 
    rw [hlocate] at hread
    simpa only [hsame] using hread

theorem Names.of_steers (h : t.Names p l) (hp : Disk.endsInDots p = false) (h' : Steers t t') :
    t'.Names p l := by
  obtain ⟨k, s, hk, rfl⟩ := h.hosts hp
  exact (hk.of_steers h').names_iff.2 rfl

/-- A path that named no link still names none when files came and went. -/
theorem NamesNoLink.of_changes {S : Location → Prop} (h : t.NamesNoLink p)
    (hp : Disk.endsInDots p = false) (h' : ChangesOnly S t t') : t'.NamesNoLink p :=
  fun l hl target hget ↦
    h l (hl.of_steers hp h'.steers_before) target (h'.steers_before.links l target hget)

/-! ## Siblings -/

theorem fileName?_of_names (hnames : names p.text = ss ++ [s]) (hs : ProperName s) :
    p.fileName? = some s := by
  obtain ⟨lead, hcomponents, -, -⟩ := p.exists_components_eq
  rw [Path.fileName?, hcomponents, Path.body, ← Path.filterMap_names, hnames,
    filterMap_append, filterMap_cons_some hs.componentOf?_eq, filterMap_nil, ← append_assoc,
    getLast?_concat]

theorem startOf_of_lead (t : FileTree) {q : Path} (h : p.lead = q.lead) :
    t.startOf p = t.startOf q := by rw [startOf, startOf, Path.isAbsolute_eq_of_lead h]

theorem Advances.dot (h : Advances t last k ["."] r) : r = .entry k := by
  generalize hdot : "." = s at h
  cases h with
  | stay _ _ next =>
    cases next
    rfl
  | up => simp at hdot
  | free _ hs | keep _ hs | turn _ hs | enter _ hs => exact absurd hdot.symm hs.ne_here

theorem Walks.dot (h : Walks t last links k ["."] (.entry l)) : l = k := by
  cases h with
  | entry h =>
    cases h.dot
    rfl
  | detour h => cases h.dot

/-- Dots that a way ends in do not count. -/
theorem Walks.dots {i : Nat}
    (h : Walks t .followed links at_ (ss ++ List.replicate i ".") (.entry k)) :
    Walks t .followed links at_ ss (.entry k) := by
  induction i generalizing k with
  | zero => simpa using h
  | succ i ih =>
    rw [replicate_succ', ← append_assoc] at h
    obtain ⟨k', n, hk', hlast⟩ := h.split_last
    rw [hlast.dot]
    exact ih hk'

namespace Hosts

variable {n : String}
variable {suffix : String}

/-- The directory of a path is where its parent leads to. -/
theorem exists_parent (h : t.Hosts p k n) :
    ∃ u, p.parent? = some u ∧ u.lead = p.lead ∧ u.Trimmed ∧ u.text.toList <+: p.text.toList ∧
      Walks t .followed maxLinks (t.startOf u) (names u.text) (.entry k) := by
  obtain ⟨ss, hss, hway⟩ := h.way
  obtain ⟨u, hu, hlead, htrim, habove, i, j, hnames⟩ :=
    Path.parent?_of_fileName? (fileName?_of_names hss h.properName)
  refine ⟨u, hu, hlead, htrim, habove, ?_⟩
  obtain rfl : j = 0 := by
    by_contra hj
    obtain ⟨j, rfl⟩ := Nat.exists_eq_succ_of_ne_zero hj
    rw [hss, replicate_succ', ← append_assoc] at hnames
    exact h.name.ne_here (singleton_inj.1 (append_inj_right' hnames rfl))
  rw [hss, replicate_zero, append_nil] at hnames
  rw [append_inj_left' hnames rfl, ← t.startOf_of_lead hlead] at hway
  exact hway.dots

/-- The directory of a path is there for its parent too. -/
theorem isDir_parent (h : t.Hosts p k n) : ∀ u ∈ p.parent?, u.text.isEmpty ∨ t.isDir u := by
  intro u hu
  obtain ⟨u', hu', -, -, habove, hway⟩ := h.exists_parent
  obtain rfl := Option.some_inj.1 (hu.symm.trans hu')
  refine or_iff_not_imp_left.2 fun hempty ↦ isDir_iff.2 ⟨k, ?_, h.dir⟩
  rw [spot_eq_ok_iff]
  refine ⟨isOverlong_of_text_isPrefix habove h.short, fun hmem ↦ h.zero (habove.subset hmem), hempty,
    ?_⟩
  rw [steps]
  split_ifs
  · exact hway.append_slash h.dir
  · exact hway

/-- A sibling is another name in the same directory. -/
theorem eq_of_sibling (h : t.Hosts p k n) (hlength : 2 < suffix.length)
    (hslash : '/' ∉ suffix.toList) {k' : Location} {m : String}
    (h' : t.Hosts (p.sibling suffix) k' m) : k' = k ∧ m = n ++ suffix := by
  obtain ⟨ss, hss, -⟩ := h.way
  obtain ⟨u, hu, -, htrim, -, hway⟩ := h.exists_parent
  have hm : ProperName (n ++ suffix) := h.properName.append hlength hslash
  obtain ⟨ss', hss', hway'⟩ := h'.way
  rw [Path.sibling_eq_join (fileName?_of_names hss h.properName) hu] at hss' hway'
  rw [Path.names_join_name htrim hm] at hss'
  obtain ⟨rfl, hlast⟩ := append_inj' hss' rfl
  rw [t.startOf_of_lead (Path.lead_join_name htrim hm), ← walk_eq_ok_iff,
    walk_eq_ok_iff.2 hway] at hway'
  cases hway'
  exact ⟨rfl, (singleton_inj.1 hlast).symm⟩

theorem parent?_sibling (h : t.Hosts p k n) (hlength : 2 < suffix.length)
    (hslash : '/' ∉ suffix.toList) : (p.sibling suffix).parent? = p.parent? := by
  obtain ⟨ss, hss, -⟩ := h.way
  obtain ⟨u, hu, -, htrim, -, -⟩ := h.exists_parent
  rw [Path.sibling_eq_join (fileName?_of_names hss h.properName) hu, hu]
  exact Path.parent?_join_name htrim (h.properName.append hlength hslash)

/-- The sibling of a sibling is one too. -/
theorem sibling_sibling (h : t.Hosts p k n) (hlength : 2 < suffix.length)
    (hslash : '/' ∉ suffix.toList) (more : String) :
    (p.sibling suffix).sibling more = p.sibling (suffix ++ more) := by
  obtain ⟨ss, hss, -⟩ := h.way
  obtain ⟨u, hu, -, htrim, -, -⟩ := h.exists_parent
  have hname := fileName?_of_names hss h.properName
  have hm : ProperName (n ++ suffix) := h.properName.append hlength hslash
  have hsibling : (p.sibling suffix).fileName? = some (n ++ suffix) := by
    rw [Path.sibling_eq_join hname hu]
    exact fileName?_of_names (Path.names_join_name htrim hm) hm
  rw [Path.sibling_eq_join hsibling ((h.parent?_sibling hlength hslash).trans hu),
    Path.sibling_eq_join hname hu, String.append_assoc]

end Hosts

theorem getLast?_split_join (p : Path) {m : String} (hm : ProperName m) :
    (Path.split (p.join m).text).getLast? = some m := by
  have hhead : m.toList.head? ≠ some '/' := fun hhead ↦ hm.no_slash (mem_of_head? hhead)
  rw [Path.join, if_neg hhead]
  split_ifs with hend
  · rw [Bool.or_eq_true, List.isEmpty_iff, decide_eq_true_iff] at hend
    rw [Path.split, String.toList_append]
    obtain hempty | hslash := hend
    · rw [hempty, nil_append, Path.splitFrom_of_not_mem hm.no_slash]
      simp
    · obtain ⟨cs, hcs⟩ := getLast?_eq_some_iff.1 hslash
      rw [hcs, append_assoc]
      exact Path.getLast?_splitFrom [] cs hm.no_slash
  · rw [Path.split, String.toList_append, String.toList_append, append_assoc]
    exact Path.getLast?_splitFrom [] _ hm.no_slash

/-- A sibling ends in a name, whatever the path ends in, and in no slash. -/
theorem exists_names_sibling (p : Path) (suffix : String) (hlength : 2 < suffix.length)
    (hslash : '/' ∉ suffix.toList) :
    ∃ ss s, names (p.sibling suffix).text = ss ++ [s] ∧ ProperName s ∧
      steps (p.sibling suffix).text = names (p.sibling suffix).text := by
  obtain ⟨q, m, hm, hsibling⟩ : ∃ q m, ProperName m ∧ p.sibling suffix = Path.join q m := by
    rw [Path.sibling, Path.withFileName]
    cases hn : p.fileName? with
    | none =>
      refine ⟨p, _, ?_, rfl⟩
      have hne (m : String) (hshort : m.length ≤ 2) : suffix ≠ m := by
        rintro rfl
        omega
      rw [Option.getD_none, String.empty_append]
      exact ⟨hne "" (by decide), hne "." (by decide), hne ".." (by decide), hslash⟩
    | some n => exact ⟨_, _, (Path.properName_of_fileName? hn).1.append hlength hslash, rfl⟩
  have hlast := getLast?_split_join q hm
  obtain ⟨ss, hss⟩ := getLast?_eq_some_iff.1 hlast
  refine ⟨ss.filter (· != ""), m, ?_, hm, ?_⟩
  · have hkeep : (m != "") = true := by simpa using hm.ne_empty
    rw [hsibling, names, hss, filter_append, filter_singleton, hkeep]
    rfl
  · rw [hsibling, steps, hlast, if_neg (by simp [hm.ne_empty])]

/-! ## Paths to files -/

/-- Every entry stands in a directory, and the working directory is one. -/
structure Rooted (t : FileTree) : Prop where
  home : t.DirAt t.workingDir
  above : ∀ l, (t.get? l).isSome → t.DirAt l.dropLast

theorem rooted_of_entries (hhome : t.DirAt t.workingDir)
    (h : ∀ x ∈ t.entries, t.DirAt x.1.dropLast) : t.Rooted where
  home := hhome
  above l hl := by
    obtain ⟨e, he⟩ := Option.isSome_iff_exists.1 hl
    obtain ⟨rfl, -⟩ | hmem := mem_of_get? he
    · exact get?_nil t
    · exact h _ hmem

/-- The step is no name. -/
def IsDots (s : String) : Prop := s = "" ∨ s = "." ∨ s = ".."

theorem IsName.not_isDots (h : IsName s) : ¬IsDots s := by
  simp [IsDots, h.ne_empty, h.ne_here, h.ne_up]

/-- A way whose last step is no name ends in a directory, or at a link with that step to come. -/
theorem Advances.dirAt_of_dots (ht : t.Rooted) (h : Advances t .followed at_ ss r)
    (hat : t.DirAt at_) (hss : ∀ s ∈ ss.getLast?, IsDots s) :
    (∀ l, r = .entry l → t.DirAt l) ∧
      ∀ from_ target rest, r = .detour from_ target rest →
        t.DirAt from_ ∧ ∃ s, rest.getLast? = some s ∧ IsDots s := by
  have htail {s : String} {rest : List String} (h : ∀ x ∈ (s :: rest).getLast?, IsDots x) :
      ∀ x ∈ rest.getLast?, IsDots x := by
    intro x hx
    refine h x ?_
    rw [getLast?_cons, hx]
    rfl
  induction h with
  | done =>
    refine ⟨fun l hl ↦ ?_, by simp⟩
    cases hl
    exact hat
  | stay _ _ _ ih => exact ih hat (htail hss)
  | up hdir _ ih => exact ih (ht.above _ (by rw [hdir]; rfl)) (htail hss)
  | free => exact ⟨by simp, by simp⟩
  | keep _ _ _ hlast => cases hlast
  | @turn at_ s rest target hdir hs =>
    refine ⟨by simp, fun f tg rest' hr ↦ ?_⟩
    cases hr
    refine ⟨hdir, ?_⟩
    cases hlast : rest.getLast? with
    | none =>
      rw [getLast?_cons, hlast] at hss
      exact absurd (hss s rfl) hs.not_isDots
    | some x => exact ⟨x, rfl, htail hss x hlast⟩
  | @enter at_ s rest r e _ hs hget _ _ next ih =>
    refine ih ?_ (htail hss)
    cases next with
    | done =>
      exact absurd (hss s rfl) hs.not_isDots
    | stay hdir | up hdir | free hdir | keep hdir | turn hdir | enter hdir => exact hdir

theorem Walks.dirAt_of_dots (ht : t.Rooted) (h : Walks t .followed links at_ ss (.entry l))
    (hat : t.DirAt at_) (hss : ∀ s ∈ ss.getLast?, IsDots s) : t.DirAt l := by
  generalize hsp : Spot.entry l = sp at h
  induction h with
  | entry h =>
    cases hsp
    exact (h.dirAt_of_dots ht hat hss).1 l rfl
  | vacant => cases hsp
  | @detour links at_ ss f target rest sp h next ih =>
    obtain ⟨hfrom, s, hrest, hs⟩ := (h.dirAt_of_dots ht hat hss).2 f target rest rfl
    refine ih ?_ (fun x hx ↦ ?_) hsp
    · split_ifs
      · exact get?_nil t
      · exact hfrom
    · rw [getLast?_append, hrest] at hx
      cases hx
      exact hs

/-- A path to a file ends in a name, and in no slash. -/
theorem Rooted.hosts (ht : t.Rooted) (h : t.spot .followed p = .ok (.entry l)) (hl : ¬t.DirAt l) :
    ∃ k n, t.Hosts p k n ∧ p.text.toList.getLast? ≠ some '/' := by
  have hwalk := h
  rw [spot_eq_ok_iff] at hwalk
  have hstart : t.DirAt (t.startOf p) := by
    rw [startOf]
    split_ifs
    · exact get?_nil t
    · exact ht.home
  -- The last step is a name, so the steps are all names.
  obtain ⟨s, hs, hname⟩ : ∃ s ∈ (steps p.text).getLast?, ¬IsDots s := by
    by_contra hdots
    push Not at hdots
    exact hl (hwalk.2.2.2.dirAt_of_dots ht hstart hdots)
  rw [IsDots, not_or, not_or] at hname
  obtain ⟨ss, hss⟩ := getLast?_eq_some_iff.1 hs
  have hslash : p.text.toList.getLast? ≠ some '/' := by
    intro hend
    obtain ⟨cs, hcs⟩ := getLast?_eq_some_iff.1 hend
    have hempty : (Path.split p.text).getLast? = some "" := by
      rw [Path.split, hcs]
      exact Path.getLast?_splitFrom [] cs (n := "") (by decide)
    rw [steps, hempty] at hs
    split_ifs at hs with hnil
    · rw [getLast?_concat] at hs
      exact hname.1 (Option.some_inj.1 hs).symm
    · simp_all
  rw [steps_eq_names hslash] at hss
  have hmem : s ∈ names p.text := by rw [hss]; simp
  have hproper := properName_of_names hmem hname.2.1 hname.2.2
  rw [spot, steps_eq_names hslash, hss] at h
  obtain ⟨k, hk, -⟩ := Hosts.of_look hss hproper h
  exact ⟨k, s, hk, hslash⟩

end FileTree

end Steward
