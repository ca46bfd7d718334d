import Steward.Proofs.Encoding
import Steward.Proofs.Fix.Report
import Steward.Proofs.Survey.Target

/-!
# What the survey of a directory covers

A file below a directory is `Survey.Eligible` by what it is, by its names from there on and by its
extension. The survey of the directory comes by the eligible files in the order `Location.Precedes`:
depth first, with names in byte order. It reads those that are `Survey.Legible` and tells why it
skips the others, each once, `Survey.ofTarget_covers`. Files whose path is too long to be looked up
are passed over in silence, and dots in front of a listed extension do not count.
-/

namespace Steward

open Location FileTree List

namespace Location

variable {ns ms : Location}

/-- Depth first, with names in byte order. -/
inductive Precedes : Location → Location → Prop where
  /-- A place comes before those below it. -/
  | below (ns : Location) (n : String) (rest : Location) : Precedes ns (ns ++ n :: rest)
  /-- Where two places part, the smaller name comes first. -/
  | beside (common : Location) {m n : String} (h : Utf8.encode m.toList < Utf8.encode n.toList)
      (rest rest' : Location) : Precedes (common ++ m :: rest) (common ++ n :: rest')

theorem Precedes.cons (h : Precedes ns ms) (n : String) : Precedes (n :: ns) (n :: ms) := by
  cases h with
  | below ns m rest => exact .below (n :: ns) m rest
  | beside common h rest rest' => exact .beside (n :: common) h rest rest'

theorem precedes_of_le (h : ns.le ms) (hne : ns ≠ ms) : Precedes ns ms := by
  induction ns generalizing ms with
  | nil =>
    cases ms with
    | nil => exact absurd rfl hne
    | cons m ms => exact .below [] m ms
  | cons n ns ih =>
    cases ms with
    | nil => cases h
    | cons m ms =>
      rcases cons_le_cons_iff.1 h with hlt | ⟨rfl, hle⟩
      · exact .beside [] (Utf8.encode_lt_encode (String.lt_iff_toList_lt.1 hlt)) ns ms
      · exact (ih hle fun heq ↦ hne (by rw [heq])).cons n

/-- A path is at least as long as the names in it. -/
theorem utf8ByteSize_le_foldl_join (hns : ns.Proper) (p : Path) :
    p.text.utf8ByteSize + (ns.map String.utf8ByteSize).sum ≤
      (ns.foldl Path.join p).text.utf8ByteSize := by
  induction ns generalizing p with
  | nil => simp
  | cons n ns ih =>
    have hn : n.toList.head? ≠ some '/' := fun h ↦
      (hns n mem_cons_self).no_slash (mem_of_mem_head? h)
    have hjoin : p.text.utf8ByteSize + n.utf8ByteSize ≤ (p.join n).text.utf8ByteSize := by
      rw [Path.join, if_neg hn]
      split_ifs
      · rw [String.utf8ByteSize_append]
      · rw [String.utf8ByteSize_append, String.utf8ByteSize_append]
        omega
    have hrest := ih (fun m hm ↦ hns m (mem_cons_of_mem n hm)) (p.join n)
    rw [foldl_cons, map_cons, sum_cons]
    omega

end Location

namespace Survey

variable {cfg : Config.Scanner} {extensions : List String} {root target : Path} {t : FileTree}
  {d ns : Location}
variable {bytes : List UInt8}

/-! ## Files -/

/-- An extension is listed, if case does not count, nor do dots in front of what is listed. -/
def Lists (extensions : List String) (e : String) : Prop :=
  ∃ x ∈ extensions, (x.toList.dropWhile (· = '.')).map Char.toLower = e.toList.map Char.toLower

/-- A file with some bytes below a directory is to be read: no name on the way to it starts with a
dot, no directory on the way is ignored, and its extension is listed. -/
structure Eligible (cfg : Config.Scanner) (extensions : List String) (t : FileTree)
    (d ns : Location) (bytes : List UInt8) : Prop where
  file : (t.get? (d ++ ns)).bind (·.bytes?) = some bytes
  plain : ∀ n ∈ ns, n.toList.head? ≠ some '.'
  above : ∀ n ∈ ns.dropLast, n ∉ cfg.ignoredDirs
  extension : ∃ stem e, ns.getLast? = some (stem ++ ("." ++ e)) ∧ stem ≠ "" ∧ '.' ∉ e.toList ∧
    Lists extensions e

theorem hasExtension_iff {n : String} (hn : ProperName n) :
    hasExtension (extensions.map plainExtension) ⟨n⟩ ↔
      ∃ stem e, n = stem ++ ("." ++ e) ∧ stem ≠ "" ∧ '.' ∉ e.toList ∧ Lists extensions e := by
  have hlists (e : String) :
      (extensions.map plainExtension).contains (Path.asciiLower e) ↔ Lists extensions e := by
    simp [Lists, plainExtension, Path.asciiLower, String.ofList_inj]
  rw [hasExtension, Path.extension?, fileName?_of_properName hn, Option.bind_some,
    Option.any_eq_true]
  simp only [hlists, Path.extensionOf?_eq_some_iff]
  constructor
  · rintro ⟨e, ⟨he, stem, hstem, rfl⟩, hlisted⟩
    exact ⟨stem, e, rfl, hstem, he, hlisted⟩
  · rintro ⟨stem, e, rfl, hstem, he, hlisted⟩
    exact ⟨e, ⟨he, stem, hstem, rfl⟩, hlisted⟩

theorem eligible_iff (hns : ns.Proper) (hne : ns ≠ []) {e : Entry}
    (hget : t.get? (d ++ ns) = some e) (hbytes : e.bytes? = some bytes) :
    eligible cfg (extensions.map plainExtension) ns e ↔ Eligible cfg extensions t d ns bytes := by
  obtain ⟨ks, n, rfl⟩ := (eq_nil_or_concat' ns).resolve_left hne
  have hn : ProperName n := (proper_singleton n).1 ((proper_append ks [n]).1 hns).2
  have hdot (m : String) : m.startsWith "." = false ↔ m.toList.head? ≠ some '.' := by
    rw [← Bool.not_eq_true, String.startsWith_string_iff]
    cases m.toList <;> simp [eq_comm]
  have hfile : (t.get? (d ++ (ks ++ [n]))).bind (·.bytes?) = some bytes := by
    rw [hget, Option.bind_some, hbytes]
  rw [eligible, isFile_of_bytes? hbytes, Bool.true_and, Bool.and_eq_true, Bool.and_eq_true,
    getLastD_concat, hasExtension_iff hn]
  simp only [all_eq_true, Bool.not_eq_true', hdot, contains_eq_mem,
    decide_eq_false_iff_not]
  constructor
  · rintro ⟨⟨hplain, habove⟩, stem, e, rfl, hextension⟩
    exact ⟨hfile, hplain, habove, stem, e, getLast?_concat, hextension⟩
  · rintro ⟨-, hplain, habove, stem, e, hlast, hextension⟩
    rw [getLast?_concat] at hlast
    exact ⟨⟨hplain, habove⟩, stem, e, Option.some.inj hlast, hextension⟩

/-- A file that is small enough to be read and is a text. -/
def Legible (cfg : Config.Scanner) (bytes : List UInt8) : Prop :=
  bytes.length ≤ cfg.maxFileBytes ∧ 0 ∉ bytes

instance (cfg : Config.Scanner) (bytes : List UInt8) : Decidable (Legible cfg bytes) :=
  inferInstanceAs (Decidable (_ ∧ _))

/-- Why a file is not read. -/
def reason (cfg : Config.Scanner) (bytes : List UInt8) : SkipReason :=
  if cfg.maxFileBytes < bytes.length then .tooLarge else .encoding

/-- The violations of a file that is read, as UTF-8 or else byte by byte. -/
def violationsIn (cfg : Config.Scanner) (file : String) (bytes : List UInt8) : List Violation :=
  Violation.ofText file cfg.snippetLen ((Utf8.decode bytes).getD (Encoding.latin1Chars bytes))

theorem ofFile_of_legible {file : String} (h : Legible cfg bytes) :
    ofFile cfg file bytes = { violations := violationsIn cfg file bytes, examined := [file] } := by
  have hdetect := Encoding.map_fst_detect bytes
  rw [if_neg h.2] at hdetect
  obtain ⟨⟨text, encoding⟩, hsome, htext⟩ := Option.map_eq_some_iff.1 hdetect
  rw [ofFile, if_neg (not_lt.2 h.1), hsome, violationsIn, ← htext]

theorem ofFile_of_not_legible (file : String) (h : ¬Legible cfg bytes) :
    ∃ detail, ofFile cfg file bytes = { skips := [⟨file, reason cfg bytes, detail⟩] } := by
  rw [ofFile, reason]
  split_ifs with hlarge
  · exact ⟨_, rfl⟩
  · have hdetect := Encoding.map_fst_detect bytes
    have hzero : 0 ∈ bytes := not_not.1 fun hzero ↦ h ⟨not_lt.1 hlarge, hzero⟩
    rw [if_pos hzero, Option.map_eq_none_iff] at hdetect
    rw [hdetect]
    exact ⟨_, rfl⟩

/-- Parts that are empty but for some elements are put together from these. -/
theorem flatMap_eq_filter {α β : Type} (p : α → Prop) [DecidablePred p] {f g : α → List β}
    (hp : ∀ x, p x → f x = g x) (hnil : ∀ x, ¬p x → f x = []) (xs : List α) :
    xs.flatMap f = (xs.filter p).flatMap g := by
  rw [← flatMap_if]
  refine flatMap_congr fun x _ ↦ ?_
  by_cases h : p x
  · rw [if_pos (decide_eq_true h), hp x h]
  · rw [if_neg (by simpa using h), hnil x h]

section Files

variable (cfg : Config.Scanner) (name : Location → String) (files : List (Location × List UInt8))

/-- The surveys of some files, one after the other. -/
def ofFiles : Survey := concat (files.map fun x ↦ ofFile cfg (name x.1) x.2)

theorem examined_ofFiles : (ofFiles cfg name files).examined =
    (files.filter (Legible cfg ·.2)).map fun x ↦ name x.1 := by
  simp only [ofFiles, concat, flatMap_map]
  rw [map_eq_flatMap]
  refine flatMap_eq_filter _ (fun x hx ↦ ?_) (fun x hx ↦ ?_) files
  · rw [ofFile_of_legible hx]
  · obtain ⟨detail, heq⟩ := ofFile_of_not_legible (name x.1) hx
    rw [heq]

theorem violations_ofFiles : (ofFiles cfg name files).violations =
    (files.filter (Legible cfg ·.2)).flatMap fun x ↦ violationsIn cfg (name x.1) x.2 := by
  simp only [ofFiles, concat, flatMap_map]
  refine flatMap_eq_filter _ (fun x hx ↦ ?_) (fun x hx ↦ ?_) files
  · rw [ofFile_of_legible hx]
  · obtain ⟨detail, heq⟩ := ofFile_of_not_legible (name x.1) hx
    rw [heq]

theorem skips_ofFiles : ((ofFiles cfg name files).skips.map fun k ↦ (k.file, k.reason)) =
    (files.filter (¬Legible cfg ·.2)).map fun x ↦ (name x.1, reason cfg x.2) := by
  simp only [ofFiles, concat, flatMap_map, map_flatMap]
  rw [map_eq_flatMap]
  refine flatMap_eq_filter _ (fun x hx ↦ ?_) (fun x hx ↦ ?_) files
  · obtain ⟨detail, heq⟩ := ofFile_of_not_legible (name x.1) hx
    rw [heq]
    rfl
  · rw [ofFile_of_legible (not_not.1 hx)]
    rfl

/-- Within a file the lines increase. -/
theorem pairwise_violations_ofFiles (h : (files.map fun x ↦ name x.1).Nodup) :
    (ofFiles cfg name files).violations.Pairwise fun v w ↦ v.file = w.file → v.line < w.line := by
  rw [violations_ofFiles, pairwise_flatMap]
  constructor
  · intro x _
    refine List.Pairwise.imp ?_ (Violation.pairwise_ofText _ _ _)
    intro v w hlt _
    exact hlt
  refine ((pairwise_map.1 h).filter _).imp fun {x y} hne v hv w hw hfile ↦ ?_
  rw [(Violation.of_mem_ofText hv).1, (Violation.of_mem_ofText hw).1] at hfile
  exact absurd hfile hne

end Files

/-! ## Directories -/

/-- How a file below the target is named. -/
def shownAs (root target : Path) (ns : Location) : String :=
  (ns.foldl Path.join target).relativeTo root

/-- A survey covers some files below a directory: these are the eligible ones whose path can be
looked up, in order. Those that are legible are examined and have their violations listed, the
others are skipped for a reason, and none is named twice. -/
structure Covers (cfg : Config.Scanner) (extensions : List String) (root target : Path)
    (t : FileTree) (d : Location) (s : Survey) (files : List (Location × List UInt8)) : Prop where
  mem_iff : ∀ ns bytes, (ns, bytes) ∈ files ↔
    Eligible cfg extensions t d ns bytes ∧ isOverlong (ns.foldl Path.join target) = false
  ordered : files.Pairwise fun x y ↦ Precedes x.1 y.1
  nodup : (files.map fun x ↦ shownAs root target x.1).Nodup
  examined : s.examined =
    (files.filter (Legible cfg ·.2)).map fun x ↦ shownAs root target x.1
  skips : (s.skips.map fun k ↦ (k.file, k.reason)) =
    (files.filter (¬Legible cfg ·.2)).map fun x ↦ (shownAs root target x.1, reason cfg x.2)
  violations : s.violations =
    (files.filter (Legible cfg ·.2)).flatMap fun x ↦ violationsIn cfg (shownAs root target x.1) x.2
  lines : s.violations.Pairwise fun v w ↦ v.file = w.file → v.line < w.line
  count : s.toJson = .obj [("violations", .arr (s.violations.map (·.toJson))),
    ("files_examined", .nat (files.countP (Legible cfg ·.2))), ("examined", .strs s.examined),
    ("diagnostics", .arr (s.skips.map (·.toJson)))]

/-- The file that the survey of a directory comes by at an entry below it. -/
def fileOf? (cfg : Config.Scanner) (extensions : List String) (target : Path)
    (x : Location × Entry) : Option (Location × List UInt8) :=
  x.2.bytes?.bind fun bytes ↦
    if eligible cfg extensions x.1 x.2 && !isOverlong (x.1.foldl Path.join target)
    then some (x.1, bytes) else none

theorem fileOf?_eq_some_iff {x : Location × Entry} :
    fileOf? cfg extensions target x = some (ns, bytes) ↔
      x.1 = ns ∧ x.2.bytes? = some bytes ∧ eligible cfg extensions ns x.2 ∧
        isOverlong (ns.foldl Path.join target) = false := by
  rw [fileOf?, Option.bind_eq_some_iff]
  constructor
  · rintro ⟨bytes', hbytes, h⟩
    split_ifs at h with hread
    cases h
    rw [Bool.and_eq_true, Bool.not_eq_true'] at hread
    exact ⟨rfl, hbytes, hread⟩
  · rintro ⟨rfl, hbytes, hread⟩
    refine ⟨bytes, hbytes, if_pos ?_⟩
    rw [Bool.and_eq_true, Bool.not_eq_true']
    exact hread

/-- The files that the survey of a directory comes by, among what is below it. -/
def filesBelow (cfg : Config.Scanner) (extensions : List String) (target : Path)
    (below : List (Location × Entry)) : List (Location × List UInt8) :=
  below.filterMap (fileOf? cfg extensions target)

theorem ofDir_eq_ofFiles (below : List (Location × Entry)) :
    ofDir cfg extensions root target below =
      ofFiles cfg (shownAs root target) (filesBelow cfg extensions target below) := by
  rw [ofDir, ofFiles, filesBelow, map_filterMap]
  refine congrArg concat (filterMap_congr fun x _ ↦ ?_)
  rw [fileOf?]
  cases hbytes : x.2.bytes? with
  | none => simp [hbytes]
  | some bytes =>
    simp only [hbytes, Option.bind_some]
    split_ifs <;> rfl

theorem mem_filesBelow_iff (ht : t.Distinct) (hnames : t.ProperNames) :
    (ns, bytes) ∈ filesBelow cfg (extensions.map plainExtension) target (t.below d) ↔
      Eligible cfg extensions t d ns bytes ∧ isOverlong (ns.foldl Path.join target) = false := by
  rw [filesBelow, mem_filterMap]
  constructor
  · rintro ⟨⟨ms, e⟩, hmem, hx⟩
    obtain ⟨rfl, hbytes, hread, hshort⟩ := fileOf?_eq_some_iff.1 hx
    obtain ⟨hne, hget⟩ := (mem_below_iff ht).1 hmem
    exact ⟨(eligible_iff (proper_of_mem_below hnames hmem) hne hget hbytes).1 hread, hshort⟩
  · rintro ⟨h, hshort⟩
    obtain ⟨e, hget, hbytes⟩ := Option.bind_eq_some_iff.1 h.file
    have hns : ns.Proper := ((proper_append d ns).1 (hnames _ _ hget)).2
    have hne : ns ≠ [] := by
      rintro rfl
      obtain ⟨_, _, hlast, -⟩ := h.extension
      cases hlast
    have hread := (eligible_iff hns hne hget hbytes).2 h
    exact ⟨(ns, e), (mem_below_iff ht).2 ⟨hne, hget⟩,
      fileOf?_eq_some_iff.2 ⟨rfl, hbytes, hread, hshort⟩⟩

theorem pairwise_filesBelow (ht : t.Distinct) :
    (filesBelow cfg extensions target (t.below d)).Pairwise fun x y ↦
      Precedes x.1 y.1 ∧ x.1 ≠ y.1 := by
  have hbelow : (t.below d).Pairwise fun a b ↦ Precedes a.1 b.1 ∧ a.1 ≠ b.1 :=
    ((pairwise_below t d).and (pairwise_map.1 (nodup_below ht d))).imp fun ⟨hle, hne⟩ ↦
      ⟨precedes_of_le hle hne, hne⟩
  refine hbelow.filterMap _ ?_
  rintro a b hab ⟨ns, bytes⟩ hx ⟨ms, bytes'⟩ hy
  obtain ⟨rfl, -⟩ := fileOf?_eq_some_iff.1 hx
  obtain ⟨rfl, -⟩ := fileOf?_eq_some_iff.1 hy
  exact hab

theorem components_foldl_join (htarget : target.isAbsolute) (hns : ns.Proper) :
    (ns.foldl Path.join target).components = target.components ++ ns.map .name := by
  induction ns generalizing target with
  | nil => simp
  | cons n ns ih =>
    have hn : ProperName n := hns n mem_cons_self
    have hhead : n.toList.head? ≠ some '/' := fun h ↦ hn.no_slash (mem_of_mem_head? h)
    have hsplit : (Path.split n).filterMap Path.componentOf? = [.name n] := by
      rw [Path.split, Path.splitFrom_of_not_mem hn.no_slash]
      simp [hn.componentOf?_eq]
    rw [foldl_cons, ih (Path.isAbsolute_join htarget n) fun m hm ↦
      hns m (mem_cons_of_mem n hm), Path.components_join htarget hhead, hsplit]
    simp

/-- Files are told apart by their names. -/
theorem shownAs_inj (htarget : target.isAbsolute) {ms : Location} (hns : ns.Proper)
    (hms : ms.Proper) (h : shownAs root target ns = shownAs root target ms) : ns = ms := by
  have hjoin (ks : Location) :=
    Path.components_join_relativeTo (isAbsolute_foldl_join htarget ks) root
  have hcomponents : (ns.foldl Path.join target).components =
      (ms.foldl Path.join target).components := by
    rw [← hjoin ns, ← hjoin ms]
    exact congrArg (fun file ↦ (root.join file).components) h
  rw [components_foldl_join htarget hns, components_foldl_join htarget hms] at hcomponents
  have hinjective : Function.Injective Component.name := fun _ _ h ↦ Component.name.inj h
  exact hinjective.list_map (append_cancel_left hcomponents)

/-- **Every eligible file is covered, once.** -/
theorem ofTarget_covers (cfg : Config.Scanner) (extensions : List String) (root : Path)
    (ht : t.Distinct) (hnames : t.ProperNames) (htarget : target.isAbsolute)
    (hd : t.locate target = .ok d) (hdir : t.DirAt d) :
    ∃ s files, ofTarget cfg extensions root t target = .ok s ∧
      Covers cfg extensions root target t d s files := by
  have hok : ofTarget cfg extensions root t target =
      .ok (ofDir cfg (extensions.map plainExtension) root target (t.below d)) := by
    simp only [ofTarget, hd, show t.get? d = some .dir from hdir, Option.bind_some, Entry.bytes?]
  rw [ofDir_eq_ofFiles] at hok
  generalize hfiles : filesBelow cfg (extensions.map plainExtension) target (t.below d) = files
    at hok
  have hmem (ns : Location) (bytes : List UInt8) : (ns, bytes) ∈ files ↔
      Eligible cfg extensions t d ns bytes ∧ isOverlong (ns.foldl Path.join target) = false := by
    rw [← hfiles]
    exact mem_filesBelow_iff ht hnames
  have hproper (x : Location × List UInt8) (hx : x ∈ files) : x.1.Proper := by
    obtain ⟨e, hget, -⟩ := Option.bind_eq_some_iff.1 ((hmem x.1 x.2).1 hx).1.file
    exact ((proper_append d x.1).1 (hnames _ _ hget)).2
  have hordered : files.Pairwise fun x y ↦ Precedes x.1 y.1 ∧ x.1 ≠ y.1 := by
    rw [← hfiles]
    exact pairwise_filesBelow ht
  have hnodup : (files.map fun x ↦ shownAs root target x.1).Nodup :=
    List.pairwise_map.2 (hordered.imp_of_mem fun hx hy hxy heq ↦
      hxy.2 (shownAs_inj htarget (hproper _ hx) (hproper _ hy) heq))
  refine ⟨_, files, hok, ?_⟩
  exact {
    mem_iff := hmem
    ordered := hordered.imp And.left
    nodup := hnodup
    examined := examined_ofFiles cfg _ files
    skips := skips_ofFiles cfg _ files
    violations := violations_ofFiles cfg _ files
    lines := pairwise_violations_ofFiles cfg _ files hnodup
    count := by
      rw [toJson, examined_ofFiles, List.length_map, ← List.countP_eq_length_filter] }

/-- Files that are read or skipped, and some that are not come by. -/
def mixedEntries : List (Location × Entry) :=
  [([".git"], .dir), ([".git", "a.py"], .file [] ⟨0, 0⟩),
    (["B.PY"], .file (Utf8.encode "eval(x)\n".toList) ⟨0, 0⟩), (["a"], .dir),
    (["a", "c.py"], .file [0xE9, 0x0A] ⟨0, 0⟩), (["a.py"], .file [0] ⟨0, 0⟩), (["build"], .dir),
    (["build", "a.py"], .file [] ⟨0, 0⟩), (["large.py"], .file (List.replicate 9 0x23) ⟨0, 0⟩),
    (["link.py"], .link "B.PY")]

def mixedTree : FileTree where
  entries := (["ws"], .dir) :: mixedEntries.map fun x ↦ ("ws" :: x.1, x.2)

theorem ofTarget_covers_mixed :
    ∃ s files, ofTarget { maxFileBytes := 8 } [".py"] ⟨"/ws"⟩ mixedTree ⟨"/ws"⟩ = .ok s ∧
      Covers { maxFileBytes := 8 } [".py"] ⟨"/ws"⟩ ⟨"/ws"⟩ mixedTree ["ws"] s files ∧
      s.examined = ["B.PY", "a/c.py"] ∧
      (s.skips.map fun k ↦ (k.file, k.reason)) = [("a.py", .encoding), ("large.py", .tooLarge)] ∧
      (s.violations.map fun v ↦ (v.file, v.line)) = [("B.PY", 1)] := by
  have hlocate : mixedTree.locate ⟨"/ws"⟩ = .ok ["ws"] := by decide
  have hdir : mixedTree.DirAt ["ws"] := rfl
  have hsorted : mixedTree.below ["ws"] = mixedEntries := List.mergeSort_of_pairwise (by decide)
  obtain ⟨s, files, hs, hcovers⟩ := ofTarget_covers { maxFileBytes := 8 } [".py"] ⟨"/ws"⟩
    (by decide) (properNames_of_entries (by decide)) (by decide) hlocate hdir
  refine ⟨s, files, hs, hcovers, ?_⟩
  simp only [ofTarget, hlocate, show mixedTree.get? ["ws"] = some .dir from hdir, hsorted,
    Option.bind_some, Entry.bytes?] at hs
  cases hs
  exact ⟨by decide +kernel, by decide +kernel, by decide +kernel⟩

/-! ## Files that are too deep -/

section Nested

variable (depth : Nat)

/-- The place of a file within as many directories as given. -/
def nested : Location := List.replicate depth "d" ++ ["a.py"]

def nestedTree : FileTree where
  entries := (["ws"], .dir) :: ((List.range depth).map fun i ↦
      (["ws"] ++ List.replicate (i + 1) "d", .dir)) ++ [(["ws"] ++ nested depth, .file [] ⟨0, 0⟩)]

variable {depth} in
theorem mem_nestedTree {l : Location} {e : Entry} (h : (l, e) ∈ (nestedTree depth).entries) :
    (e = .dir ∧ ∃ i, l = ["ws"] ++ List.replicate i "d") ∨
      e = .file [] ⟨0, 0⟩ ∧ l = ["ws"] ++ nested depth := by
  rcases mem_append.1 h with h | h
  · left
    rcases mem_cons.1 h with h | h
    · cases h
      exact ⟨rfl, 0, rfl⟩
    · obtain ⟨i, -, hi⟩ := mem_map.1 h
      cases hi
      exact ⟨rfl, i + 1, rfl⟩
  · right
    cases mem_singleton.1 h
    exact ⟨rfl, rfl⟩

/-- The places have different lengths. -/
theorem nestedTree_distinct : (nestedTree depth).Distinct := by
  have hlengths : ((nestedTree depth).entries.map Prod.fst).map List.length =
      1 :: (List.range depth).map (· + 2) ++ [depth + 2] := by
    simp [nestedTree, nested, Function.comp_def]
  have hrange : ((List.range depth).map (· + 2)).Nodup :=
    nodup_range.map (add_left_injective 2)
  refine List.Nodup.of_map List.length ?_
  rw [hlengths, nodup_append, nodup_cons]
  refine ⟨⟨by simp, hrange⟩, nodup_singleton _, ?_⟩
  simp
  omega

theorem nested_proper : (nested depth).Proper := by
  rw [nested, proper_append]
  refine ⟨fun n hn ↦ ?_, by decide⟩
  rw [eq_of_mem_replicate hn]
  decide

theorem nestedTree_properNames : (nestedTree depth).ProperNames := by
  have hws : Proper ["ws"] := by decide
  refine properNames_of_entries fun x hx ↦ ?_
  rcases mem_nestedTree hx with ⟨-, i, hl⟩ | ⟨-, hl⟩
  · rw [hl, proper_append]
    exact ⟨hws, ((proper_append _ _).1 (nested_proper i)).1⟩
  · rw [hl, proper_append]
    exact ⟨hws, nested_proper depth⟩

theorem eligible_nested : Eligible {} ["py"] (nestedTree depth) ["ws"] (nested depth) [] where
  file := by
    have hmem : (["ws"] ++ nested depth, .file [] ⟨0, 0⟩) ∈ (nestedTree depth).entries :=
      mem_append_right _ (mem_singleton_self _)
    rw [((nestedTree_distinct depth).get?_eq_some_iff (by simp)).2 hmem]
    rfl
  plain := by
    intro n hn
    rcases mem_append.1 hn with hn | hn
    · rw [eq_of_mem_replicate hn]
      decide
    · rw [mem_singleton.1 hn]
      decide
  above := by
    intro n hn
    rw [nested, dropLast_concat] at hn
    rw [eq_of_mem_replicate hn]
    decide
  extension := ⟨"a", "py", getLast?_concat, by decide, by decide, "py", by simp, by decide⟩

variable {depth} in
theorem isOverlong_nested (h : maxPath ≤ depth) :
    isOverlong ((nested depth).foldl Path.join ⟨"/ws"⟩) := by
  have hsum : ((nested depth).map String.utf8ByteSize).sum = depth + 4 := by
    have hdir : "d".utf8ByteSize = 1 := rfl
    have hfile : "a.py".utf8ByteSize = 4 := rfl
    simp [nested, hdir, hfile]
  have hsize := utf8ByteSize_le_foldl_join (nested_proper depth) ⟨"/ws"⟩
  rw [isOverlong, decide_eq_true_iff]
  omega

variable {depth} in
theorem ofTarget_nestedTree (h : maxPath ≤ depth) :
    ofTarget {} ["py"] ⟨"/ws"⟩ (nestedTree depth) ⟨"/ws"⟩ = .ok {} := by
  have hlocate : (nestedTree depth).locate ⟨"/ws"⟩ = .ok ["ws"] := rfl
  have hdir : (nestedTree depth).get? ["ws"] = some .dir := rfl
  have hnone : filesBelow {} (["py"].map plainExtension) ⟨"/ws"⟩ ((nestedTree depth).below ["ws"]) =
      [] := by
    refine eq_nil_iff_forall_not_mem.2 ?_
    rintro ⟨ns, bytes⟩ hmem
    obtain ⟨heligible, hshort⟩ :=
      (mem_filesBelow_iff (nestedTree_distinct depth) (nestedTree_properNames depth)).1 hmem
    obtain ⟨e, he, hbytes⟩ := Option.bind_eq_some_iff.1 heligible.file
    rcases mem_nestedTree (((nestedTree_distinct depth).get?_eq_some_iff (by simp)).1 he) with
      ⟨rfl, -⟩ | ⟨-, hns⟩
    · cases hbytes
    · rw [append_cancel_left hns, isOverlong_nested h] at hshort
      cases hshort
  simp only [ofTarget, hlocate, hdir, Option.bind_some, Entry.bytes?, ofDir_eq_ofFiles, hnone]
  rfl

/-- A listed extension with a dot is not that of any file, yet `py` files are read for `.py`. A file
whose path is too long is neither read nor skipped, though eligible and legible. -/
theorem ofTarget_dotted_nested :
    ((∀ x ∈ [".py"], x.toList.map Char.toLower ≠ "py".toList) ∧
      ofTarget {} [".py"] ⟨"/ws"⟩ (nestedTree 0) ⟨"/ws"⟩ = .ok { examined := ["a.py"] }) ∧
    Eligible {} ["py"] (nestedTree maxPath) ["ws"] (nested maxPath) [] ∧ Legible {} [] ∧
      ofTarget {} ["py"] ⟨"/ws"⟩ (nestedTree maxPath) ⟨"/ws"⟩ = .ok {} :=
  ⟨⟨by decide, by decide +kernel⟩, eligible_nested maxPath, by decide,
    ofTarget_nestedTree (Nat.le_refl maxPath)⟩

end Nested

end Survey

end Steward
