import Steward.Proofs.Encoding
import Steward.Proofs.Fix.Convergence
import Steward.Proofs.Sibling
import Steward.Proofs.Sweep

/-!
# Copies of originals

Before a file is written for the first time, its bytes are put beside it as a copy. Here the copy is
followed through one call that fixes a file, for any path that leads to one in a tree without links:
relative or not, with dots and slashes of any number in it. A file that is written weighs less
afterwards (`Fix.weight`), so a call that writes it always changes it; and every copy that was there
before the call is there after it, `Fix.file_careful`.
-/

namespace Steward

open Location FileTree Std.Do List

/-! ## The places around the file that a path leads to -/

namespace FileTree

variable {t : FileTree} {p u : Path} {n : String}

theorem startOf_eq_of_lead (t : FileTree) {q : Path} (h : p.lead = q.lead) :
    t.startOf p = t.startOf q := by rw [startOf, startOf, Path.isAbsolute_eq_of_lead h]

theorem place_join_name (t : FileTree) (hu : u.Trimmed) {m : String} (hm : ProperName m) :
    t.place (u.join m) = t.place u ++ [m] := by
  rw [place, place, Path.steps_join_name hu hm, t.startOf_eq_of_lead (Path.lead_join_name hu hm),
    ← placeFrom_names, placeFrom, foldl_append]
  exact placeFrom_of_proper _ ((proper_singleton m).2 hm)

theorem placeFrom_dots (l : Location) (i : Nat) : placeFrom l (List.replicate i ".") = l := by
  induction i with
  | zero => rfl
  | succ i ih => exact ih

theorem place_of_parent? (t : FileTree) (hn : p.fileName? = some n) (hu : p.parent? = some u) :
    t.place p = t.place u ++ [n] := by
  obtain ⟨u', hu', hlead, -, -, i, j, hnames⟩ := Path.parent?_of_fileName? hn
  obtain rfl := Option.some_inj.1 (hu.symm.trans hu')
  have happend (l : Location) (ss ss' : List String) :
      placeFrom l (ss ++ ss') = placeFrom (placeFrom l ss) ss' := foldl_append
  rw [place, place, ← placeFrom_names, ← placeFrom_names, hnames, happend, happend, happend,
    placeFrom_dots, placeFrom_dots, t.startOf_eq_of_lead hlead]
  exact placeFrom_of_proper _ ((proper_singleton n).2 (Path.properName_of_fileName? hn).1)

/-- A way that goes on from somewhere comes through a directory there. -/
theorem Advances.exists_dirAt {at_ l : Location} {ss tl : List String} {s : String}
    (h : Advances t .followed at_ (ss ++ s :: tl) (.entry l)) :
    ∃ k, Advances t .followed at_ ss (.entry k) ∧ t.DirAt k := by
  obtain ⟨k, hk, hnext⟩ | ⟨_, _, _, hr, -⟩ := h.split (cons_ne_nil _ _)
  · refine ⟨k, hk, ?_⟩
    cases hnext with
    | stay hdir | up hdir | keep hdir | enter hdir => exact hdir
  · cases hr

/-- A way ends in a directory unless its last step that counts is a name. -/
theorem Advances.dirAt_or_name {at_ l : Location} {ss : List String}
    (h : Advances t .followed at_ ss (.entry l)) (hat : ∀ k, k <+: at_ → t.DirAt k) :
    t.DirAt l ∨ ∃ n, (ss.filterMap Path.componentOf?).getLast? = some (.name n) := by
  generalize hr : Reached.entry l = r at h
  induction h with
  | done at_ =>
    cases hr
    exact .inl (hat _ (prefix_refl _))
  | stay _ hs _ ih =>
    rw [filterMap_cons_none (by rcases hs with rfl | rfl <;> rfl)]
    exact ih hat hr
  | up _ _ ih =>
    refine (ih (fun k hk ↦ hat k (hk.trans (List.dropLast_prefix _))) hr).imp_right ?_
    rintro ⟨n, hn⟩
    have hup : Path.componentOf? ".." = some .up := rfl
    exact ⟨n, by rw [filterMap_cons_some hup, getLast?_cons, hn]; rfl⟩
  | free | turn => cases hr
  | keep _ _ _ hkept => cases hkept
  | @enter at_ s rest r e hdir hs hget he _ next ih =>
    have hname : Path.componentOf? s = some (.name s) := by
      simp [Path.componentOf?, hs.ne_empty, hs.ne_here, hs.ne_up]
    rw [filterMap_cons_some hname, getLast?_cons]
    by_cases hinto : t.DirAt (at_ ++ [s])
    · refine (ih (fun k hk ↦ ?_) hr).imp_right ?_
      · rcases prefix_concat_iff.1 hk with rfl | hk
        · exact hinto
        · exact hat k hk
      · rintro ⟨n, hn⟩
        exact ⟨n, by rw [hn]; rfl⟩
    · cases next with
      | done => exact .inr ⟨s, rfl⟩
      | stay hdir | up hdir | free hdir | keep hdir | turn hdir | enter hdir =>
        exact absurd hdir hinto

theorem NoLinks.of_read (ht : t.NoLinks []) {bytes : List UInt8} (h : t.read p = .ok bytes) :
    ∃ e, t.spot .followed p = .ok (.entry (t.place p)) ∧ t.get? (t.place p) = some e ∧
      e.bytes? = some bytes := by
  rw [FileTree.read] at h
  cases hfind : t.find p with
  | error x => simp [hfind] at h
  | ok e =>
    obtain ⟨hspot, hget⟩ := (ht.leads p).find_eq_ok hfind
    refine ⟨e, hspot, hget, ?_⟩
    cases hbytes : e.bytes? with
    | none => simp [hfind, hbytes] at h
    | some bytes' => simpa [hfind, hbytes] using h

/-- The working directory and all above it are directories. -/
def Homed (t : FileTree) : Prop := ∀ k, k <+: t.workingDir → t.DirAt k

/-- A path to a file ends in a name. -/
theorem NoLinks.exists_fileName? (ht : t.NoLinks []) (hhome : t.Homed) {bytes : List UInt8}
    (h : t.read p = .ok bytes) : ∃ n, p.fileName? = some n := by
  obtain ⟨e, hspot, hget, hbytes⟩ := ht.of_read h
  have hstart : ∀ k, k <+: t.startOf p → t.DirAt k := by
    rw [startOf]
    split_ifs
    · intro k hk
      rw [prefix_nil.1 hk]
      exact get?_nil t
    · exact hhome
  obtain hdir | ⟨n, hn⟩ := ((ht.leads p).advances hspot).dirAt_or_name hstart
  · cases hget.symm.trans hdir
    cases hbytes
  · refine ⟨n, ?_⟩
    have hbody : (steps p.text).filterMap Path.componentOf? = Path.body p.text := by
      obtain ⟨tl, htl, hempty⟩ := exists_steps_eq p.text
      have hnone : tl.filterMap Path.componentOf? = [] :=
        filterMap_eq_nil_iff.2 fun s hs ↦ by rw [hempty s hs]; rfl
      rw [htl, filterMap_append, hnone, append_nil, Path.filterMap_names, Path.body]
    obtain ⟨lead, hp, -, -⟩ := p.exists_components_eq
    rw [hbody] at hn
    rw [Path.fileName?, hp, getLast?_append, hn]
    rfl

end FileTree

namespace Fix

variable {t : FileTree} {p u : Path} {n : String}

/-- In a tree without links, a path that ends in a name leads to a file with all around it. -/
theorem exists_ways (ht : t.NoLinks []) (hn : p.fileName? = some n) : ∃ l, Ways t p l n := by
  obtain ⟨u, hu, -, htrim, -⟩ := Path.parent?_of_fileName? hn
  obtain ⟨hproper, -⟩ := Path.properName_of_fileName? hn
  have hbackup : ProperName (n ++ ".backup") := hproper.append (by decide) (by decide)
  have hleads {m : String} (hm : ProperName m) : t.Leads (u.join m) (t.place u ++ [m]) :=
    ⟨t.place_join_name htrim hm, (ht.leads _).clear⟩
  have hcopy : backupPath p = u.join (n ++ ".backup") := Path.sibling_eq_join hn hu _
  have htemp : Disk.tempSibling p = u.join (n ++ ".tmp") := Path.sibling_eq_join hn hu _
  have hcopyTemp : Disk.tempSibling (backupPath p) = u.join (n ++ ".backup" ++ ".tmp") := by
    rw [hcopy]
    exact Path.sibling_eq_join (Path.fileName?_join_name htrim hbackup)
      (Path.parent?_join_name htrim hbackup) _
  refine ⟨t.place u, ⟨t.place_of_parent? hn hu, (ht.leads _).clear⟩, ?_, ?_, ?_, ?_⟩
  · rw [htemp]
    exact hleads (hproper.append (by decide) (by decide))
  · rw [hcopy]
    exact hleads hbackup
  · rw [hcopyTemp]
    exact hleads (hbackup.append (by decide) (by decide))
  · rw [hcopy, hu]
    exact Path.parent?_join_name htrim hbackup

/-- The directory of a file that can be read is there. -/
theorem housed_of_read (ht : t.NoLinks []) (hn : p.fileName? = some n) {bytes : List UInt8}
    (hread : t.read p = .ok bytes) : Disk.Housed t p := by
  intro u hu
  refine or_iff_not_imp_left.2 fun hempty ↦ ⟨t.place u, ht.leads u, ?_⟩
  obtain ⟨u', hu', hlead, -, habove, i, j, hnames⟩ := Path.parent?_of_fileName? hn
  obtain rfl := Option.some_inj.1 (hu.symm.trans hu')
  obtain ⟨e, hspot, -, -⟩ := ht.of_read hread
  have hway := (ht.leads p).advances hspot
  rw [spot_eq_ok_iff] at hspot
  obtain ⟨hlong, hzero, -, -⟩ := hspot
  obtain ⟨k, hk, hdir⟩ : ∃ k, Advances t .followed (t.startOf u) (names u.text) (.entry k) ∧
      t.DirAt k := by
    obtain ⟨tl, htl, -⟩ := exists_steps_eq p.text
    have hsplit : steps p.text = names u.text ++ (List.replicate i "." ++ [n] ++
        List.replicate j "." ++ tl) := by
      rw [htl, hnames]
      simp only [append_assoc]
    obtain ⟨s, rest, hrest⟩ := exists_cons_of_ne_nil
      (show List.replicate i "." ++ [n] ++ List.replicate j "." ++ tl ≠ [] by simp)
    rw [hsplit, hrest, ← t.startOf_eq_of_lead hlead] at hway
    exact hway.exists_dirAt
  refine isDir_iff.2 ⟨k, ?_, hdir⟩
  rw [spot_eq_ok_iff]
  refine ⟨isOverlong_of_text_isPrefix habove hlong, fun hmem ↦ hzero (habove.subset hmem), hempty,
    ?_⟩
  rw [steps]
  split_ifs
  · exact (Walks.entry hk).append_slash hdir
  · exact .entry hk

/-! ## Copies -/

/-- Every file that needs no copy any more has one. -/
def Marked (t : FileTree) (ps : List Path) : Prop :=
  ∀ q ∈ ps, ∃ l n, t.place q = l ++ [n] ∧ (t.get? (l ++ [n ++ ".backup"])).isSome

theorem Marked.mono {ps : List Path} {t' : FileTree} (h : Marked t ps)
    (hhome : t'.workingDir = t.workingDir)
    (hcopies : ∀ l n, (t.get? (l ++ [n ++ ".backup"])).isSome →
      (t'.get? (l ++ [n ++ ".backup"])).isSome) : Marked t' ps := by
  intro q hq
  obtain ⟨l, n, hplace, hsome⟩ := h q hq
  refine ⟨l, n, ?_, hcopies l n hsome⟩
  rw [← hplace, place, place, startOf, startOf, hhome]

theorem Marked.of_keeps {ps : List Path} {t' : FileTree} (h : Marked t ps)
    (hhome : t'.workingDir = t.workingDir) (hkeeps : Keeps t t') : Marked t' ps :=
  h.mono hhome fun l n hsome ↦ (hkeeps _ hsome).resolve_right (not_isTemp_backup l n)

section Copies

variable {l : Location} {now : Instant} {old bytes : List UInt8} {b b₁ b' : Bench}
  {made : Option Path} {w : Bool}

/-- The copy is the one that was there, or it holds the old bytes. -/
theorem Ensured.copy (hb : Ways b.tree p l n) (hm : Marked b.tree b.backedUp)
    (h : Ensured p l n now old b made b₁) :
    Marked b₁.tree b₁.backedUp ∧ b₁.tree.get? (l ++ [n ++ ".backup"]) =
      some ((b.tree.get? (l ++ [n ++ ".backup"])).getD (.file old now)) := by
  have hthere (hsome : (b.tree.get? (l ++ [n ++ ".backup"])).isSome) :
      b.tree.get? (l ++ [n ++ ".backup"]) =
        some ((b.tree.get? (l ++ [n ++ ".backup"])).getD (.file old now)) := by
    obtain ⟨e, he⟩ := Option.isSome_iff_exists.1 hsome
    rw [he, Option.getD_some]
  cases h with
  | known h =>
    obtain ⟨q, hq, hsame⟩ := any_eq_true.1 h
    obtain ⟨l', n', hplace, hsome⟩ := hm q hq
    rw [b.tree.place_of_same hsame, hb.file.place] at hplace
    obtain ⟨rfl, hn⟩ := append_inj' hplace rfl
    cases hn
    exact ⟨hm, hthere hsome⟩
  | found h =>
    have hsome := (hb.backup.contains_iff.1 h).2
    exact ⟨forall_mem_cons.2 ⟨⟨l, n, hb.file.place, hsome⟩, hm⟩, hthere hsome⟩
  | made hfree h =>
    refine ⟨forall_mem_cons.2 ⟨⟨l, n, ?_, ?_⟩, hm.of_keeps h.changes.workingDir h.keeps⟩, ?_⟩
    · rw [h.changes.place, hb.file.place]
    · rw [h.there]
      rfl
    · rw [h.there, hfree, Option.getD_none]

theorem backup_ne_file : l ++ [n ++ ".backup"] ≠ l ++ [n] :=
  (ne_append_suffix l n (by decide)).symm

theorem backup_ne_tempFile (l' : Location) (n' : String) :
    l ++ [n ++ ".backup"] ≠ l' ++ [n' ++ ".tmp"] :=
  fun heq ↦ not_isTemp_backup l n ⟨l', n', heq⟩

/-- A file that was written has its copy; else nothing is different about that. -/
theorem Exchange.copy (hb : Ways b.tree p l n) (hm : Marked b.tree b.backedUp)
    (h : Exchange p l n now old bytes b w b') :
    Marked b'.tree b'.backedUp ∧ b'.tree.get? (l ++ [n ++ ".backup"]) =
      if w then some ((b.tree.get? (l ++ [n ++ ".backup"])).getD (.file old now))
      else b.tree.get? (l ++ [n ++ ".backup"]) := by
  have hfixed := h.fixed hb
  have hkept := hm.of_keeps hfixed.changes.workingDir hfixed.keeps
  cases h with
  | uncopied h => exact ⟨hkept, h.others _ (backup_ne_tempFile _ _)⟩
  | written h hw =>
    obtain ⟨hm₁, hcopy⟩ := h.copy hb hm
    refine ⟨hm₁.of_keeps hw.changes.workingDir hw.keeps, ?_⟩
    rw [if_pos rfl, ← hcopy]
    exact hw.changes.others _ (not_or.2 ⟨backup_ne_file, backup_ne_tempFile _ _⟩)
  | @failed b₁ tree sleeps h hw =>
    obtain ⟨hm₁, -⟩ := h.copy hb hm
    refine ⟨hm₁.of_keeps hw.workingDir (keeps_of_temp hw), ?_⟩
    have htree : b₁.tree = b.tree := by cases h <;> rfl
    rw [← htree]
    exact hw.others _ (backup_ne_tempFile _ _)
  | @undone q b₁ tree sleeps h hw =>
    cases h with
    | @made tree₁ hfree h =>
      refine ⟨fun q hq ↦ hkept q ?_, ?_⟩
      · obtain ⟨hq, hother⟩ := mem_filter.1 hq
        refine (mem_cons.1 hq).resolve_left ?_
        rintro rfl
        simp [Path.same] at hother
      -- The copy is where the path leads, so it can be taken away.
      have hleads : tree₁.Leads (backupPath p) _ := hb.backup.of_changes h.changes
      have hget : tree.get? (l ++ [n ++ ".backup"]) = some (.file old now) :=
        (hw.others _ (backup_ne_tempFile _ _)).trans h.there
      have hremove := Disk.removeFile_of_contains (hleads.of_changes hw)
        (hleads.contains_of_changes hw h.found (by rw [hget]; rfl)) (by simp [DirAt, hget])
      simp only [Bench.dropBackup, Disk.exec, EStateM.run, hremove]
      rw [get?_erase _ (by simp), if_pos rfl, if_neg (by simp), hfree]

end Copies

/-! ## What becomes of a file and its copy -/

/-- How much there is to fix at most in a file with a name. -/
def weight (n : String) (bytes : List UInt8) : Nat :=
  totalBurden (Language.ofExtension (Path.asciiLower ((Path.extensionOf? n).getD "")))
    (Text.lines ((Utf8.decode bytes).getD (Encoding.latin1Chars bytes)))

/-- A file that was fixed weighs less. -/
theorem weight_encode_lt {old : List UInt8} {source new : List Char} {encoding : Encoding}
    {vs : List Violation} (hn : p.fileName? = some n)
    (hsource : Encoding.detect old = some (source, encoding))
    (hnew : (text (Language.ofPath p) vs source).2 = some new) :
    weight n (Utf8.encode new) < weight n old := by
  have hlanguage : Language.ofPath p =
      Language.ofExtension (Path.asciiLower ((Path.extensionOf? n).getD "")) := by
    rw [Language.ofPath, Path.extension?, hn, Option.bind_some]
  rw [weight, weight, Utf8.decode_encode, Option.getD_some, ← (Encoding.of_detect hsource).2,
    ← hlanguage]
  exact totalBurden_text_lt hnew

end Fix

/-- The bytes of the file at a place. -/
def FileTree.bytesAt (t : FileTree) (l : Location) : Option (List UInt8) :=
  (t.get? l).bind (·.bytes?)

theorem FileTree.bytesAt_congr {t t' : FileTree} {l : Location} (h : t'.get? l = t.get? l) :
    t'.bytesAt l = t.bytesAt l := by rw [bytesAt, bytesAt, h]

/-- What may become of the file `l ++ [n]` and its copy. -/
inductive Handled (l : Location) (n : String) (t t' : FileTree) : Prop where
  | left (hfile : t'.get? (l ++ [n]) = t.get? (l ++ [n]))
      (hcopy : t'.get? (l ++ [n ++ ".backup"]) = t.get? (l ++ [n ++ ".backup"]))
  /-- The file is written and weighs less. The copy is the one that was there, or it holds the bytes
  that the file had. -/
  | written {old new : List UInt8} {now : Instant} (hold : t.bytesAt (l ++ [n]) = some old)
      (hnew : t'.bytesAt (l ++ [n]) = some new) (hlt : Fix.weight n new < Fix.weight n old)
      (hcopy : t'.get? (l ++ [n ++ ".backup"]) =
        some ((t.get? (l ++ [n ++ ".backup"])).getD (.file old now)))

theorem Handled.trans {l : Location} {n : String} {t t' t'' : FileTree} (h : Handled l n t t')
    (h' : Handled l n t' t'') : Handled l n t t'' := by
  cases h with
  | left hfile hcopy =>
    cases h' with
    | left hfile' hcopy' => exact .left (hfile'.trans hfile) (hcopy'.trans hcopy)
    | written hold hnew hlt hcopy' =>
      rw [hcopy] at hcopy'
      exact .written (bytesAt_congr hfile ▸ hold) hnew hlt hcopy'
  | written hold hnew hlt hcopy =>
    cases h' with
    | left hfile' hcopy' =>
      exact .written hold ((bytesAt_congr hfile').trans hnew) hlt (hcopy'.trans hcopy)
    | written hold' hnew' hlt' hcopy' =>
      cases hnew.symm.trans hold'
      rw [hcopy, Option.getD_some] at hcopy'
      exact .written hold hnew' (hlt'.trans hlt) hcopy'

/-- From `t` to `t'` no copy was touched, and no file was written without one, the ledger aside. -/
structure Careful (ledger : Location) (t t' : FileTree) : Prop where
  changes : ChangesOnly (fun _ ↦ True) t t'
  copies : ∀ l n e, t.get? (l ++ [n ++ ".backup"]) = some e →
    t'.get? (l ++ [n ++ ".backup"]) = some e
  files : ∀ l n, Fix.Lasting n → l ++ [n] ≠ ledger → Handled l n t t'

namespace Careful

variable {ledger : Location} {t t' t'' : FileTree}

theorem refl (ledger : Location) (t : FileTree) : Careful ledger t t :=
  ⟨.refl _ t, fun _ _ _ ↦ id, fun _ _ _ _ ↦ .left rfl rfl⟩

theorem trans (h : Careful ledger t t') (h' : Careful ledger t' t'') : Careful ledger t t'' where
  changes := h.changes.trans h'.changes
  copies l n e he := h'.copies l n e (h.copies l n e he)
  files l n hn hne := (h.files l n hn hne).trans (h'.files l n hn hne)

theorem marked {ps : List Path} (h : Careful ledger t t') (ht : Fix.Marked t ps) :
    Fix.Marked t' ps := by
  refine ht.mono h.changes.workingDir fun l n hsome ↦ ?_
  obtain ⟨e, he⟩ := Option.isSome_iff_exists.1 hsome
  rw [h.copies l n e he]
  rfl

/-- The ledger itself may change, unless it is where a copy would be. -/
theorem of_changes (h : ChangesOnly (· = ledger) t t')
    (hledger : ∀ l n, l ++ [n ++ ".backup"] ≠ ledger) : Careful ledger t t' where
  changes := h.mono fun _ _ _ ↦ trivial
  copies l n e he := by rw [h.others _ (hledger l n), he]
  files l n _ hne := .left (h.others _ hne) (h.others _ (hledger l n))

end Careful

namespace Fix

variable {t : FileTree} {p u : Path} {n : String}
variable {l l' : Location} {n' : String}

theorem backup_ne_of_not_suffix (hn : ¬".backup".toList <:+ n.toList) :
    l' ++ [n' ++ ".backup"] ≠ l ++ [n] := by
  intro heq
  obtain ⟨-, heq⟩ := append_inj' heq rfl
  rw [singleton_inj] at heq
  exact hn (heq ▸ suffix_of_append)

/-- The copies are away from all that changes around a file which is no copy itself. -/
theorem not_around_backup (hn : ¬".backup".toList <:+ n.toList)
    (hother : l' ++ [n'] ≠ l ++ [n] ∨ (t.get? (l ++ [n ++ ".backup"])).isSome) :
    ¬Around t l n (l' ++ [n' ++ ".backup"]) := by
  rintro (heq | ⟨heq, hfree⟩ | heq | heq)
  · exact backup_ne_of_not_suffix hn heq
  · rcases hother with hne | hsome
    · obtain ⟨rfl, hname⟩ := append_inj' heq rfl
      rw [singleton_inj, String.append_left_inj] at hname
      exact hne (by rw [hname])
    · rw [heq] at hfree
      simp [hfree] at hsome
  · exact not_isTemp_backup l' n' ⟨l, n, heq⟩
  · exact not_isTemp_backup l' n' ⟨l, _, heq⟩

theorem not_around_of_lasting (hn' : Lasting n') (hne : l' ++ [n'] ≠ l ++ [n]) :
    ¬Around t l n (l' ++ [n']) := by
  rintro (heq | ⟨heq, -⟩ | heq | heq)
  · exact hne heq
  all_goals
    obtain ⟨-, heq⟩ := append_inj' heq rfl
    rw [singleton_inj] at heq
  · exact hn'.2 (heq ▸ suffix_of_append)
  · exact hn'.1 (heq ▸ suffix_of_append)
  · exact hn'.1 (heq ▸ suffix_of_append)

/-- Fixing a file by a path that is not that of a copy does no harm to any copy. -/
theorem file_careful {b : Bench} (ht : b.tree.NoLinks []) (hhome : b.tree.Homed)
    (hm : Marked b.tree b.backedUp) (hp : ∀ n ∈ p.fileName?, ¬".backup".toList <:+ n.toList)
    (ledger : Location) (cfg : Config.Fixer) (now : Instant) (name : String) (vs : List Violation) :
    Careful ledger b.tree (file cfg now p name vs b).2.tree ∧
      Marked (file cfg now p name vs b).2.tree (file cfg now p name vs b).2.backedUp := by
  cases hread : b.tree.read p with
  | error e =>
    have hfile : (file cfg now p name vs b).2 = b := by simp only [file, hread]
    rw [hfile]
    exact ⟨.refl _ _, hm⟩
  | ok old =>
    obtain ⟨n, hn⟩ := ht.exists_fileName? hhome hread
    obtain ⟨l, hways⟩ := exists_ways ht hn
    obtain ⟨-, heq⟩ | ⟨old', source, encoding, new, hread', hsource, hnew, hexchange⟩ :=
      file_cases hways (fun _ ↦ housed_of_read ht hn) cfg now name vs
    · rw [heq]
      exact ⟨.refl _ _, hm⟩
    cases hread.symm.trans hread'
    have hfixed := hexchange.fixed hways
    obtain ⟨hm', hcopy⟩ := hexchange.copy hways hm
    refine ⟨⟨hfixed.changes.mono fun _ _ _ ↦ trivial, fun l' n' e he ↦ ?_, fun l' n' hn' _ ↦ ?_⟩,
      hm'⟩
    · refine (hfixed.changes.others _ (not_around_backup (hp n hn) ?_)).trans he
      by_cases heq : l' ++ [n'] = l ++ [n]
      · obtain ⟨rfl, hname⟩ := append_inj' heq rfl
        cases hname
        exact .inr (by rw [he]; rfl)
      · exact .inl heq
    by_cases heq : l' ++ [n'] = l ++ [n]
    swap
    · exact .left (hfixed.changes.others _ (not_around_of_lasting hn' heq))
        (hfixed.changes.others _ (not_around_backup (hp n hn) (.inl heq)))
    obtain ⟨rfl, hname⟩ := append_inj' heq rfl
    cases hname
    generalize file cfg now p name vs b = x at hexchange hfixed hcopy ⊢
    cases hw : x.1.written with
    | false =>
      rw [hw] at hfixed hcopy
      exact .left (hfixed.unwritten rfl) hcopy
    | true =>
      rw [hw] at hexchange hcopy
      obtain ⟨e, -, hget, hbytes⟩ := ht.of_read hread
      rw [hways.file.place] at hget
      refine .written (by rw [bytesAt, hget, Option.bind_some, hbytes]) ?_
        (weight_encode_lt hn hsource hnew) hcopy
      generalize x.2 = b' at hexchange ⊢
      cases hexchange with
      | written _ hw => simp [bytesAt, hw.there, Entry.bytes?]

end Fix

end Steward
