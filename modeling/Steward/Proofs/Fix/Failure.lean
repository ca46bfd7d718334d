import Steward.Proofs.Fix.Frame

/-!
# Fixes that fail

A file that is fixed is replaced as a whole, after a copy of it was put beside it; when either fails,
the copy goes again. What can come of that is `Fix.Swapped`, for any path to a file, with links on
the way to it or not. If none of the names beside the file is a link, a fix that fails leaves
everything as it was, `Fix.file_failure_leaves`.
-/

namespace Steward

open Location FileTree

namespace Fix

/-- None of the names beside a file is a link: neither that of its copy nor those that the two are
written under first. -/
structure Bare (t : FileTree) (p : Path) : Prop where
  temp : t.NamesNoLink (Disk.tempSibling p)
  backup : t.NamesNoLink (backupPath p)
  backupTemp : t.NamesNoLink (Disk.tempSibling (backupPath p))

/-- A place under whose name the file or its copy is written first. -/
def Scratch (t : FileTree) (p : Path) (l : Location) : Prop :=
  t.Names (Disk.tempSibling p) l ∨ t.Names (Disk.tempSibling (backupPath p)) l

theorem endsInDots_backupPath (p : Path) : Disk.endsInDots (backupPath p) = false :=
  Disk.endsInDots_sibling p (by decide) (by decide)

theorem slash_backupPath (t : FileTree) (p : Path) (last : LastStep) :
    t.spot last (backupPath p) = t.look last (backupPath p) (names (backupPath p).text) := by
  obtain ⟨_, _, -, -, hsteps⟩ := exists_names_sibling p ".backup" (by decide) (by decide)
  rw [FileTree.spot, backupPath, hsteps]

variable {S : Location → Prop} {t t' : FileTree} {p : Path} {k l : Location} {n : String}

/-- A path to a file in the directory `k`, with no link beside it. -/
structure Sited (t : FileTree) (p : Path) (k : Location) (n : String) : Prop where
  hosts : t.Hosts p k n
  bare : Bare t p

namespace Sited

theorem of_changes (h : Sited t p k n) (h' : ChangesOnly S t t')
    (hS : ∀ q, S q → ∀ target, t.get? q ≠ some (.link target)) : Sited t' p k n where
  hosts := h.hosts.of_steers (h'.steers hS)
  bare := ⟨h.bare.temp.of_changes (Disk.endsInDots_tempSibling p) h',
    h.bare.backup.of_changes (endsInDots_backupPath p) h',
    h.bare.backupTemp.of_changes (Disk.endsInDots_tempSibling _) h'⟩

theorem isDir_parent_backupPath (h : Sited t p k n) :
    ∀ u ∈ (backupPath p).parent?, u.text.isEmpty ∨ t.isDir u := by
  rw [backupPath, h.hosts.parent?_sibling (by decide) (by decide)]
  exact h.hosts.isDir_parent

/-- The copy stands beside the file, and not where the file is written first. -/
theorem eq_of_backupPath (h : Sited t p k n) (hl : t.Names (backupPath p) l) :
    l = k ++ [n ++ ".backup"] ∧ ¬t.Names (Disk.tempSibling p) l := by
  obtain ⟨k', m, hk', rfl⟩ := hl.hosts (endsInDots_backupPath p)
  obtain ⟨rfl, rfl⟩ := h.hosts.eq_of_sibling (by decide) (by decide) hk'
  refine ⟨rfl, fun htemp ↦ ?_⟩
  obtain ⟨k'', m, hk'', heq⟩ := htemp.hosts (Disk.endsInDots_tempSibling p)
  obtain ⟨rfl, rfl⟩ := h.hosts.eq_of_sibling (by decide) (by decide) hk''
  exact not_isTemp_backup _ n ⟨_, n, heq⟩

/-- The file, if it is no link, is not where it or its copy is written first. -/
theorem not_scratch (h : Sited t p k n) (hslash : p.text.toList.getLast? ≠ some '/')
    (hp : t.NamesNoLink p) (hl : t.locate p = .ok l) : ¬Scratch t p l := by
  have hname : t.Names p (k ++ [n]) := h.hosts.names_iff.2 rfl
  have hspot : t.spot .followed p = .ok (t.standing (k ++ [n])) :=
    h.hosts.spot hslash fun target hget ↦ absurd hget (hp _ hname target)
  obtain rfl : l = k ++ [n] := by
    rw [locate, hspot, standing] at hl
    split_ifs at hl
    exact (Except.ok.inj hl).symm
  rintro (htemp | htemp)
  · exact Disk.ne_of_names hname h.hosts.endsInDots htemp rfl
  · obtain ⟨k', m, hk', heq⟩ := htemp.hosts (Disk.endsInDots_tempSibling _)
    rw [Disk.tempSibling, backupPath, h.hosts.sibling_sibling (by decide) (by decide)] at hk'
    obtain ⟨rfl, rfl⟩ := h.hosts.eq_of_sibling (by decide) (by decide) hk'
    exact ne_append_suffix _ n (by decide) heq

/-- The copy is found if its name can be looked up and there is something. -/
theorem contains_backupPath_iff (h : Sited t p k n) :
    t.contains (backupPath p) ↔ ∃ l, t.Names (backupPath p) l ∧ (t.get? l).isSome := by
  rw [contains, find, locate, slash_backupPath]
  constructor
  · intro hfound
    cases hlook : t.look .followed (backupPath p) (names (backupPath p).text) with
    | error x => simp [hlook, Except.toOption] at hfound
    | ok sp =>
      obtain ⟨ss, s, hnames, hs, -⟩ := exists_names_sibling p ".backup" (by decide) (by decide)
      have hlook' := hlook
      rw [backupPath, hnames] at hlook'
      obtain ⟨k', hk', hsp⟩ := Hosts.of_look hnames hs hlook'
      have hname := hk'.names_iff.2 rfl
      rw [hsp fun target hget ↦ absurd hget (h.bare.backup _ hname target), standing] at hlook
      refine ⟨k' ++ [s], hname, ?_⟩
      by_contra hnone
      simp [hlook, hnone, Except.toOption] at hfound
  · rintro ⟨l, hl, hsome⟩
    obtain ⟨k', m, hk', rfl⟩ := hl.hosts (endsInDots_backupPath p)
    obtain ⟨e, he⟩ := Option.isSome_iff_exists.1 hsome
    have hlook : t.look .followed (backupPath p) (names (backupPath p).text) =
        .ok (t.standing (k' ++ [m])) :=
      hk'.look fun target hget ↦ absurd hget (h.bare.backup _ hl target)
    simp [hlook, standing, he, Except.toOption]

end Sited

/-! ## What putting new bytes in place comes to -/

section Swapping

variable {now : Instant} {old bytes : List UInt8} {b b₁ b' : Bench} {made : Option Path}

/-- How it is made sure that there is a copy: it is known to be there, or found, or made. -/
inductive Copied (p : Path) (now : Instant) (old : List UInt8) (b : Bench) :
    Option Path → Bench → Prop where
  | known (h : b.isBackedUp p) : Copied p now old b none b
  | found (h : b.tree.contains (backupPath p)) :
    Copied p now old b none { b with backedUp := p :: b.backedUp }
  | made {m : Location} {tree : FileTree} (hfree : b.tree.get? m = none)
      (h : Disk.Placed now (backupPath p) old m b.tree tree) :
    Copied p now old b (some (backupPath p)) { b with tree, backedUp := p :: b.backedUp }

theorem ensureBackup_copied (hb : Sited b.tree p k n) (now : Instant) (old : List UInt8) :
    (∃ made b', b.ensureBackup now p old = (.ok made, b') ∧ Copied p now old b made b') ∨
      ∃ e tree, b.ensureBackup now p old = (.error e, { b with tree }) ∧
        ChangesOnly (b.tree.Names (Disk.tempSibling (backupPath p))) b.tree tree := by
  rw [Bench.ensureBackup]
  split_ifs with hknown hfound
  · exact .inl ⟨none, b, rfl, .known hknown⟩
  · exact .inl ⟨none, _, rfl, .found hfound⟩
  obtain ⟨tree, m, hexec, hplaced⟩ | ⟨e, tree, hexec, hchanges⟩ :=
    Disk.writeAtomic_cases hb.isDir_parent_backupPath hb.bare.backupTemp now old
  · rw [hexec]
    refine .inl ⟨_, _, rfl, .made (m := m) ?_ hplaced⟩
    by_contra hsome
    exact hfound (hb.contains_backupPath_iff.2 ⟨m, hplaced.names, Option.isSome_iff_ne_none.2 hsome⟩)
  · rw [hexec]
    exact .inr ⟨e, tree, rfl, hchanges⟩

/-- No link goes when the copy is made. -/
theorem Copied.exists_changes (hb : Sited b.tree p k n) (h : Copied p now old b made b₁) :
    ∃ S, ChangesOnly S b.tree b₁.tree ∧
      ∀ q, S q → ∀ target, b.tree.get? q ≠ some (.link target) := by
  cases h with
  | known | found => exact ⟨fun _ ↦ False, .refl _ _, by simp⟩
  | made hfree h =>
    refine ⟨_, h.changes, ?_⟩
    rintro q (rfl | hq)
    · exact hb.bare.backup _ h.names
    · exact hb.bare.backupTemp q hq

theorem Copied.sited (hb : Sited b.tree p k n) (h : Copied p now old b made b₁) :
    Sited b₁.tree p k n := by
  obtain ⟨S, hchanges, hS⟩ := h.exists_changes hb
  exact hb.of_changes hchanges hS

/-- Attempts to write a file come to its being put in place, or leave at most the sibling. -/
theorem write_swaps (hb : Sited b.tree p k n) (cfg : Config.Fixer) (now : Instant)
    (bytes : List UInt8) :
    (∃ tree₁ tree sleeps m, b.write cfg now p bytes = (.ok (), { b with tree, sleeps }) ∧
      ChangesOnly (b.tree.Names (Disk.tempSibling p)) b.tree tree₁ ∧
      Disk.Placed now p bytes m tree₁ tree) ∨
    ∃ e tree sleeps, b.write cfg now p bytes = (.error e, { b with tree, sleeps }) ∧
      ChangesOnly (b.tree.Names (Disk.tempSibling p)) b.tree tree := by
  -- An attempt that fails leaves at most the sibling, from where the next one starts.
  have hattempt (s : FileTree)
      (hs : ChangesOnly (b.tree.Names (Disk.tempSibling p)) b.tree s) :
      (∃ s', (Disk.writeAtomic now p bytes).exec s = (.ok (), s') ∧ ∃ tree₁ m,
        ChangesOnly (b.tree.Names (Disk.tempSibling p)) b.tree tree₁ ∧
          Disk.Placed now p bytes m tree₁ s') ∨
      ∃ e s', (Disk.writeAtomic now p bytes).exec s = (.error e, s') ∧
        ChangesOnly (b.tree.Names (Disk.tempSibling p)) b.tree s' := by
    have hsite := hb.of_changes hs hb.bare.temp
    obtain ⟨s', m, hexec, hplaced⟩ | ⟨e, s', hexec, hchanges⟩ :=
      Disk.writeAtomic_cases hsite.hosts.isDir_parent hsite.bare.temp now bytes
    · exact .inl ⟨s', hexec, s, m, hs, hplaced⟩
    · refine .inr ⟨e, s', hexec, hs.trans (hchanges.mono fun q hq _ ↦ ?_)⟩
      exact hq.of_steers (Disk.endsInDots_tempSibling p) hs.steers_before
  obtain ⟨hok, tree₁, m, hchanges, hplaced⟩ | ⟨⟨e, herror⟩, hrun⟩ :=
    retry_cases hattempt (cfg.maxAttempts - 1) cfg.backoffMs (.refl _ _)
  · exact .inl ⟨tree₁, _, _, m, by rw [Bench.write, hok], hchanges, hplaced⟩
  · exact .inr ⟨e, _, _, by rw [Bench.write, herror], hrun⟩

/-- What putting new bytes in place of a file comes to; whether it is written is said first. -/
inductive Swapped (p : Path) (now : Instant) (old bytes : List UInt8) (b : Bench) :
    Bool → Bench → Prop where
  /-- There is no copy, so nothing is written. -/
  | uncopied {tree : FileTree}
      (h : ChangesOnly (b.tree.Names (Disk.tempSibling (backupPath p))) b.tree tree) :
    Swapped p now old bytes b false { b with tree }
  | written {made : Option Path} {b₁ : Bench} {tree₁ tree : FileTree} {sleeps : List Nat}
      {m : Location} (h : Copied p now old b made b₁)
      (hw : ChangesOnly (b₁.tree.Names (Disk.tempSibling p)) b₁.tree tree₁)
      (hp : Disk.Placed now p bytes m tree₁ tree) :
    Swapped p now old bytes b true { b₁ with tree, sleeps }
  | failed {b₁ : Bench} {tree : FileTree} {sleeps : List Nat} (h : Copied p now old b none b₁)
      (hw : ChangesOnly (b₁.tree.Names (Disk.tempSibling p)) b₁.tree tree) :
    Swapped p now old bytes b false { b₁ with tree, sleeps }
  /-- The copy is taken away again. -/
  | undone {q : Path} {b₁ : Bench} {tree : FileTree} {sleeps : List Nat}
      (h : Copied p now old b (some q) b₁)
      (hw : ChangesOnly (b₁.tree.Names (Disk.tempSibling p)) b₁.tree tree) :
    Swapped p now old bytes b false (Bench.dropBackup { b₁ with tree, sleeps } p q)

theorem replace_swapped (hb : Sited b.tree p k n) (cfg : Config.Fixer) (now : Instant)
    (old : List UInt8) (new : List Char) (report : FileReport) (hreport : report.written = false) :
    Swapped p now old (Utf8.encode new) b (replace cfg now p old new report b).1.written
      (replace cfg now p old new report b).2 := by
  obtain ⟨made, b₁, hb₁, hcopied⟩ | ⟨e, tree, hb₁, hchanges⟩ := ensureBackup_copied hb now old
  swap
  · rw [replace, hb₁, written_withFailure, hreport]
    exact .uncopied hchanges
  simp only [replace, hb₁]
  obtain ⟨tree₁, tree, sleeps, m, hw, hchanges, hplaced⟩ | ⟨e, tree, sleeps, hw, hchanges⟩ :=
    write_swaps (hcopied.sited hb) cfg now (Utf8.encode new)
  · rw [hw]
    exact .written hcopied hchanges hplaced
  · rw [hw]
    simp only [written_withFailure, hreport]
    cases made with
    | none => exact .failed hcopied hchanges
    | some q => exact .undone hcopied hchanges

/-- Taking the copy away again leaves the tree as it was before it was made. -/
theorem dropBackup_changes (hb : Sited b.tree p k n) {m : Location} {tree₁ tree : FileTree}
    (hfree : b.tree.get? m = none) (h : Disk.Placed now (backupPath p) old m b.tree tree₁)
    (hw : ChangesOnly (tree₁.Names (Disk.tempSibling p)) tree₁ tree) :
    ChangesOnly (Scratch b.tree p) b.tree ((Disk.removeFile (backupPath p)).exec tree).2 := by
  have hcopied : Copied p now old b (some (backupPath p))
      { b with tree := tree₁, backedUp := p :: b.backedUp } := .made hfree h
  have hsite : Sited tree₁ p k n := hcopied.sited hb
  have hback (q : Location) (hq : tree₁.Names (Disk.tempSibling p) q) :
      b.tree.Names (Disk.tempSibling p) q :=
    hq.of_steers (Disk.endsInDots_tempSibling p) h.changes.steers_before
  -- The copy still stands where it was put, so that it can be removed.
  have hget : tree.get? m = some (.file old now) := by
    rw [hw.others m fun hm ↦ (hb.eq_of_backupPath h.names).2 (hback m hm), h.there]
  obtain ⟨S, hchanges, hS⟩ := hcopied.exists_changes hb
  obtain ⟨k', s, hk', rfl⟩ := h.names.hosts (endsInDots_backupPath p)
  have hspot : tree.spot .kept (backupPath p) = .ok (.entry (k' ++ [s])) := by
    have hhosts := (hk'.of_steers (hchanges.steers hS)).of_steers (hw.steers hsite.bare.temp)
    rw [slash_backupPath, hhosts.look fun _ _ ↦ rfl, standing, hget, Option.isSome_some, if_pos rfl]
  have hcleared : ((Disk.removeFile (backupPath p)).exec tree).2 = tree.erase (k' ++ [s]) := by
    have hrun := Disk.removeFile_cleared (backupPath p) tree
    generalize ((Disk.removeFile (backupPath p)).exec tree).2 = t' at hrun ⊢
    cases hrun with
    | kept hdir => simpa [DirAt, hget] using hdir _ hspot
    | gone hl =>
      cases hspot.symm.trans hl
      rfl
  rw [hcleared]
  have hall : ChangesOnly (fun q ↦ Scratch b.tree p q ∨ q = k' ++ [s]) b.tree
      (tree.erase (k' ++ [s])) := by
    refine (h.changes.mono ?_).trans ((hw.mono fun q hq _ ↦ .inl (.inl (hback q hq))).trans
      (.erase (by simp) (.inr rfl) (by simp [DirAt, hget])))
    rintro q (rfl | hq) -
    · exact .inr rfl
    · exact .inl (.inr hq)
  refine hall.mono fun q hq hne ↦ hq.resolve_right ?_
  rintro rfl
  exact hne (by rw [get?_erase _ (by simp), if_pos rfl, hfree])

/-- If the file is not written, at most the places change that it or its copy is first written to. -/
theorem Swapped.changes (hb : Sited b.tree p k n) (h : Swapped p now old bytes b false b') :
    ChangesOnly (Scratch b.tree p) b.tree b'.tree := by
  cases h with
  | uncopied h => exact h.mono fun q hq _ ↦ .inr hq
  | failed h hw =>
    cases h with
    | known | found => exact hw.mono fun q hq _ ↦ .inl hq
  | undone h hw =>
    cases h with
    | made hfree h => exact dropBackup_changes hb hfree h hw

/-- A file that was not written is as it was, unless it stands where it or its copy is written first. -/
theorem Swapped.read_of_unwritten (hb : Sited b.tree p k n)
    (h : Swapped p now old bytes b false b')
    (hplace : ∀ l, b.tree.locate p = .ok l → ¬Scratch b.tree p l) {content : List UInt8}
    (hread : b.tree.read p = .ok content) : b'.tree.read p = .ok content := by
  have hchanges := h.changes hb
  have hsteers : Steers b.tree b'.tree := by
    refine hchanges.steers ?_
    rintro q (hq | hq)
    · exact hb.bare.temp q hq
    · exact hb.bare.backupTemp q hq
  exact read_of_steers hsteers (fun l hl ↦ hchanges.others l (hplace l hl)) hread

/-- A file that was not written needs no copy any more only if that was so before or there is one. -/
theorem Swapped.remembered (hb : Sited b.tree p k n) (h : Swapped p now old bytes b false b')
    (hdone : b'.isBackedUp p) : b.isBackedUp p ∨ b'.tree.contains (backupPath p) := by
  cases h with
  | uncopied => exact .inl hdone
  | failed h hw =>
    cases h with
    | known h => exact .inl h
    | found h =>
      obtain ⟨l, hl, hsome⟩ := hb.contains_backupPath_iff.1 h
      have hsite := hb.of_changes hw hb.bare.temp
      refine .inr (hsite.contains_backupPath_iff.2 ⟨l, ?_, ?_⟩)
      · exact hl.of_steers (endsInDots_backupPath p) (hw.steers hb.bare.temp)
      · rwa [hw.others l (hb.eq_of_backupPath hl).2]
  | undone h hw =>
    simp [Bench.isBackedUp, Bench.dropBackup] at hdone

/-- A file that was written holds the new bytes, if it was no link. -/
theorem Swapped.read (hb : Sited b.tree p k n) (hp : b.tree.NamesNoLink p)
    (h : Swapped p now old bytes b true b') : b'.tree.read p = .ok bytes := by
  cases h with
  | written h hw hplaced =>
    obtain ⟨S, hchanges, -⟩ := h.exists_changes hb
    have hdots := hb.hosts.endsInDots
    refine hplaced.read ((hp.of_changes hdots hchanges).of_changes hdots hw) ?_
    exact (h.sited hb).bare.temp.of_changes (Disk.endsInDots_tempSibling p) hw

end Swapping

/-! ## What fixing a file comes to -/

theorem failure?_onLine (l : Language) (h : Hazard) (line : Text.Line) :
    (onLine l h line).1.failure? = none := by
  rw [onLine]
  split_ifs
  · rfl
  · rfl
  · rfl
  · cases line? l h line <;> rfl

theorem failure?_onLines (l : Language) (h : Hazard) (number : Nat) (lines : List Text.Line) :
    (onLines l h number lines).1.failure? = none := by
  cases number with
  | zero => rfl
  | succ i =>
    rw [onLines]
    split
    · rfl
    · exact failure?_onLine l h _

/-- Fixing a text never fails: only reading and writing can. -/
theorem failure?_of_mem_text {l : Language} {vs : List Violation} {source : List Char} {f : LineFix}
    (hf : f ∈ (text l vs source).1) : f.outcome.failure? = none := by
  suffices hfold : ∀ (vs : List Violation) (p : Pass), (∀ f ∈ p.fixes, f.outcome.failure? = none) →
      ∀ f ∈ (vs.foldl (Pass.step l) p).fixes, f.outcome.failure? = none by
    refine hfold (ordered vs) { lines := Text.lines source } (by simp) f ?_
    rw [text] at hf
    split_ifs at hf <;> exact hf
  intro vs
  induction vs with
  | nil => exact fun p hp ↦ hp
  | cons v vs ih =>
    refine fun p hp ↦ ih _ fun f hf ↦ ?_
    simp only [Pass.step] at hf
    rcases List.mem_append.1 hf with hf | hf
    · exact hp f hf
    · rw [List.mem_singleton.1 hf]
      exact failure?_onLines l v.hazard v.line p.lines

/-- The path to a file that can be read has a directory and a name. -/
theorem exists_sited {b : Bench} {p : Path} (ht : b.tree.Rooted) (hbare : Bare b.tree p)
    {bytes : List UInt8} (hread : b.tree.read p = .ok bytes) :
    ∃ k n, Sited b.tree p k n ∧ p.text.toList.getLast? ≠ some '/' := by
  rw [FileTree.read, find, locate] at hread
  split at hread
  · cases hread
  · rename_i e hfind
    split at hfind
    · cases hfind
    · rename_i l hlocate
      split at hlocate
      · cases hlocate
      · rename_i l' hspot
        cases hlocate
        have hdir : ¬b.tree.DirAt l := by
          intro hdir
          rw [DirAt] at hdir
          rw [hdir] at hfind
          cases hfind
          cases hread
        obtain ⟨k, n, hk, hslash⟩ := ht.hosts hspot hdir
        exact ⟨k, n, ⟨hk, hbare⟩, hslash⟩
      · cases hlocate

/-- A fix that fails leaves everything as it was: the file is not written, no copy of it is made, and
nothing counts as fixed. At most what stood where the file or its copy is first written is different.
The file needs no copy any more only if that was so before, or there is one. -/
theorem file_failure_leaves {b : Bench} {p : Path} (ht : b.tree.Rooted) (hbare : Bare b.tree p)
    (cfg : Config.Fixer) (now : Instant) (name : String) (vs : List Violation)
    (hfail : (file cfg now p name vs b).1.failure?.isSome) :
    let r := file cfg now p name vs b
    r.1.written = false ∧ r.1.backup = none ∧ (∀ f ∈ r.1.fixes, f.outcome.isFixed = false) ∧
      ChangesOnly (Scratch b.tree p) b.tree r.2.tree ∧
      ((∀ l, b.tree.locate p = .ok l → ¬Scratch b.tree p l) →
        r.2.tree.read p = b.tree.read p) ∧
      (r.2.isBackedUp p → b.isBackedUp p ∨ r.2.tree.contains (backupPath p)) := by
  intro r
  obtain ⟨-, hfixes, hwritten, hbackup, hsame⟩ | ⟨old, source, encoding, new, hread, -, -, hfile⟩ :=
    file_cases_of_text cfg now p name vs b
  · have hsame : r.2 = b := hsame
    rw [hsame]
    exact ⟨hwritten, hbackup, hfixes, .refl _ _, fun _ ↦ rfl, .inl⟩
  · have hunwritten : r.1.written = false ∧ r.1.backup = none := by
      simp only [r, hfile] at hfail ⊢
      obtain ⟨made, hreport⟩ | ⟨why, hreport⟩ := replace_cases cfg now p old new
        { file := name, fixes := (text (Language.ofPath p) vs source).1,
          encoding := some encoding } b
      · rw [hreport, FileReport.failure?, List.findSome?_eq_none_iff.2] at hfail
        · cases hfail
        · exact fun f ↦ failure?_of_mem_text
      · rw [hreport]
        exact ⟨rfl, rfl⟩
    obtain ⟨k, n, hsite, -⟩ := exists_sited ht hbare hread
    have hswapped : Swapped p now old (Utf8.encode new) b false r.2 := by
      have hswap := replace_swapped hsite cfg now old new
        { file := name, fixes := (text (Language.ofPath p) vs source).1,
          encoding := some encoding } rfl
      rw [← hfile] at hswap
      rwa [show (file cfg now p name vs b).1.written = false from hunwritten.1] at hswap
    refine ⟨hunwritten.1, hunwritten.2, (file_report cfg now p name vs b).2.2 hunwritten.1,
      hswapped.changes hsite, fun hplace ↦ ?_, hswapped.remembered hsite⟩
    rw [hread, hswapped.read_of_unwritten hsite hplace hread]

/-- The violation on the line `x = eval(a)`. -/
def evalFound : Violation where
  hazard := .dangerousEval
  file := "a.py"
  line := 1
  severity := .critical
  text := "x = eval(a)"
  fixable := true

def evalEntry : Location × Entry := (["a.py"], .file (Utf8.encode "x = eval(a)\n".toList) ⟨0, 0⟩)

/-- A file that cannot be written, as a directory stands under the name it is first written under. -/
def blockedBench : Bench where
  tree := { entries := [evalEntry, (["a.py.tmp"], .dir)] }

theorem file_failure_leaves_blocked :
    (file {} ⟨1, 0⟩ ⟨"a.py"⟩ "a.py" [evalFound] blockedBench).1.failure?.isSome ∧
      let r := file {} ⟨1, 0⟩ ⟨"a.py"⟩ "a.py" [evalFound] blockedBench
      r.1.written = false ∧ r.1.backup = none ∧
        ChangesOnly (Scratch blockedBench.tree ⟨"a.py"⟩) blockedBench.tree r.2.tree := by
  have hfail : (file {} ⟨1, 0⟩ ⟨"a.py"⟩ "a.py" [evalFound] blockedBench).1.failure?.isSome := by
    decide +kernel
  have hrooted : blockedBench.tree.Rooted := rooted_of_entries (by decide +kernel) (by decide +kernel)
  have hlink (q : Path) : blockedBench.tree.NamesNoLink q :=
    Disk.namesNoLink_of_linkless (by decide +kernel) q
  obtain ⟨hwritten, hbackup, -, hchanges, -⟩ := file_failure_leaves hrooted
    ⟨hlink _, hlink _, hlink _⟩ {} ⟨1, 0⟩ "a.py" [evalFound] hfail
  exact ⟨hfail, hwritten, hbackup, hchanges⟩

/-- The same after a copy was made, and then taken away by others. -/
def bereftBench : Bench := { blockedBench with backedUp := [⟨"a.py"⟩] }

/-- The same with a link to another file under the name that the copy is first written under. -/
def crossedBench : Bench where
  tree := { entries := [evalEntry, (["a.py.tmp"], .dir), (["other"], .file [0x6D] ⟨0, 0⟩),
    (["a.py.backup.tmp"], .link "other")] }

/-- Two things that a failure does not leave alone: a file whose copy is gone still counts as one that
needs none, and through a link another file is written. -/
theorem file_failure_disturbs :
    (let r := file {} ⟨1, 0⟩ ⟨"a.py"⟩ "a.py" [evalFound] bereftBench
     r.1.failure?.isSome ∧ r.2.isBackedUp ⟨"a.py"⟩ ∧
      r.2.tree.contains (backupPath ⟨"a.py"⟩) = false) ∧
    let r := file {} ⟨1, 0⟩ ⟨"a.py"⟩ "a.py" [evalFound] crossedBench
    r.1.failure?.isSome ∧ crossedBench.tree.read ⟨"other"⟩ = .ok [0x6D] ∧
      r.2.tree.read ⟨"other"⟩ = .ok (Utf8.encode "x = eval(a)\n".toList) := by
  decide +kernel

end Fix

end Steward
