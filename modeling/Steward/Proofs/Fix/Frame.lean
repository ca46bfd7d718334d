import Steward.Proofs.FileTree.Atomic

/-!
# What fixing a file may change

Fixing a file touches the file, the copy that is kept of it, and the two siblings that these are
written through. A copy that was there before stays as it was, and no other file goes away:
`Fix.file_fixed`.
-/

namespace Steward

open Location FileTree Std.Do List

namespace FileTree

variable {t : FileTree}

/-- A place that a file is first written to. -/
def IsTemp (q : Location) : Prop := ∃ l n, q = l ++ [n ++ ".tmp"]

/-- What is in `t` is in `t'` too, places for files under way aside. -/
def Keeps (t t' : FileTree) : Prop := ∀ q, (t.get? q).isSome → (t'.get? q).isSome ∨ IsTemp q

theorem Keeps.trans {t' t'' : FileTree} (h : Keeps t t') (h' : Keeps t' t'') : Keeps t t'' :=
  fun q hq ↦ (h q hq).elim (h' q) .inr

theorem ChangesOnly.keeps {S : Location → Prop} {t' : FileTree} (h : ChangesOnly S t t')
    (hS : ∀ q, S q → (t.get? q).isSome → (t'.get? q).isSome ∨ IsTemp q) : Keeps t t' := by
  intro q hq
  by_cases hs : S q
  · exact hS q hs hq
  · rw [h.others q hs]
    exact .inl hq

theorem keeps_insert {l : Location} (hl : l ≠ []) (e : Entry) : Keeps t (t.insert l e) := by
  intro q hq
  left
  rw [get?_insert t hl]
  split_ifs
  · rfl
  · exact hq

theorem not_isTemp_backup (l : Location) (n : String) : ¬IsTemp (l ++ [n ++ ".backup"]) := by
  rintro ⟨k, m, h⟩
  obtain ⟨-, h⟩ := append_inj' h rfl
  have hends := congrArg (fun s : String ↦ s.toList.reverse.take 2) (singleton_inj.1 h)
  simp [String.toList_append] at hends

/-- The directory of a file that can be found is there. -/
theorem isDir_of_find {l : Location} {n : String} (ht : t.Clear (l ++ [n])) (h : Proper (l ++ [n]))
    {e : Entry} (hfind : t.find (l ++ [n]).path = .ok e) : t.isDir l.path := by
  obtain ⟨hreal, hzero, hlong, -⟩ := (find_path_eq_ok_iff ht h).1 hfind
  have habove : l <+: l ++ [n] := prefix_append l [n]
  rw [isDir_path_iff (ht.of_isPrefix habove) (h.of_isPrefix habove)]
  refine ⟨hreal.of_isPrefix habove, fun hmem ↦ hzero ?_, isOverlong_of_isPrefix habove hlong, ?_⟩
  · exact (toList_path_isPrefix habove).subset hmem
  · generalize hk : l ++ [n] = k at hreal
    cases hreal with
    | top => simp at hk
    | down _ hdir =>
      rw [(append_inj_left' hk rfl : l = _)]
      exact hdir

end FileTree

namespace Disk

theorem Replaced.keeps {p : Path} {l : Location} {n : String} {e : Entry} {t t' : FileTree}
    (h : Replaced p (l ++ [n]) (l ++ [n ++ ".tmp"]) e t t') : Keeps t t' := by
  refine h.changes.keeps ?_
  rintro q (rfl | rfl) -
  · exact .inl (by simp [h.there])
  · exact .inr ⟨l, n, rfl⟩

end Disk

namespace Fix

/-- If every failed attempt keeps what the next one needs, so do they all; one that succeeds
decides. -/
theorem retry_cases {σ ε : Type} {attempt : σ → Except ε Unit × σ} {I Q : σ → Prop}
    (h : ∀ s, I s →
      (∃ s', attempt s = (.ok (), s') ∧ Q s') ∨ ∃ e s', attempt s = (.error e, s') ∧ I s')
    (more delay : Nat) {s : σ} (hs : I s) :
    (retry attempt more delay s).result = .ok () ∧ Q (retry attempt more delay s).state ∨
      (∃ e, (retry attempt more delay s).result = .error e) ∧
        I (retry attempt more delay s).state := by
  induction more generalizing delay s with
  | zero =>
    obtain ⟨s', hs', hq⟩ | ⟨e, s', hs', hi⟩ := h s hs
    · simp [retry, hs', hq]
    · simp [retry, hs', hi]
  | succ more ih =>
    obtain ⟨s', hs', hq⟩ | ⟨e, s', hs', hi⟩ := h s hs
    · simp [retry, hs', hq]
    · simpa [retry, hs'] using ih (min (2 * delay) maxDelay) hi

/-- The places that fixing the file `l ++ [n]` of `t` may change. The copy is made where there is
none only. -/
def Around (t : FileTree) (l : Location) (n : String) (q : Location) : Prop :=
  q = l ++ [n] ∨ q = l ++ [n ++ ".backup"] ∧ t.get? q = none ∨
    q = l ++ [n ++ ".tmp"] ∨ q = l ++ [n ++ ".backup" ++ ".tmp"]

/-- There is no link on the way to the file `l ++ [n]`, nor at the places around it. -/
structure Unlinked (t : FileTree) (l : Location) (n : String) : Prop where
  file : t.Clear (l ++ [n])
  temp : t.Clear (l ++ [n ++ ".tmp"])
  backup : t.Clear (l ++ [n ++ ".backup"])
  backupTemp : t.Clear (l ++ [n ++ ".backup" ++ ".tmp"])

/-- What fixing the file `l ++ [n]` does to a tree; `written` says whether the file itself was
written. -/
structure Fixed (l : Location) (n : String) (written : Bool) (t t' : FileTree) : Prop where
  changes : ChangesOnly (Around t l n) t t'
  keeps : Keeps t t'
  unwritten : written = false → t'.get? (l ++ [n]) = t.get? (l ++ [n])

variable {l : Location} {n : String}
variable {t t' : FileTree} {S : Location → Prop}

theorem unlinked_of_noLinks (h : t.NoLinks l) : Unlinked t l n :=
  ⟨h.clear (prefix_append _ _), h.clear (prefix_append _ _),
    h.clear (prefix_append _ _), h.clear (prefix_append _ _)⟩

theorem Unlinked.of_changes (h : Unlinked t l n) (h' : ChangesOnly S t t') : Unlinked t' l n :=
  ⟨h'.clear h.file, h'.clear h.temp, h'.clear h.backup, h'.clear h.backupTemp⟩

theorem Fixed.refl (t : FileTree) : Fixed l n false t t := ⟨.refl _ t, fun _ ↦ .inl, fun _ ↦ rfl⟩

/-- Whatever is done later around the same file may be counted in. -/
theorem Fixed.trans {w : Bool} {t'' : FileTree} (h : Fixed l n false t t')
    (hS : ∀ q, S q → Around t l n q) (h' : ChangesOnly S t' t'') (hk : Keeps t' t'')
    (hw : w = false → t''.get? (l ++ [n]) = t'.get? (l ++ [n])) : Fixed l n w t t'' :=
  ⟨h.changes.trans (h'.mono fun q hq _ ↦ hS q hq), h.keeps.trans hk,
    fun hfalse ↦ (hw hfalse).trans (h.unwritten rfl)⟩

theorem backupPath_path (h : Proper (l ++ [n])) :
    backupPath (l ++ [n]).path = (l ++ [n ++ ".backup"]).path :=
  sibling_path h (by decide) (by decide)

/-- A path leads to the file `l ++ [n]`, and its siblings to the places around that. -/
structure Ways (t : FileTree) (p : Path) (l : Location) (n : String) : Prop where
  file : t.Leads p (l ++ [n])
  temp : t.Leads (Disk.tempSibling p) (l ++ [n ++ ".tmp"])
  backup : t.Leads (backupPath p) (l ++ [n ++ ".backup"])
  backupTemp : t.Leads (Disk.tempSibling (backupPath p)) (l ++ [n ++ ".backup" ++ ".tmp"])
  parent : (backupPath p).parent? = p.parent?

theorem Ways.of_changes {p : Path} (h : Ways t p l n) (h' : ChangesOnly S t t') : Ways t' p l n :=
  ⟨h.file.of_changes h', h.temp.of_changes h', h.backup.of_changes h', h.backupTemp.of_changes h',
    h.parent⟩

theorem Unlinked.ways (h : Unlinked t l n) (hp : Proper (l ++ [n])) :
    Ways t (l ++ [n]).path l n := by
  have hb : Proper (l ++ [n ++ ".backup"]) := hp.append_suffix (by decide) (by decide)
  refine ⟨h.file.leads hp, ?_, ?_, ?_, ?_⟩
  · rw [Disk.tempSibling_path hp]
    exact h.temp.leads (hp.append_suffix (by decide) (by decide))
  · rw [backupPath_path hp]
    exact h.backup.leads hb
  · rw [backupPath_path hp, Disk.tempSibling_path hb]
    exact h.backupTemp.leads (hb.append_suffix (by decide) (by decide))
  · rw [backupPath_path hp, parent?_path hb, parent?_path hp]

theorem Unlinked.housed (h : Unlinked t l n) (hp : Proper (l ++ [n])) {bytes : List UInt8}
    (hread : t.read (l ++ [n]).path = .ok bytes) : Disk.Housed t (l ++ [n]).path := by
  intro u hu
  rw [parent?_path hp, Option.mem_some] at hu
  subst hu
  cases hfind : t.find (l ++ [n]).path with
  | error e => simp [FileTree.read, hfind] at hread
  | ok e =>
    have habove : l <+: l ++ [n] := prefix_append l [n]
    exact .inr ⟨l, (h.file.of_isPrefix habove).leads (hp.of_isPrefix habove),
      isDir_of_find h.file hp hfind⟩

/-! ## What a file goes through -/

/-- A text stays as it is only if nothing was fixed. -/
theorem isFixed_of_text_eq_none {l : Language} {vs : List Violation} {source : List Char}
    (h : (text l vs source).2 = none) {f : LineFix} (hf : f ∈ (text l vs source).1) :
    f.outcome.isFixed = false := by
  rw [text] at h hf
  split_ifs at h hf with hany
  exact Bool.eq_false_iff.2 fun hfixed ↦ hany (any_eq_true.2 ⟨f, hf, hfixed⟩)

/-- Nothing is done to a file that cannot be read or decoded, or whose text has nothing to fix. -/
theorem file_cases_of_text (cfg : Config.Fixer) (now : Instant) (p : Path) (name : String)
    (vs : List Violation) (b : Bench) :
    ((file cfg now p name vs b).1.file = name ∧
      (∀ f ∈ (file cfg now p name vs b).1.fixes, f.outcome.isFixed = false) ∧
      (file cfg now p name vs b).1.written = false ∧ (file cfg now p name vs b).1.backup = none ∧
      (file cfg now p name vs b).2 = b) ∨
    ∃ old source encoding new, b.tree.read p = .ok old ∧
      Encoding.detect old = some (source, encoding) ∧
      (text (Language.ofPath p) vs source).2 = some new ∧
      file cfg now p name vs b = replace cfg now p old new
        { file := name, fixes := (text (Language.ofPath p) vs source).1,
          encoding := some encoding } b := by
  have hall (o : Outcome) (ho : o.isFixed = false) (f : LineFix)
      (hf : f ∈ (ordered vs).map fun v => ⟨v.hazard, v.line, o⟩) : f.outcome.isFixed = false := by
    obtain ⟨v, -, rfl⟩ := mem_map.1 hf
    exact ho
  rw [file]
  cases hread : b.tree.read p with
  | error e => exact .inl ⟨rfl, hall _ rfl, rfl, rfl, rfl⟩
  | ok old =>
    dsimp only
    cases hsource : Encoding.detect old with
    | none => exact .inl ⟨rfl, hall _ rfl, rfl, rfl, rfl⟩
    | some x =>
      obtain ⟨source, encoding⟩ := x
      dsimp only
      cases hnew : (text (Language.ofPath p) vs source).2 with
      | none => exact .inl ⟨rfl, fun f ↦ isFixed_of_text_eq_none hnew, rfl, rfl, rfl⟩
      | some new => exact .inr ⟨old, source, encoding, new, rfl, hsource, hnew, rfl⟩

section Replacing

variable {p : Path} {now : Instant} {old bytes : List UInt8} {b b₁ : Bench} {made : Option Path}

/-- How it is made sure that there is a copy: it is known to be there, or found, or made. -/
inductive Ensured (p : Path) (l : Location) (n : String) (now : Instant) (old : List UInt8)
    (b : Bench) : Option Path → Bench → Prop where
  | known (h : b.isBackedUp p) : Ensured p l n now old b none b
  | found (h : b.tree.contains (backupPath p)) :
    Ensured p l n now old b none { b with backedUp := p :: b.backedUp }
  | made {tree : FileTree} (hfree : b.tree.get? (l ++ [n ++ ".backup"]) = none)
      (h : Disk.Replaced (backupPath p) (l ++ [n ++ ".backup"]) (l ++ [n ++ ".backup" ++ ".tmp"])
        (.file old now) b.tree tree) :
    Ensured p l n now old b (some (backupPath p)) { b with tree, backedUp := p :: b.backedUp }

/-- A copy is made only where there is none. -/
theorem Bench.ensureBackup_cases (hb : Ways b.tree p l n) (hdir : Disk.Housed b.tree p)
    (now : Instant) (old : List UInt8) :
    (∃ made b', b.ensureBackup now p old = (.ok made, b') ∧ Ensured p l n now old b made b') ∨
      ∃ e tree, b.ensureBackup now p old = (.error e, { b with tree }) ∧
        ChangesOnly (· = l ++ [n ++ ".backup" ++ ".tmp"]) b.tree tree := by
  rw [ensureBackup]
  split_ifs with hdone hthere
  · exact .inl ⟨none, b, rfl, .known hdone⟩
  · exact .inl ⟨none, _, rfl, .found hthere⟩
  have hdir' : Disk.Housed b.tree (backupPath p) := by
    rw [Disk.Housed, hb.parent]
    exact hdir
  obtain ⟨t', hexec, hnew⟩ | ⟨e, t', hexec, hnew⟩ :=
    Disk.writeAtomic_replaces hb.backup hb.backupTemp hdir' now old (.refl _ _)
  · rw [hexec]
    exact .inl ⟨_, _, rfl, .made (hnew.before.resolve_right hthere) hnew⟩
  · rw [hexec]
    exact .inr ⟨e, t', rfl, hnew⟩

/-- Attempts to write a file come to its being replaced, or leave at most the sibling. -/
theorem Bench.write_cases (hb : Ways b.tree p l n) (hdir : Disk.Housed b.tree p)
    (cfg : Config.Fixer) (now : Instant) (bytes : List UInt8) :
    (∃ tree sleeps, b.write cfg now p bytes = (.ok (), { b with tree, sleeps }) ∧
      Disk.Replaced p (l ++ [n]) (l ++ [n ++ ".tmp"]) (.file bytes now) b.tree tree) ∨
    ∃ e tree sleeps, b.write cfg now p bytes = (.error e, { b with tree, sleeps }) ∧
      ChangesOnly (· = l ++ [n ++ ".tmp"]) b.tree tree := by
  -- An attempt that fails leaves at most the sibling, from where the next one starts.
  obtain ⟨hok, hrun⟩ | ⟨⟨e, herror⟩, hrun⟩ :=
    retry_cases (fun s ↦ Disk.writeAtomic_replaces hb.file hb.temp hdir now bytes)
      (cfg.maxAttempts - 1) cfg.backoffMs (.refl _ b.tree)
  · exact .inl ⟨_, _, by rw [write, hok], hrun⟩
  · exact .inr ⟨e, _, _, by rw [write, herror], hrun⟩

/-- What putting new bytes in place of a file comes to; whether it is written is said first. -/
inductive Exchange (p : Path) (l : Location) (n : String) (now : Instant) (old bytes : List UInt8)
    (b : Bench) : Bool → Bench → Prop where
  /-- There is no copy, so nothing is written. -/
  | uncopied {tree : FileTree}
      (h : ChangesOnly (· = l ++ [n ++ ".backup" ++ ".tmp"]) b.tree tree) :
    Exchange p l n now old bytes b false { b with tree }
  | written {made : Option Path} {b₁ : Bench} {tree : FileTree} {sleeps : List Nat}
      (h : Ensured p l n now old b made b₁)
      (hw : Disk.Replaced p (l ++ [n]) (l ++ [n ++ ".tmp"]) (.file bytes now) b₁.tree tree) :
    Exchange p l n now old bytes b true { b₁ with tree, sleeps }
  | failed {b₁ : Bench} {tree : FileTree} {sleeps : List Nat}
      (h : Ensured p l n now old b none b₁)
      (hw : ChangesOnly (· = l ++ [n ++ ".tmp"]) b₁.tree tree) :
    Exchange p l n now old bytes b false { b₁ with tree, sleeps }
  /-- The copy is taken away again. -/
  | undone {q : Path} {b₁ : Bench} {tree : FileTree} {sleeps : List Nat}
      (h : Ensured p l n now old b (some q) b₁)
      (hw : ChangesOnly (· = l ++ [n ++ ".tmp"]) b₁.tree tree) :
    Exchange p l n now old bytes b false (Bench.dropBackup { b₁ with tree, sleeps } p q)

theorem Ensured.fixed (h : Ensured p l n now old b made b₁) : Fixed l n false b.tree b₁.tree := by
  cases h with
  | known | found => exact .refl _
  | made hfree h =>
    refine ⟨h.changes.mono ?_, h.keeps, fun _ ↦ ?_⟩
    · rintro q (rfl | rfl) -
      · exact .inr (.inl ⟨rfl, hfree⟩)
      · exact .inr (.inr (.inr rfl))
    · refine h.changes.others _ (not_or.2 ⟨ne_append_suffix l n (by decide), ?_⟩)
      rw [String.append_assoc]
      exact ne_append_suffix l n (by decide)

theorem Ensured.eq_backupPath {q : Path} (h : Ensured p l n now old b (some q) b₁) :
    q = backupPath p ∧ b.tree.get? (l ++ [n ++ ".backup"]) = none := by
  cases h with
  | made hfree => exact ⟨rfl, hfree⟩

theorem written_withFailure (report : FileReport) (why : FixFailure) :
    (report.withFailure why).written = report.written := rfl

theorem replace_exchange (hb : Ways b.tree p l n) (hdir : Disk.Housed b.tree p)
    (cfg : Config.Fixer) (now : Instant) (old : List UInt8) (new : List Char) {report : FileReport}
    (hreport : report.written = false) :
    Exchange p l n now old (Utf8.encode new) b (replace cfg now p old new report b).1.written
      (replace cfg now p old new report b).2 := by
  obtain ⟨made, b₁, hb₁, hcopy⟩ | ⟨e, tree, hb₁, hchanges⟩ :=
    Bench.ensureBackup_cases hb hdir now old
  swap
  · rw [replace, hb₁, written_withFailure, hreport]
    exact .uncopied hchanges
  have hsofar := hcopy.fixed.changes
  simp only [replace, hb₁]
  obtain ⟨tree, sleeps, hw, hwritten⟩ | ⟨e, tree, sleeps, hw, hchanges⟩ :=
    Bench.write_cases (hb.of_changes hsofar) (hdir.of_changes hsofar) cfg now (Utf8.encode new)
  · rw [hw]
    exact .written hcopy hwritten
  · rw [hw]
    simp only [written_withFailure, hreport]
    cases made with
    | none => exact .failed hcopy hchanges
    | some q => exact .undone hcopy hchanges

theorem Bench.dropBackup_changes {q : Path} {k : Location} (hb : b.tree.Leads q k) (p : Path) :
    ChangesOnly (· = k) b.tree (b.dropBackup p q).tree := by
  have hcleared := Disk.removeFile_cleared q b.tree
  rw [dropBackup]
  generalize ((Disk.removeFile q).exec b.tree).2 = t' at hcleared ⊢
  cases hcleared with
  | kept => exact .refl _ _
  | gone hl hdir =>
    obtain rfl := Spot.entry.inj ((hb.spot hl).resolve_right (by simp))
    refine .erase ?_ rfl hdir
    rintro rfl
    exact hdir (get?_nil b.tree)

theorem keeps_of_temp {t t' : FileTree} (h : ChangesOnly (· = l ++ [n ++ ".tmp"]) t t') :
    Keeps t t' := by
  refine h.keeps ?_
  rintro q rfl -
  exact .inr ⟨l, n, rfl⟩

theorem Exchange.fixed {b' : Bench} {w : Bool} (hb : Ways b.tree p l n)
    (h : Exchange p l n now old bytes b w b') : Fixed l n w b.tree b'.tree := by
  have htemp (t : FileTree) (q : Location) (hq : q = l ++ [n ++ ".tmp"]) : Around t l n q :=
    .inr (.inr (.inl hq))
  cases h with
  | uncopied h =>
    refine ⟨h.mono ?_, keeps_of_temp h, fun _ ↦ h.others _ ?_⟩
    · rintro q rfl -
      exact .inr (.inr (.inr rfl))
    · rw [String.append_assoc]
      exact ne_append_suffix l n (by decide)
  | written h hw =>
    exact h.fixed.trans (fun q hq ↦ hq.imp_right fun hq ↦ .inr (.inl hq)) hw.changes hw.keeps
      (by simp)
  | failed h hw =>
    exact h.fixed.trans (htemp _) hw (keeps_of_temp hw) fun _ ↦
      hw.others _ (ne_append_suffix l n (by decide))
  | @undone q b₁ tree sleeps h hw =>
    have hfailed : Fixed l n false b.tree tree := h.fixed.trans (htemp _) hw (keeps_of_temp hw)
      fun _ ↦ hw.others _ (ne_append_suffix l n (by decide))
    -- The copy goes away again, as there was none before.
    obtain ⟨rfl, hfree⟩ := h.eq_backupPath
    have hdrop := Bench.dropBackup_changes (b := { b₁ with tree, sleeps })
      (hb.of_changes hfailed.changes).backup p
    refine ⟨hfailed.changes.trans (hdrop.mono ?_), fun q hq ↦ ?_, fun _ ↦ ?_⟩
    · rintro q rfl -
      exact .inr (.inl ⟨rfl, hfree⟩)
    · rw [hdrop.others q]
      · exact hfailed.keeps q hq
      · rintro rfl
        simp [hfree] at hq
    · rw [hdrop.others _ (ne_append_suffix l n (by decide))]
      exact hfailed.unwritten rfl

/-- Fixing a file comes to nothing, or to putting in its place what becomes of its text. -/
theorem file_cases (hb : Ways b.tree p l n)
    (hdir : ∀ bytes, b.tree.read p = .ok bytes → Disk.Housed b.tree p) (cfg : Config.Fixer)
    (now : Instant) (name : String) (vs : List Violation) :
    (file cfg now p name vs b).1.written = false ∧ (file cfg now p name vs b).2 = b ∨
      ∃ old source encoding new, b.tree.read p = .ok old ∧
        Encoding.detect old = some (source, encoding) ∧
        (text (Language.ofPath p) vs source).2 = some new ∧
        Exchange p l n now old (Utf8.encode new) b (file cfg now p name vs b).1.written
          (file cfg now p name vs b).2 := by
  obtain ⟨-, -, hwritten, -, hsame⟩ | ⟨old, source, encoding, new, hread, hsource, hnew, hfile⟩ :=
    file_cases_of_text cfg now p name vs b
  · exact .inl ⟨hwritten, hsame⟩
  · rw [hfile]
    exact .inr ⟨old, source, encoding, new, hread, hsource, hnew,
      replace_exchange hb (hdir old hread) cfg now old new rfl⟩

end Replacing

/-- What fixing a file does to the tree, whatever comes of it. -/
theorem file_fixed {b : Bench} (hb : Unlinked b.tree l n) (h : Proper (l ++ [n]))
    (cfg : Config.Fixer) (now : Instant) (name : String) (vs : List Violation) :
    Fixed l n (file cfg now (l ++ [n]).path name vs b).1.written b.tree
      (file cfg now (l ++ [n]).path name vs b).2.tree := by
  obtain ⟨hw, heq⟩ | ⟨_, _, _, _, -, -, -, hexchange⟩ :=
    file_cases (hb.ways h) (fun _ ↦ hb.housed h) cfg now name vs
  · rw [hw, heq]
    exact .refl _
  · exact hexchange.fixed (hb.ways h)

/-- A file is written with the text that fixing its own makes of it. -/
theorem exists_text_of_written {b : Bench} (hb : Unlinked b.tree l n) (h : Proper (l ++ [n]))
    {cfg : Config.Fixer} {now : Instant} {name : String} {vs : List Violation}
    (hwritten : (file cfg now (l ++ [n]).path name vs b).1.written) :
    ∃ bytes source encoding new, b.tree.read (l ++ [n]).path = .ok bytes ∧
      Encoding.detect bytes = some (source, encoding) ∧
      (text (Language.ofPath (l ++ [n]).path) vs source).2 = some new ∧
      (file cfg now (l ++ [n]).path name vs b).2.tree.get? (l ++ [n]) =
        some (.file (Utf8.encode new) now) := by
  obtain ⟨hw, -⟩ | ⟨bytes, source, encoding, new, hread, hsource, hnew, hexchange⟩ :=
    file_cases (hb.ways h) (fun _ ↦ hb.housed h) cfg now name vs
  · rw [hwritten] at hw
    cases hw
  · rw [hwritten] at hexchange
    refine ⟨bytes, source, encoding, new, hread, hsource, hnew, ?_⟩
    generalize (file cfg now (l ++ [n]).path name vs b).2 = b' at hexchange ⊢
    cases hexchange with
    | written _ hw => exact hw.there

/-! ## What is said of it -/

theorem replace_cases (cfg : Config.Fixer) (now : Instant) (p : Path) (old : List UInt8)
    (new : List Char) (report : FileReport) (b : Bench) :
    (∃ made, (replace cfg now p old new report b).1 =
        { report with written := true, backup := made }) ∨
      ∃ why, (replace cfg now p old new report b).1 = report.withFailure why := by
  rw [replace]
  split
  · exact .inr ⟨_, rfl⟩
  · split
    · exact .inl ⟨_, rfl⟩
    · exact .inr ⟨_, rfl⟩

theorem isFixed_withFailure {report : FileReport} {why : FixFailure} {f : LineFix}
    (h : f ∈ (report.withFailure why).fixes) : f.outcome.isFixed = false := by
  obtain ⟨g, -, rfl⟩ := mem_map.1 h
  split_ifs with hg
  · rfl
  · exact Bool.eq_false_iff.2 hg

/-- What fixing a file says: it is about that file, which was not written if nothing was to be fixed,
and a file that was not written has nothing fixed. -/
theorem file_report (cfg : Config.Fixer) (now : Instant) (p : Path) (name : String)
    (vs : List Violation) (b : Bench) :
    (file cfg now p name vs b).1.file = name ∧
      ((file cfg now p name vs b).1.written → vs ≠ []) ∧
      ((file cfg now p name vs b).1.written = false →
        ∀ f ∈ (file cfg now p name vs b).1.fixes, f.outcome.isFixed = false) := by
  obtain ⟨hname, hfixes, hwritten, -, -⟩ | ⟨old, source, encoding, new, -, -, hnew, hfile⟩ :=
    file_cases_of_text cfg now p name vs b
  · exact ⟨hname, by simp [hwritten], fun _ ↦ hfixes⟩
  · have hne : vs ≠ [] := by
      rintro rfl
      simp [text, ordered] at hnew
    rw [hfile]
    obtain ⟨made, heq⟩ | ⟨why, heq⟩ := replace_cases cfg now p old new
      { file := name, fixes := (text (Language.ofPath p) vs source).1, encoding := some encoding } b
    · rw [heq]
      exact ⟨rfl, fun _ ↦ hne, by simp⟩
    · rw [heq]
      exact ⟨rfl, fun _ ↦ hne, fun _ f ↦ isFixed_withFailure⟩

end Fix

end Steward
