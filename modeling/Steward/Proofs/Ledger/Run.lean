import Steward.Proofs.FileTree
import Steward.Proofs.Ledger.Chain
import Steward.Proofs.Utf8

/-!
# Ledgers over whole runs

A ledger that nothing else writes to is added to, dropped and opened again, any number of times. The
chain stays valid throughout and keeps all that was in it, `Ledger.chain_over_run`. What is carried
from step to step is `Log.Open`: the path can be written to, its directories are there, and the tail
is that of the text in the file.
-/

namespace Steward.Ledger

open FileTree

/-! ## The file of a ledger -/

/-- A path can be written to if it leads to a file or to a free place. -/
def Writable (t : FileTree) (p : Path) : Prop :=
  ∃ l, t.spot .written p = .ok (.vacant l) ∨
    t.spot .written p = .ok (.entry l) ∧ ∃ e, t.get? l = some e ∧ e.isFile

section File

variable {t : FileTree} {p : Path} {l : Location}

theorem find_of_entry {e : Steward.Entry} (h : t.spot .followed p = .ok (.entry l))
    (he : t.get? l = some e) : t.find p = .ok e := by
  rw [find, locate, h]
  simp only [he]

theorem readText_of_vacant (h : t.spot .followed p = .ok (.vacant l)) : readText t p = .ok [] := by
  rw [readText, FileTree.readText, FileTree.read, find, locate, h]

theorem readText_of_file {bytes : List UInt8} {at_ : Instant}
    (h : t.spot .followed p = .ok (.entry l)) (he : t.get? l = some (.file bytes at_)) :
    readText t p = match Utf8.decode bytes with
      | some cs => .ok cs
      | none => .error .invalidUtf8 := by
  rw [readText, FileTree.readText, FileTree.read, find_of_entry h he]
  simp only [Entry.bytes?]
  cases Utf8.decode bytes <;> rfl

theorem readText_of_database {store : Nat} {at_ : Instant}
    (h : t.spot .followed p = .ok (.entry l)) (he : t.get? l = some (.database store at_)) :
    readText t p = .error .invalidUtf8 := by
  have hbytes : Utf8.decode Entry.databaseBytes = none := by decide
  rw [readText, FileTree.readText, FileTree.read, find_of_entry h he]
  simp only [Entry.bytes?, hbytes]

theorem append_of_vacant (now : Instant) (bytes : List UInt8)
    (h : t.spot .written p = .ok (.vacant l)) :
    Disk.append now p bytes t = .ok () (t.insert l (.file bytes now)) := by
  simp only [Disk.append, Disk.update, bind, EStateM.bind, Disk.ask_apply, h]
  rfl

theorem append_of_file (now : Instant) (bytes : List UInt8) {e : Steward.Entry}
    (h : t.spot .written p = .ok (.entry l)) (he : t.get? l = some e) (hfile : e.isFile) :
    Disk.append now p bytes t = .ok () (t.insert l (e.appended now bytes)) := by
  simp only [Disk.append, Disk.update, bind, EStateM.bind, Disk.ask_apply, h, get, getThe,
    MonadStateOf.get, EStateM.get, he, hfile, if_true]
  rfl

/-- What is added to a file is read behind what was there, and if it is no text, nothing is read. -/
theorem exists_append_bytes {text : List Char} (hw : Writable t p) (hread : readText t p = .ok text)
    (now : Instant) (added : List UInt8) :
    ∃ t' l, Disk.append now p added t = .ok () t' ∧ Filled t t' l ∧ Writable t' p ∧
      (∀ cs, Utf8.decode added = some cs → readText t' p = .ok (text ++ cs)) ∧
      (Utf8.decode added = none → readText t' p = .error .invalidUtf8) := by
  -- In both cases a file with some bytes takes the place, and only these differ.
  have hput {l : Location} {bytes : List UInt8} (hne : l ≠ []) (hbefore : ∀ e ∈ t.get? l, e.isFile)
      (hspot : t.spot .written p = .ok (.vacant l) ∨ t.spot .written p = .ok (.entry l))
      (hbytes : Utf8.decode bytes = (Utf8.decode added).map (text ++ ·)) :
      Filled t (t.insert l (.file bytes now)) l ∧ Writable (t.insert l (.file bytes now)) p ∧
        (∀ cs, Utf8.decode added = some cs →
          readText (t.insert l (.file bytes now)) p = .ok (text ++ cs)) ∧
        (Utf8.decode added = none →
          readText (t.insert l (.file bytes now)) p = .error .invalidUtf8) := by
    have hfilled : Filled t (t.insert l (.file bytes now)) l :=
      filled_insert hne hbefore (by simp)
    have hget : (t.insert l (.file bytes now)).get? l = some (.file bytes now) := by
      rw [get?_insert t hne, if_pos rfl]
    have hspot' : (t.insert l (.file bytes now)).spot .written p = .ok (.entry l) := by
      rcases hspot with hspot | hspot
      · simpa [Spot.filled] using hfilled.spot hspot
      · exact hfilled.spot hspot
    have htext := readText_of_file (spot_followed_of_written hspot') hget
    refine ⟨hfilled, ⟨l, .inr ⟨hspot', _, hget, rfl⟩⟩, fun cs hcs ↦ ?_, fun hnone ↦ ?_⟩
    · rw [htext, hbytes, hcs, Option.map_some]
    · rw [htext, hbytes, hnone, Option.map_none]
  obtain ⟨l, hl | ⟨hl, e, he, hfile⟩⟩ := hw
  · obtain ⟨hne, hfree⟩ := look_vacant_inv hl
    obtain rfl : text = [] := by
      rw [readText_of_vacant (spot_followed_of_written hl)] at hread
      exact (Except.ok.inj hread).symm
    exact ⟨_, l, append_of_vacant now _ hl, hput hne (by simp [hfree]) (.inl hl) (by simp)⟩
  · have hne : l ≠ [] := by
      rintro rfl
      cases he
      cases hfile
    refine ⟨_, l, append_of_file now _ hl he hfile, ?_⟩
    cases e with
    | dir | link => cases hfile
    | file bytes at_ =>
      rw [readText_of_file (spot_followed_of_written hl) he] at hread
      have hdecode : Utf8.decode bytes = some text := by
        cases h : Utf8.decode bytes with
        | none => simp [h] at hread
        | some cs => simpa [h] using hread
      exact hput hne (by simp [he, Entry.isFile]) (.inr hl) (Utf8.decode_append hdecode added)
    | database store at_ =>
      rw [readText_of_database (spot_followed_of_written hl) he] at hread
      cases hread

theorem exists_append_text {text : List Char} (hw : Writable t p) (hread : readText t p = .ok text)
    (now : Instant) (cs : List Char) :
    ∃ t' l, Disk.append now p (Utf8.encode cs) t = .ok () t' ∧ Filled t t' l ∧ Writable t' p ∧
      readText t' p = .ok (text ++ cs) := by
  obtain ⟨t', l, happend, hfilled, hwritable, htext, -⟩ :=
    exists_append_bytes hw hread now (Utf8.encode cs)
  exact ⟨t', l, happend, hfilled, hwritable, htext cs (Utf8.decode_encode cs)⟩

end File

/-! ## Steps -/

/-- What is done with an open ledger. -/
inductive Step where
  /-- An entry is added at a time. -/
  | append (now : Instant) (e : Entry)
  /-- The ledger is dropped and opened again. -/
  | reopen

namespace Step

/-- The entry that a step adds. -/
def entry? : Step → Option Entry
  | append _ e => some e
  | reopen => none

end Step

namespace Log

/-- Takes a step, and gives the record if one is added, and the ledger after it. -/
def step (digest : Digest) (log : Log) : Step → Disk (Option Record × Log)
  | .append now e => do
    let (r, log) ← log.append digest now e
    return (some r, log)
  | .reopen => do
    let log ← openAt log.path
    return (none, log)

/-- Takes steps one after the other, and gives the records that are added. -/
def steps (digest : Digest) : List Step → Log → Disk (List Record × Log)
  | [], log => pure ([], log)
  | s :: ss, log => do
    let (r, log) ← log.step digest s
    let (rs, log) ← steps digest ss log
    return (r.toList ++ rs, log)

/-- An open ledger whose file holds a text. -/
structure Open (log : Log) (t : FileTree) (text : List Char) : Prop where
  writable : Writable t log.path
  read : readText t log.path = .ok text
  parents : ∀ q ∈ log.path.parent?, q.text.isEmpty ∨ t.isDir q
  tail : log.tail.Follows text

theorem openAt_apply (p : Path) (t : FileTree) :
    openAt p t = match Disk.makeParents p t with
      | .error e t' => .error e t'
      | .ok () t' => match readText t' p with
        | .ok text => .ok ⟨p, .ofText text⟩ t'
        | .error e => .error e t' := by
  simp only [openAt, bind, EStateM.bind, Disk.ask_apply]
  rcases Disk.makeParents p t with ⟨-, t'⟩ | ⟨e, t'⟩
  · cases h : readText t' p <;> simp [h, pure, EStateM.pure]
  · rfl

/-- What is known of a ledger that has just been opened. -/
theorem openAt_eq_ok {p : Path} {t t' : FileTree} {log : Log} (h : openAt p t = .ok log t') :
    (∀ q ∈ p.parent?, q.text.isEmpty ∨ t'.isDir q) ∧
      ∃ text, readText t' p = .ok text ∧ log = ⟨p, .ofText text⟩ := by
  rw [openAt_apply] at h
  cases hp : Disk.makeParents p t with
  | error e t₁ =>
    rw [hp] at h
    cases h
  | ok u t₁ =>
    rw [hp] at h
    cases hread : readText t₁ p with
    | error e =>
      simp only [hread] at h
      cases h
    | ok text =>
      simp only [hread] at h
      cases h
      refine ⟨fun q hq ↦ Disk.isDir_of_makeDirs (t := t) ?_, text, hread, rfl⟩
      rwa [Disk.makeParents, hq] at hp

/-- Where a ledger could be opened once, it can be opened again. -/
theorem openAt_of_parents {p : Path} {t : FileTree} {text : List Char}
    (hp : ∀ q ∈ p.parent?, q.text.isEmpty ∨ t.isDir q) (hread : readText t p = .ok text) :
    openAt p t = .ok ⟨p, .ofText text⟩ t := by
  simp only [openAt_apply, Disk.makeParents_of_isDir hp, hread]

section Steps

variable {digest : Digest} {log : Log} {t : FileTree} {text : List Char}

/-- What one step keeps: it succeeds, what was read before is still read, and it adds the record
that it gives and nothing else. -/
theorem Open.step (h : log.Open t text) (hchain : Chained digest genesisHash (records text))
    (s : Step) (hs : ∀ e ∈ s.entry?, e.Fits) :
    ∃ r log' t' text', log.step digest s t = .ok (r, log') t' ∧ log'.path = log.path ∧
      log'.Open t' text' ∧ text <+: text' ∧ Chained digest genesisHash (records text') ∧
      records text' = records text ++ r.toList ∧ torn text' = torn text ∧
      r.map (·.entry) = s.entry? := by
  cases s with
  | reopen =>
    have hopen := openAt_of_parents h.parents h.read
    refine ⟨none, ⟨log.path, .ofText text⟩, t, text, ?_, rfl,
      ⟨h.writable, h.read, h.parents, Tail.follows_ofText text⟩, List.prefix_refl _, hchain, ?_,
      rfl, rfl⟩
    · simp only [Log.step, bind, EStateM.bind, hopen]
      rfl
    · simp
  | append now e =>
    have he : e.Fits := hs e rfl
    obtain ⟨t', l, happend, hfilled, hwritable, hread⟩ :=
      exists_append_text h.writable h.read now (log.tail.lineFor (log.tail.next digest now e))
    refine ⟨some (log.tail.next digest now e),
      ⟨log.path, log.tail.after now (log.tail.next digest now e)⟩, t', _, ?_, rfl,
      ⟨hwritable, hread, fun q hq ↦ (h.parents q hq).imp id hfilled.isDir, h.tail.after he now⟩,
      List.prefix_append _ _, chained_append_next h.tail he now hchain,
      records_append_next h.tail he now, torn_append_next h.tail he now, rfl⟩
    simp only [Log.step, Log.append, bind, EStateM.bind, happend]
    rfl

/-- What a run keeps, from what each of its steps keeps. -/
theorem Open.steps (h : log.Open t text) (hchain : Chained digest genesisHash (records text))
    (ss : List Step) (hss : ∀ s ∈ ss, ∀ e ∈ s.entry?, e.Fits) :
    ∃ rs log' t' text', log.steps digest ss t = .ok (rs, log') t' ∧ log'.path = log.path ∧
      log'.Open t' text' ∧ text <+: text' ∧ Chained digest genesisHash (records text') ∧
      records text' = records text ++ rs ∧ torn text' = torn text ∧
      rs.map (·.entry) = ss.filterMap Step.entry? := by
  induction ss generalizing log t text with
  | nil => exact ⟨[], log, t, text, rfl, rfl, h, List.prefix_refl _, hchain, by simp, rfl, rfl⟩
  | cons s ss ih =>
    obtain ⟨r, log₁, t₁, text₁, hstep, hpath, hopen, hgrown, hchain, hrecords, htorn, hentry⟩ :=
      h.step hchain s (hss s List.mem_cons_self)
    obtain ⟨rs, log₂, t₂, text₂, hsteps, hpath', hopen', hgrown', hchain', hrecords', htorn',
      hentries⟩ := ih hopen hchain fun s hs ↦ hss s (List.mem_cons_of_mem _ hs)
    refine ⟨r.toList ++ rs, log₂, t₂, text₂, ?_, hpath'.trans hpath, hopen',
      hgrown.trans hgrown', hchain', ?_, htorn'.trans htorn, ?_⟩
    · simp only [Log.steps, bind, EStateM.bind, hstep, hsteps]
      rfl
    · rw [hrecords', hrecords, List.append_assoc]
    · rw [List.map_append, hentries, List.filterMap_cons, ← hentry]
      cases r <;> rfl

end Steps

end Log

/-! ## Runs -/

theorem readRecords_of_readText {t : FileTree} {p : Path} {text : List Char}
    (h : readText t p = .ok text) : readRecords t p = .ok (records text) := by
  rw [readRecords, h]

theorem verify_of_readText {digest : Digest} {t : FileTree} {p : Path} {text : List Char}
    (h : readText t p = .ok text) : verify digest t p = .ok (check digest text) := by
  rw [verify, h]

/-- A ledger is opened, its chain is valid, and no one else writes to it. However it is then added
to and opened again, no step fails; the text only grows; the chain stays valid and counts one record
more for every entry, and as many torn lines as before; and what is read from it are the records
that were there and then those that the steps gave, which hold the entries that were added. -/
theorem chain_over_run {digest : Digest} {p : Path} {t₀ t : FileTree} {log : Log}
    (hopen : Log.openAt p t₀ = .ok log t) (hwritable : Writable t p) {c : ChainReport}
    (hcheck : verify digest t p = .ok c) (hvalid : c.valid) (ss : List Step)
    (hfits : ∀ s ∈ ss, ∀ e ∈ s.entry?, e.Fits) :
    ∃ text rs log' t' text', readText t p = .ok text ∧ readRecords t p = .ok (records text) ∧
      log.steps digest ss t = .ok (rs, log') t' ∧
      readText t' p = .ok text' ∧ text <+: text' ∧
      verify digest t' p = .ok ⟨c.records + (ss.filterMap Step.entry?).length, none, c.tornLines⟩ ∧
      readRecords t' p = .ok (records text ++ rs) ∧
      rs.map (·.entry) = ss.filterMap Step.entry? := by
  obtain ⟨hparents, text, hread, rfl⟩ := Log.openAt_eq_ok hopen
  obtain rfl : check digest text = c := by
    rw [verify_of_readText hread] at hcheck
    exact Except.ok.inj hcheck
  have hchain : Chained digest genesisHash (records text) := check_valid_iff.1 hvalid
  have hfirst : Log.Open ⟨p, .ofText text⟩ t text :=
    ⟨hwritable, hread, hparents, Tail.follows_ofText text⟩
  obtain ⟨rs, log', t', text', hsteps, hpath, hopen', hgrown, hchain', hrecords, htorn, hentries⟩ :=
    hfirst.steps hchain ss hfits
  have hread' : readText t' p = .ok text' := by simpa [hpath] using hopen'.read
  refine ⟨text, rs, log', t', text', hread, readRecords_of_readText hread, hsteps, hread', hgrown,
    ?_, hrecords ▸ readRecords_of_readText hread', hentries⟩
  rw [verify_of_readText hread', check_of_chained hchain, check_of_chained hchain', hrecords, htorn,
    List.length_append, ← hentries, List.length_map]

/-- A ledger that ends within a torn line, after a `CR`. -/
def tornTree : FileTree where
  entries := [(["log"], .dir), (["log", "a"], .file (Utf8.encode "\x7b\"ts\r".toList) ⟨0, 0⟩)]

/-- An entry, then the ledger is opened again, then an entry with the end of a line in it. -/
def tornSteps : List Step :=
  [.append ⟨0, 0⟩ { action := "heal", target := "", allowed := true, filesExamined := some 3 },
    .reopen,
    .append ⟨5, 0⟩ { action := "scan", target := "\r\n", allowed := false, deniedBy := ["rule"] }]

theorem chain_over_run_torn :
    ∃ rs log' t', Log.steps (fun _ ↦ "digest") tornSteps
        ⟨⟨"/log/a"⟩, ⟨genesisHash, none, true⟩⟩ tornTree = .ok (rs, log') t' ∧
      verify (fun _ ↦ "digest") t' ⟨"/log/a"⟩ = .ok ⟨2, none, 1⟩ := by
  have hopen : Log.openAt ⟨"/log/a"⟩ tornTree =
      .ok ⟨⟨"/log/a"⟩, ⟨genesisHash, none, true⟩⟩ tornTree := by rfl
  have hwritable : Writable tornTree ⟨"/log/a"⟩ := ⟨["log", "a"], .inr ⟨by rfl, _, rfl, rfl⟩⟩
  have hcheck : verify (fun _ ↦ "digest") tornTree ⟨"/log/a"⟩ = .ok ⟨0, none, 1⟩ := by rfl
  have hfits : ∀ s ∈ tornSteps, ∀ e ∈ s.entry?, e.Fits := by
    simp only [tornSteps, List.forall_mem_cons, Step.entry?, Option.mem_def, Option.some.injEq,
      forall_eq', reduceCtorEq, false_imp_iff, implies_true, List.not_mem_nil, and_true, true_and]
    exact ⟨
      ⟨Counts.fits_empty, Counts.fits_empty, Counts.fits_empty, by simp [Json.Reader.maxCount]⟩,
      ⟨Counts.fits_empty, Counts.fits_empty, Counts.fits_empty, by simp⟩⟩
  obtain ⟨_, rs, log', t', _, -, -, hsteps, -, -, hverify, -, -⟩ :=
    chain_over_run hopen hwritable hcheck rfl tornSteps hfits
  exact ⟨rs, log', t', hsteps, hverify⟩

end Steward.Ledger
