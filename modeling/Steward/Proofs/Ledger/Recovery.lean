import Steward.Proofs.Json.Cut
import Steward.Proofs.Ledger.Run

/-!
# Additions that are interrupted

Of the line that a ledger adds, only the first bytes may reach the file. What is left of the line is
no record, `Ledger.Record.parse?_cut`, so that it is passed over and the next addition ends it: the
ledger is read, and gone on with, as if the addition had not been started. Once all but the end of
the line is there, it is as if the addition had been made, `Ledger.records_append_cut`.

All that takes a text. If the cut goes through a character of several bytes, the file holds none, and
the ledger cannot be read or opened any more: `Ledger.interrupted_resumes_or_lost`.
-/

namespace Steward.Ledger

open Json Json.Reader List

/-! ## Lines that are cut off -/

namespace Field

theorem stops_counts {m : Counts} (h : m.Fits) : Stops readCounts m.toJson.compactChars := by
  let read := fun (name : String) (cs : List Char) ↦ (readCount cs).map fun p ↦ ((name, p.1), p.2)
  let fields := m.entries.map fun e ↦ (e.1, digits e.2, e)
  have htext : m.toJson.compactChars = '\x7b' ::
      (separated [','] (fields.map fun f ↦ quoted f.1.toList ++ ':' :: f.2.1) ++ ['\x7d']) := by
    simp [fields, Counts.toJson, Json.counts, compactChars, compactFields_eq_map,
      Function.comp_def, Json.nat, intText]
  have hreads : ∀ f ∈ fields, Reads (read f.1) f.2.1 f.2.2 := by
    intro f hf
    obtain ⟨e, he, rfl⟩ := mem_map.1 hf
    exact (reads_count (h e he)).map fun n ↦ (e.1, n)
  have hstops : ∀ f ∈ fields, Stops (read f.1) f.2.1 := by
    intro f hf
    obtain ⟨e, -, rfl⟩ := mem_map.1 hf
    exact (stops_count e.2).map fun n ↦ (e.1, n)
  rw [htext]
  exact (stops_of_none fun l hl hne ↦ readObject_cut hreads hstops hl hne).map Counts.ofList

theorem stops_strings (xs : List String) :
    Stops (readArray readString) (Json.strs xs).compactChars := by
  let items := xs.map fun x ↦ (quoted x.toList, x)
  have htext : (Json.strs xs).compactChars =
      '[' :: (separated [','] (items.map (·.1)) ++ [']']) := by
    simp [items, Json.strs, compactChars, compactItems_eq_map, Function.comp_def]
  rw [htext]
  refine Stops.array rfl ?_ ?_
  · intro p hp
    obtain ⟨x, -, rfl⟩ := mem_map.1 hp
    exact reads_string x
  · intro p hp
    obtain ⟨x, -, rfl⟩ := mem_map.1 hp
    exact stops_string x

end Field

namespace Record

variable {r : Record}

theorem stops_written (h : r.entry.Fits) :
    ∀ f ∈ r.written, Stops (Field.read f.1) f.2.1.compactChars :=
  forall_written (P := fun _ read text _ ↦ Stops read text) (fun h g ↦ h.map g) stops_string
    stops_bool Field.stops_strings (fun _ ↦ Field.stops_counts)
    (fun s ↦ (stops_string s).some (by simp [quoted]) (by simp [quoted, isSpace]))
    (fun n _ ↦ (stops_count n).some (head_digits_ne n) fun c hc ↦
      isSpace_of_isDigit (isDigit_of_mem_digits (mem_of_mem_head? hc)))
    h

/-- A line that is cut off anywhere is no record. -/
theorem parse?_cut (h : r.entry.Fits) {l : List Char} (hl : l <+: r.line) (hne : l ≠ r.line) :
    parse? l = none := by
  have hfields : readObject Field.read l = none := by
    rw [line_eq_object] at hl hne
    refine readObject_cut ?_ ?_ hl hne
    · intro f hf
      obtain ⟨w, hw, rfl⟩ := mem_map.1 hf
      exact reads_written h w hw
    · intro f hf
      obtain ⟨w, hw, rfl⟩ := mem_map.1 hf
      exact stops_written h w hw
  have hread : readFields l = none := by
    obtain ⟨cs, hcs⟩ := r.line_eq_cons
    cases l with
    | nil => exact hfields
    | cons c l =>
      obtain rfl : c = '\x7b' := by
        rw [hcs] at hl
        exact (cons_prefix_cons.1 hl).1
      rw [readFields_of_ne_bracket (skipSpace_cons (by decide) l) (by decide), hfields]
  rw [parse?, readAll, hread]
  rfl

end Record

/-! ## Ledgers that are cut off -/

/-- Of an addition that is cut off in its own line, all is read or nothing. -/
theorem records_cut {r : Record} (h : r.entry.Fits) {l : List Char} (hl : l <+: r.line ++ ['\n']) :
    records l = if r.line <+: l then [r] else [] := by
  have hslots : (slots (r.line ++ ['\n'])).reduceOption = [r] := by
    rw [slots_line h]
    rfl
  rw [records_eq_slots]
  rcases prefix_concat_iff.1 hl with rfl | hl
  · rw [hslots, if_pos (prefix_append _ _)]
  have hlast (hne : l ≠ []) : slots (l ++ ['\n']) = slots l := by
    refine slots_end hne fun hlast ↦ r.newline_not_mem_line ?_
    exact hl.subset (mem_of_getLast? hlast)
  split_ifs with hwhole
  · obtain rfl := hl.eq_of_length_le hwhole.length_le
    rw [← hlast (by obtain ⟨cs, hcs⟩ := r.line_eq_cons; simp [hcs]), hslots]
  · cases l with
    | nil => rfl
    | cons c l =>
      have hne : c :: l ≠ r.line := fun heq ↦ hwhole (heq ▸ prefix_refl _)
      have hblank : Text.isAllBlank (c :: l) = false := by
        obtain ⟨cs, hcs⟩ := r.line_eq_cons
        rw [hcs] at hl
        rw [(cons_prefix_cons.1 hl).1]
        rfl
      rw [← hlast (cons_ne_nil c l), slots_of_no_newline
        (fun hm ↦ r.newline_not_mem_line (hl.subset hm))
        (fun hm ↦ r.cr_not_mem_line (hl.subset hm)) hblank, Record.parse?_cut h hl hne]
      rfl

/-- The line that was under way counts if all but its end is there, and the lines before it read as
they did. -/
theorem records_append_cut {text : List Char} {tail : Tail} {r : Record} (h : r.entry.Fits)
    (htail : tail.needsNewline = text.getLast?.any (· != '\n')) {cs : List Char}
    (hcs : cs <+: tail.lineFor r) :
    records (text ++ cs) = records text ++ if (tail.lineFor r).dropLast <+: cs then [r] else [] := by
  have hlast : (tail.lineFor r).dropLast = (if tail.needsNewline then ['\n'] else []) ++ r.line := by
    rw [Tail.lineFor, dropLast_concat]
  rw [Tail.lineFor, append_assoc] at hcs
  rw [hlast]
  by_cases hsealed : (if tail.needsNewline then ['\n'] else []) <+: cs
  · obtain ⟨more, rfl⟩ := hsealed
    rw [prefix_append_right_inj] at hcs
    simp only [prefix_append_right_inj]
    rw [records_eq_slots, slots_append_sealed htail, reduceOption_append,
      ← records_eq_slots, ← records_eq_slots, records_cut h hcs]
  · -- not even the end of the line before is there
    obtain rfl : cs = [] := by
      rcases prefix_or_prefix_of_prefix hcs (prefix_append _ _) with hle | hle
      · split_ifs at hle hsealed
        · exact eq_nil_of_isPrefix_singleton hle fun heq ↦ hsealed (heq ▸ prefix_refl _)
        · exact prefix_nil.1 hle
      · exact absurd hle hsealed
    rw [if_neg fun hle ↦ hsealed ((prefix_append _ _).trans hle), append_nil,
      append_nil]

/-- The first `k` bytes of a text are those of whole characters. -/
def WholeCharacters (k : Nat) (cs : List Char) : Prop :=
  ∃ n, (Utf8.encode cs).take k = Utf8.encode (cs.take n)

/-- The cut leaves all but the last character, which has one byte. -/
theorem dropLast_isPrefix_iff {cs : List Char} (hlast : cs.getLast? = some '\n') {k n : Nat}
    (h : (Utf8.encode cs).take k = Utf8.encode (cs.take n)) :
    cs.dropLast <+: cs.take n ↔ (Utf8.encode cs).length ≤ k + 1 := by
  obtain ⟨init, rfl⟩ := getLast?_eq_some_iff.1 hlast
  have hlength : (Utf8.encode (init ++ ['\n'])).length = (Utf8.encode init).length + 1 := by
    rw [Utf8.encode_append, length_append]
    rfl
  rw [dropLast_concat, ← Utf8.encode_isPrefix_iff, ← h, prefix_take_iff, hlength,
    Nat.add_le_add_iff_right, Utf8.encode_isPrefix_iff]
  exact and_iff_right (prefix_append _ _)

namespace Log

/-- The text that an entry is added with. -/
def pending (digest : Digest) (now : Instant) (log : Log) (e : Entry) : List Char :=
  log.tail.lineFor (log.tail.next digest now e)

/-- Adds an entry, but is stopped after `k` bytes. -/
def interrupted (digest : Digest) (now : Instant) (log : Log) (e : Entry) (k : Nat) : Disk Unit :=
  Disk.append now log.path ((Utf8.encode (log.pending digest now e)).take k)

end Log

/-- A ledger can be gone on with from some records: it is opened, these records are read, and
whatever is added next is read behind them, in a chain that is valid. -/
def Resumes (digest : Digest) (t : FileTree) (p : Path) (rs : List Record) : Prop :=
  ∃ log, Log.openAt p t = .ok log t ∧ readRecords t p = .ok rs ∧
    ∀ now e, e.Fits → ∃ r log' t', log.append digest now e t = .ok (r, log') t' ∧ r.entry = e ∧
      readRecords t' p = .ok (rs ++ [r]) ∧
      ∃ torn, verify digest t' p = .ok ⟨rs.length + 1, none, torn⟩

/-- A ledger that can neither be opened nor read nor checked. -/
def Lost (digest : Digest) (t : FileTree) (p : Path) : Prop :=
  Log.openAt p t = .error .invalidUtf8 t ∧ readRecords t p = .error (.ofIo .invalidUtf8) ∧
    verify digest t p = .error (.ofIo .invalidUtf8)

section Interrupted

variable {digest : Digest} {log : Log} {t : FileTree} {text : List Char}

theorem Log.append_of_step {now : Instant} {e : Entry} {r : Record} {log' : Log} {t' : FileTree}
    (h : log.step digest (.append now e) t = .ok (some r, log') t') :
    log.append digest now e t = .ok (r, log') t' := by
  simp only [Log.step, bind, EStateM.bind] at h
  cases happend : log.append digest now e t with
  | error err t₁ =>
    rw [happend] at h
    cases h
  | ok out t₁ =>
    rw [happend] at h
    cases h
    rfl

theorem Log.Open.resumes (h : log.Open t text)
    (hchain : Chained digest genesisHash (records text)) :
    Resumes digest t log.path (records text) := by
  have hopen : Log.Open ⟨log.path, .ofText text⟩ t text :=
    ⟨h.writable, h.read, h.parents, Tail.follows_ofText text⟩
  refine ⟨_, openAt_of_parents h.parents h.read, readRecords_of_readText h.read, ?_⟩
  intro now e he
  obtain ⟨r, log', t', text', hstep, hpath, hopen', -, hchain', hrecords, -, hentry⟩ :=
    hopen.step hchain (.append now e) (by rintro _ ⟨⟩; exact he)
  obtain ⟨r, rfl⟩ : ∃ s, r = some s := Option.isSome_iff_exists.1 (by
    rw [← Option.isSome_map, hentry]
    rfl)
  have hread : readText t' log.path = .ok text' := by
    have := hopen'.read
    rwa [hpath] at this
  refine ⟨r, log', t', append_of_step hstep, Option.some.inj hentry, ?_, torn text', ?_⟩
  · rw [readRecords_of_readText hread, hrecords]
    rfl
  · rw [verify_of_readText hread, check_of_chained hchain', hrecords, length_append]
    rfl

theorem Log.Open.interrupted (h : log.Open t text)
    (hchain : Chained digest genesisHash (records text)) (now : Instant) {e : Entry} (he : e.Fits)
    (k : Nat) :
    ∃ t', log.interrupted digest now e k t = .ok () t' ∧
      (WholeCharacters k (log.pending digest now e) → Resumes digest t' log.path (records text ++
        if (Utf8.encode (log.pending digest now e)).length ≤ k + 1
        then [log.tail.next digest now e] else [])) ∧
      (¬ WholeCharacters k (log.pending digest now e) → Lost digest t' log.path) := by
  obtain ⟨t', l, happend, hfilled, hwritable, htext, hnone⟩ := exists_append_bytes h.writable h.read
    now ((Utf8.encode (log.pending digest now e)).take k)
  have hparents : ∀ q ∈ log.path.parent?, q.text.isEmpty ∨ t'.isDir q :=
    fun q hq ↦ (h.parents q hq).imp id hfilled.isDir
  refine ⟨t', happend, ?_, ?_⟩
  · rintro ⟨n, hn⟩
    have hread : readText t' log.path = .ok (text ++ (log.pending digest now e).take n) := by
      apply htext
      rw [hn, Utf8.decode_encode]
    have hrecords := records_append_cut (r := log.tail.next digest now e) he h.tail.needsNewline
      (List.take_prefix n (log.pending digest now e))
    have hlast : (log.pending digest now e).getLast? = some '\n' := getLast?_concat
    simp only [show log.tail.lineFor (log.tail.next digest now e) = log.pending digest now e from rfl,
      dropLast_isPrefix_iff hlast hn] at hrecords
    have hopen : Log.Open ⟨log.path, .ofText (text ++ (log.pending digest now e).take n)⟩ t'
        (text ++ (log.pending digest now e).take n) :=
      ⟨hwritable, hread, hparents, Tail.follows_ofText _⟩
    rw [← hrecords]
    refine hopen.resumes ?_
    rw [hrecords]
    split_ifs
    · exact chained_concat.2 ⟨hchain, h.tail.lastHash, rfl⟩
    · rwa [append_nil]
  · intro hcut
    have hread : readText t' log.path = .error .invalidUtf8 := by
      apply hnone
      exact (Utf8.decode_take_encode _ k).resolve_left hcut
    refine ⟨?_, ?_, ?_⟩
    · simp only [openAt_apply, Disk.makeParents_of_isDir hparents, hread]
    · rw [readRecords, hread]
    · rw [verify, hread]

end Interrupted

/-- A ledger is opened, its chain is valid, and no one else writes to it. It is added to and opened
again in any way, and then an addition is stopped after some bytes. If the bytes are whole
characters, the ledger can be gone on with from all the records before, and from the one under way if
at most the end of its line is missing. If a character is cut in two, the ledger is lost. -/
theorem interrupted_resumes_or_lost {digest : Digest} {p : Path} {t₀ t : FileTree}
    {log : Log} (hopen : Log.openAt p t₀ = .ok log t) (hwritable : Writable t p) {c : ChainReport}
    (hcheck : verify digest t p = .ok c) (hvalid : c.valid) (ss : List Step)
    (hfits : ∀ s ∈ ss, ∀ e ∈ s.entry?, e.Fits) (now : Instant) {e : Entry} (he : e.Fits) (k : Nat) :
    ∃ before rs log₁ t₁ t₂, readRecords t p = .ok before ∧
      log.steps digest ss t = .ok (rs, log₁) t₁ ∧ log₁.interrupted digest now e k t₁ = .ok () t₂ ∧
      (WholeCharacters k (log₁.pending digest now e) → Resumes digest t₂ p (before ++ rs ++
        if (Utf8.encode (log₁.pending digest now e)).length ≤ k + 1
        then [log₁.tail.next digest now e] else [])) ∧
      (¬ WholeCharacters k (log₁.pending digest now e) → Lost digest t₂ p) := by
  obtain ⟨hparents, text, hread, rfl⟩ := Log.openAt_eq_ok hopen
  have hchain : Chained digest genesisHash (records text) := by
    rw [verify_of_readText hread] at hcheck
    cases hcheck
    exact check_valid_iff.1 hvalid
  have hfirst : Log.Open ⟨p, .ofText text⟩ t text :=
    ⟨hwritable, hread, hparents, Tail.follows_ofText text⟩
  obtain ⟨rs, log₁, t₁, text₁, hsteps, hpath, hopen₁, -, hchain₁, hrecords, -, -⟩ :=
    hfirst.steps hchain ss hfits
  obtain ⟨t₂, hinterrupted, hwhole, hcut⟩ := hopen₁.interrupted hchain₁ now he k
  obtain rfl : log₁.path = p := hpath
  rw [hrecords] at hwhole
  exact ⟨records text, rs, log₁, t₁, t₂, readRecords_of_readText hread, hsteps, hinterrupted,
    hwhole, hcut⟩

/-- An entry with a character of two bytes. -/
def accented : Entry := { action := "scan", target := "é", allowed := true }

theorem interrupted_resumes_or_lost_accented :
    ∃ rs log₁ t₁ t₂ t₃, Log.steps (fun _ ↦ "digest") [.append ⟨0, 0⟩ accented]
        ⟨⟨"/log/a"⟩, ⟨genesisHash, none, true⟩⟩ tornTree = .ok (rs, log₁) t₁ ∧
      log₁.interrupted (fun _ ↦ "digest") ⟨0, 0⟩ accented 63 t₁ = .ok () t₂ ∧
      Lost (fun _ ↦ "digest") t₂ ⟨"/log/a"⟩ ∧
      log₁.interrupted (fun _ ↦ "digest") ⟨0, 0⟩ accented 160 t₁ = .ok () t₃ ∧
      Resumes (fun _ ↦ "digest") t₃ ⟨"/log/a"⟩
        (rs ++ [log₁.tail.next (fun _ ↦ "digest") ⟨0, 0⟩ accented]) := by
  have hopen : Log.openAt ⟨"/log/a"⟩ tornTree =
      .ok ⟨⟨"/log/a"⟩, ⟨genesisHash, none, true⟩⟩ tornTree := by rfl
  have hwritable : Writable tornTree ⟨"/log/a"⟩ := ⟨["log", "a"], .inr ⟨by rfl, _, rfl, rfl⟩⟩
  have hcheck : verify (fun _ ↦ "digest") tornTree ⟨"/log/a"⟩ = .ok ⟨0, none, 1⟩ := by rfl
  have hfits : accented.Fits :=
    ⟨Counts.fits_empty, Counts.fits_empty, Counts.fits_empty, by simp [accented]⟩
  have hrun := interrupted_resumes_or_lost hopen hwritable hcheck rfl
    [.append ⟨0, 0⟩ accented] (by simpa [Step.entry?] using hfits) ⟨0, 0⟩ hfits
  obtain ⟨before, rs, log₁, t₁, t₂, hbefore, hsteps, hcut, -, hlost⟩ := hrun 63
  obtain ⟨_, _, _, _, t₃, hbefore', hsteps', hcut', hresumes, -⟩ := hrun 160
  obtain rfl : [] = before := Except.ok.inj hbefore
  cases hbefore.symm.trans hbefore'
  cases hsteps.symm.trans hsteps'
  have htail : log₁.tail = ⟨"digest", some ⟨0, 0⟩, false⟩ := by
    cases hsteps
    rfl
  refine ⟨rs, log₁, t₁, t₂, t₃, hsteps, hcut, hlost ?_, hcut', ?_⟩
  · rintro ⟨n, hn⟩
    have hnone : Utf8.decode ((Utf8.encode
        (log₁.pending (fun _ ↦ "digest") ⟨0, 0⟩ accented)).take 63) = none := by
      rw [Log.pending, htail]
      decide +kernel
    rw [hn, Utf8.decode_encode] at hnone
    cases hnone
  · have hwhole : WholeCharacters 160 (log₁.pending (fun _ ↦ "digest") ⟨0, 0⟩ accented) := by
      rw [Log.pending, htail]
      exact ⟨159, by decide +kernel⟩
    have hlength : (Utf8.encode
        (log₁.pending (fun _ ↦ "digest") ⟨0, 0⟩ accented)).length ≤ 160 + 1 := by
      rw [Log.pending, htail]
      decide +kernel
    have hresumes := hresumes hwhole
    rwa [if_pos hlength, List.nil_append] at hresumes


end Steward.Ledger
