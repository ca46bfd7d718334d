import Steward.Proofs.FileTree.Atomic
import Steward.Proofs.Toml.Document

/-!
# Settings are read back

Settings are written as a document of four sections, `Config.lines`, and the document says what
`Config.table` does. Every setting stands in it, so that none is left to its default when the document
is read: `Config.ofToml?_table`. That holds of all texts; counts have to be in range, `Config.Fits`.
-/

namespace Steward

/-- What was written is read. -/
theorem Disk.read_of_write {now : Instant} {p : Path} {bytes : List UInt8} {t t' : FileTree}
    (h : Disk.write now p bytes t = .ok () t') : t'.read p = .ok bytes := by
  obtain ⟨l, hl, rfl⟩ := ok_of_triple (Disk.write_spec now p bytes t) rfl h
  obtain ⟨hne, hbefore⟩ := hl.isFile
  have hfilled : FileTree.Filled t (t.insert l (.file bytes now)) l :=
    FileTree.filled_insert hne hbefore (by simp)
  have hspot : (t.insert l (.file bytes now)).spot .written p = .ok (.entry l) := by
    obtain hl | ⟨hl, -⟩ := hl
    · simpa [FileTree.Spot.filled] using hfilled.spot hl
    · exact hfilled.spot hl
  have hget : (t.insert l (.file bytes now)).get? l = some (.file bytes now) := by
    rw [FileTree.get?_insert t hne, if_pos rfl]
  rw [FileTree.read, Ledger.find_of_entry (FileTree.spot_followed_of_written hspot) hget]
  rfl

namespace Config

open Toml (Line BareKey)

variable {c : Config}

/-- Every count is in the range of its setting, and no larger than a count in a file can be. -/
structure Fits (c : Config) : Prop where
  maxFileBytes : (c.scanner.maxFileBytes : Int) ≤ Toml.maxInteger
  snippetLen : (c.scanner.snippetLen : Int) ≤ Toml.maxInteger
  maxAttempts : c.fixer.maxAttempts ≤ max32
  backoffMs : (c.fixer.backoffMs : Int) ≤ Toml.maxInteger
  historyDays : c.memory.historyDays ≤ max32
  staleTodoDays : c.memory.staleTodoDays ≤ max32
  hotspotThreshold : (c.memory.hotspotThreshold : Int) ≤ Toml.maxInteger

theorem le_maxInteger {n : Nat} (h : n ≤ max32) : (n : Int) ≤ Toml.maxInteger := by
  rw [max32] at h
  rw [Toml.maxInteger]
  omega

/-! ## The document -/

def countLine (key : String) (n : Nat) : Line := .setting key (Json.digits n) (.integer n)

def textLine (key s : String) : Line := .setting key (Toml.stringText s.toList) (.string s)

def textsLine (key : String) (xs : List String) : Line :=
  .setting key (writeTexts xs) (.array (xs.map .string))

/-- The lines of the settings. -/
def lines (c : Config) : List Line :=
  [.header "scanner", countLine "max_file_bytes" c.scanner.maxFileBytes,
    textsLine "extensions" c.scanner.extensions, textsLine "ignored_dirs" c.scanner.ignoredDirs,
    countLine "snippet_len" c.scanner.snippetLen, .blank,
    .header "fixer", countLine "max_attempts" c.fixer.maxAttempts,
    countLine "backoff_ms" c.fixer.backoffMs, .blank,
    .header "memory", textLine "db_file" c.memory.dbFile,
    countLine "history_days" c.memory.historyDays,
    countLine "stale_todo_days" c.memory.staleTodoDays,
    countLine "hotspot_threshold" c.memory.hotspotThreshold, .blank,
    .header "audit", textLine "log_file" c.audit.logFile]

theorem toTomlChars?_eq (h : c.Fits) : c.toTomlChars? = some (c.lines.flatMap Line.text) := by
  have hscanner : "[scanner]\n".toList = (Line.header "scanner").text := rfl
  have hfixer : "\n[fixer]\n".toList = Line.blank.text ++ (Line.header "fixer").text := rfl
  have hmemory : "\n[memory]\n".toList = Line.blank.text ++ (Line.header "memory").text := rfl
  have haudit : "\n[audit]\n".toList = Line.blank.text ++ (Line.header "audit").text := rfl
  simp only [toTomlChars?, writeCount?, h.maxFileBytes, h.snippetLen, le_maxInteger h.maxAttempts,
    h.backoffMs, le_maxInteger h.historyDays, le_maxInteger h.staleTodoDays, h.hotspotThreshold,
    if_true, Option.map_some, hscanner, hfixer, hmemory, haudit]
  simp [lines, countLine, textLine, textsLine, Line.text, writeLine]

theorem reads_texts (depth : Nat) (xs : List String) :
    Toml.Reads (depth + 1) (writeTexts xs) (.array (xs.map .string)) := by
  rcases xs with _ | ⟨x, _ | ⟨y, xs⟩⟩
  · exact Toml.reads_array_nil
  · exact (Toml.reads_string depth x).array_one
  · have hitems : ∀ item ∈ (x :: y :: xs).map fun x ↦ (Toml.stringText x.toList, Toml.string x),
        Toml.Reads depth item.1 item.2 := by
      intro item hitem
      obtain ⟨z, -, rfl⟩ := List.mem_map.1 hitem
      exact Toml.reads_string depth z
    simpa [writeTexts, Toml.itemLine, List.flatMap_map, Function.comp_def] using
      Toml.reads_array_lines hitems

theorem proper_lines (h : c.Fits) : ∀ line ∈ c.lines, line.Proper := by
  have hcount {key : String} {n : Nat} (hkey : BareKey key) (hn : (n : Int) ≤ Toml.maxInteger) :
      (countLine key n).Proper := ⟨hkey, Toml.reads_count _ hn⟩
  have hshort {key : String} {n : Nat} (hkey : BareKey key) (hn : n ≤ max32) :
      (countLine key n).Proper := hcount hkey (le_maxInteger hn)
  have htext {key : String} (s : String) (hkey : BareKey key) : (textLine key s).Proper :=
    ⟨hkey, Toml.reads_string _ s⟩
  have htexts {key : String} (xs : List String) (hkey : BareKey key) :
      (textsLine key xs).Proper := ⟨hkey, reads_texts _ xs⟩
  simp only [lines, List.forall_mem_cons, List.not_mem_nil, false_imp_iff, implies_true, and_true]
  refine ⟨?_, hcount ?_ h.maxFileBytes, htexts _ ?_, htexts _ ?_, hcount ?_ h.snippetLen, trivial,
    ?_, hshort ?_ h.maxAttempts, hcount ?_ h.backoffMs, trivial, ?_, htext _ ?_,
    hshort ?_ h.historyDays, hshort ?_ h.staleTodoDays, hcount ?_ h.hotspotThreshold, trivial, ?_,
    htext _ ?_⟩
  all_goals exact ⟨by decide, List.all_eq_true.1 (by decide)⟩

/-! ## What the document says -/

/-- The settings as they stand in the document. -/
def Scanner.table (s : Scanner) : Toml :=
  .table false false
    [("max_file_bytes", .integer s.maxFileBytes), ("extensions", .array (s.extensions.map .string)),
      ("ignored_dirs", .array (s.ignoredDirs.map .string)), ("snippet_len", .integer s.snippetLen)]

@[inherit_doc Scanner.table]
def Fixer.table (s : Fixer) : Toml :=
  .table false false [("max_attempts", .integer s.maxAttempts), ("backoff_ms", .integer s.backoffMs)]

@[inherit_doc Scanner.table]
def Memory.table (s : Memory) : Toml :=
  .table false false
    [("db_file", .string s.dbFile), ("history_days", .integer s.historyDays),
      ("stale_todo_days", .integer s.staleTodoDays),
      ("hotspot_threshold", .integer s.hotspotThreshold)]

@[inherit_doc Scanner.table]
def Audit.table (s : Audit) : Toml := .table false false [("log_file", .string s.logFile)]

@[inherit_doc Scanner.table]
def table (c : Config) : Toml :=
  .table false false
    [("scanner", c.scanner.table), ("fixer", c.fixer.table), ("memory", c.memory.table),
      ("audit", c.audit.table)]

theorem foldlM_lines (c : Config) : (c.lines.foldlM Line.addTo {}).map (·.doc) = some c.table := rfl

theorem readCount_integer {n bound : Nat} (h : n ≤ bound) :
    readCount bound (.integer n) = some n := by
  simp [readCount, h]

theorem readLong_integer {n : Nat} (h : (n : Int) ≤ Toml.maxInteger) :
    readLong (.integer n) = some n :=
  readCount_integer ((Int.le_toNat (by decide)).2 h)

theorem readTexts_array (xs : List String) : readTexts (.array (xs.map .string)) = some xs := by
  induction xs with
  | nil => rfl
  | cons x xs ih =>
    rw [readTexts] at ih ⊢
    rw [List.map_cons, List.mapM_cons, ih]
    rfl

theorem ofToml?_table (h : c.Fits) : ofToml? c.table = some c := by
  have hscanner : readScanner c.scanner.table = some c.scanner := by
    change (do
      let maxFileBytes ← readLong (.integer c.scanner.maxFileBytes)
      let extensions ← readTexts (.array (c.scanner.extensions.map .string))
      let ignoredDirs ← readTexts (.array (c.scanner.ignoredDirs.map .string))
      let snippetLen ← readLong (.integer c.scanner.snippetLen)
      return ({ maxFileBytes, extensions, ignoredDirs, snippetLen } : Scanner)) = _
    rw [readLong_integer h.maxFileBytes, readTexts_array, readTexts_array,
      readLong_integer h.snippetLen]
    rfl
  have hfixer : readFixer c.fixer.table = some c.fixer := by
    change (do
      let maxAttempts ← readCount max32 (.integer c.fixer.maxAttempts)
      let backoffMs ← readLong (.integer c.fixer.backoffMs)
      return ({ maxAttempts, backoffMs } : Fixer)) = _
    rw [readCount_integer h.maxAttempts, readLong_integer h.backoffMs]
    rfl
  have hmemory : readMemory c.memory.table = some c.memory := by
    change (do
      let historyDays ← readCount max32 (.integer c.memory.historyDays)
      let staleTodoDays ← readCount max32 (.integer c.memory.staleTodoDays)
      let hotspotThreshold ← readLong (.integer c.memory.hotspotThreshold)
      return ({ c.memory with historyDays, staleTodoDays, hotspotThreshold } : Memory)) = _
    rw [readCount_integer h.historyDays, readCount_integer h.staleTodoDays,
      readLong_integer h.hotspotThreshold]
    rfl
  change (do
    let scanner ← readScanner c.scanner.table
    let fixer ← readFixer c.fixer.table
    let memory ← readMemory c.memory.table
    return ({ c with scanner, fixer, memory } : Config)) = _
  rw [hscanner, hfixer, hmemory]
  rfl

theorem exists_toToml (h : c.Fits) : ∃ text, c.toToml = .ok text ∧ parse? text.toList = some c := by
  refine ⟨String.ofList (c.lines.flatMap Line.text), by rw [toToml, toTomlChars?_eq h], ?_⟩
  rw [String.toList_ofList, parse?, Toml.parse?_lines (proper_lines h), foldlM_lines]
  exact ofToml?_table h

/-! ## The file -/

theorem load_of_read {t : FileTree} {reserved : Path} {text : List Char}
    (hread : t.read (reserved.join "config.toml") = .ok (Utf8.encode text))
    (hparse : parse? text = some c) (hvalid : c.invalid? = none) : load t reserved = .ok c := by
  have hthere : t.contains (reserved.join "config.toml") := by
    rw [FileTree.read] at hread
    rw [FileTree.contains]
    cases hfind : t.find (reserved.join "config.toml") with
    | ok e => rfl
    | error e => simp [hfind] at hread
  have htext : t.readText (reserved.join "config.toml") = .ok text := by
    rw [FileTree.readText, hread]
    simp only [Utf8.decode_encode]
  simp [load, hthere, htext, hparse, hvalid, bind, Except.bind, pure, Except.pure]

/-- **Settings survive being written.** Whatever texts they hold, settings that can be worked with and
whose counts fit are written, and loaded as they were: from any tree in which the file holds what was
written, and so after any write of it. -/
theorem load_written {c : Config} (hvalid : c.invalid? = none) (hfits : c.Fits) :
    ∃ text, c.toToml = .ok text ∧
      (∀ t reserved, t.read (reserved.join "config.toml") = .ok (Utf8.encode text.toList) →
        load t reserved = .ok c) ∧
      ∀ t t' now reserved,
        Disk.write now (reserved.join "config.toml") (Utf8.encode text.toList) t = .ok () t' →
          load t' reserved = .ok c := by
  obtain ⟨text, htext, hparse⟩ := exists_toToml hfits
  refine ⟨text, htext, fun t reserved hread ↦ load_of_read hread hparse hvalid, ?_⟩
  intro t t' now reserved hwrite
  exact load_of_read (Disk.read_of_write hwrite) hparse hvalid

/-- Settings with quotes of both kinds, backslashes, line breaks and control characters, and with
counts as large and as small as they may be. -/
def awkward : Config where
  scanner :=
    { maxFileBytes := 9223372036854775807, snippetLen := 0, ignoredDirs := ["\n\"\"\"\"\\"],
      extensions := ["a\"\"\"b\\c", "\r\n\x27\x27\x27", "\t\x00\x7f", "\\\x27", "\n\x27\\\"\"", ""] }
  fixer := { maxAttempts := 4294967295, backoffMs := 9223372036854775807 }
  memory := { dbFile := "\\", historyDays := 0, hotspotThreshold := 0 }
  audit := { logFile := "\x08\x0cé " }

/-- A directory with nothing in it. -/
def emptyDir : FileTree where
  entries := [(["w"], .dir)]

theorem load_written_awkward :
    awkward.invalid? = none ∧ awkward.Fits ∧
    ∃ text t', awkward.toToml = .ok text ∧
      Disk.write ⟨0, 0⟩ (Path.join ⟨"/w"⟩ "config.toml") (Utf8.encode text.toList) emptyDir =
        .ok () t' ∧
      load t' ⟨"/w"⟩ = .ok awkward := by
  have hfits : awkward.Fits := by constructor <;> decide
  have hspot : emptyDir.spot .written (Path.join ⟨"/w"⟩ "config.toml") =
      .ok (.vacant ["w", "config.toml"]) := by decide
  have hwrite (bytes : List UInt8) :
      Disk.write ⟨0, 0⟩ (Path.join ⟨"/w"⟩ "config.toml") bytes emptyDir =
        .ok () (emptyDir.insert ["w", "config.toml"] (.file bytes ⟨0, 0⟩)) := by
    simp only [Disk.write, Disk.update, bind, EStateM.bind, Disk.ask_apply, hspot]
    rfl
  obtain ⟨text, htext, -, hload⟩ := load_written (c := awkward) rfl hfits
  exact ⟨rfl, hfits, text, _, htext, hwrite _, hload _ _ _ _ (hwrite _)⟩

end Config

end Steward
