import Steward.History.Git
import Steward.Proofs.Breaks
import Steward.Proofs.Instant.Written
import Steward.Proofs.Utf8

/-!
# Reading a log

`Shown` is a commit as the log shows it: a header of four fields, some empty lines, and the names of
files on lines of their own. A log is taken apart at its record separators, `parseLog_append`, and the
record of a commit is read back as that commit, `Shown.Proper.parseRecord?_record`; so a log is read
as the commits that it shows, `log_read_back`.
-/

namespace Steward

open List

namespace Text

/-- A text without space around it stays when it is trimmed. -/
theorem trim_eq_self {cs : List Char} (hhead : cs.head?.any isBlank = false)
    (hlast : cs.getLast?.any isBlank = false) : trim cs = cs := by
  have hstart {ds : List Char} (h : ds.head?.any isBlank = false) : ds.dropWhile isBlank = ds := by
    cases ds with
    | nil => rfl
    | cons d ds => exact dropWhile_cons_of_neg (by simpa using h)
  rw [trim, trimStart, hstart hhead, trimEnd, hstart (by rwa [head?_reverse]),
    reverse_reverse]

/-- None of some characters stands in the text. -/
def Lacks (cs seps : List Char) : Prop := ∀ s ∈ seps, s ∉ cs

instance (cs seps : List Char) : Decidable (Lacks cs seps) := List.decidableBAll (· ∉ cs) seps

end Text

namespace History.Git

open Text (Lacks isBlank)

/-! ## Separators -/

theorem splitFrom_eq (sep : Char) (done : List (List Char)) (current cs : List Char) :
    splitFrom sep done current cs =
      done.reverse ++ List.splitOnPPrepend (· == sep) cs current := by
  induction cs generalizing done current with
  | nil => simp [splitFrom]
  | cons c cs ih =>
    rw [splitFrom, splitOnPPrepend_cons_eq_if]
    by_cases hc : c = sep <;> simp [hc, ih]

theorem splitAt_eq_splitOn (sep : Char) (cs : List Char) : splitAt sep cs = cs.splitOn sep := by
  rw [splitAt, splitFrom_eq, splitOn_eq_splitOnP, splitOnP_eq_splitOnPPrepend]
  rfl

/-- What stands between two separators is read on its own. -/
theorem parseLog_append (front out : List Char) :
    parseLog (front ++ recordSeparator :: out) = parseLog front ++ parseLog out := by
  simp only [parseLog, splitAt_eq_splitOn, splitOn_append_cons_self, filterMap_append]

theorem parseLog_of_notMem {out : List Char} (h : recordSeparator ∉ out) :
    parseLog out = (parseRecord? out).toList := by
  rw [parseLog, splitAt_eq_splitOn, splitOn_eq_singleton h]
  cases hout : parseRecord? out <;> simp [hout]

/-! ## Commits as they are shown -/

/-- A commit as the log shows it. -/
structure Shown where
  id : List Char
  author : List Char
  date : Instant.Written
  summary : List Char
  /-- The number of empty lines behind the header. -/
  gap : Nat
  files : List (List Char)

namespace Shown

def header (c : Shown) : List Char :=
  c.id ++ fieldSeparator :: (c.author ++ fieldSeparator :: (c.date.text ++ fieldSeparator :: c.summary))

def lines (c : Shown) : List Text.Line := c.header :: (List.replicate c.gap [] ++ c.files)

/-- The lines of a commit, each with its end. -/
def record (c : Shown) : List Char := c.lines.flatMap (· ++ ['\n'])

def text (c : Shown) : List Char := recordSeparator :: c.record

/-- The commit with its time in universal time. -/
def commit (c : Shown) : Commit where
  id := String.ofList c.id
  author := String.ofList c.author
  timestamp := c.date.instant
  summary := String.ofList c.summary
  files := c.files.map String.ofList

/-- Nothing in the parts of a commit is taken for what stands between them. A summary may contain the
separator of fields, as it is the last field. -/
@[mk_iff]
structure Proper (c : Shown) : Prop where
  id : Lacks c.id ['\n', recordSeparator, fieldSeparator]
  author : Lacks c.author ['\n', recordSeparator, fieldSeparator]
  date : c.date.Valid
  summary : Lacks c.summary ['\n', recordSeparator]
  summary_last : c.summary.getLast? ≠ some '\r'
  files_ne_nil : ∀ f ∈ c.files, f ≠ []
  files : ∀ f ∈ c.files, Lacks f ['\n', recordSeparator]
  files_head : ∀ f ∈ c.files, f.head?.any isBlank = false
  files_last : ∀ f ∈ c.files, f.getLast?.any isBlank = false

instance (c : Shown) : Decidable c.Proper := decidable_of_iff' _ c.proper_iff

namespace Proper

variable {c : Shown} (h : c.Proper)
include h

theorem date_lacks : Lacks c.date.text ['\n', recordSeparator, fieldSeparator] := by
  intro s hs hmem
  have hspace := Instant.Written.space_le_of_mem_text h.date s hmem
  revert hspace
  simp only [mem_cons, not_mem_nil, or_false] at hs
  rcases hs with rfl | rfl | rfl <;> decide

theorem header_lacks : Lacks c.header ['\n', recordSeparator] := by
  intro s hs
  have hs' : s ∈ ['\n', recordSeparator, fieldSeparator] := mem_append_left [fieldSeparator] hs
  have hfield : s ≠ fieldSeparator := by
    simp only [mem_cons, not_mem_nil, or_false] at hs
    rcases hs with rfl | rfl <;> decide
  simp [header, hfield, h.id s hs', h.author s hs', h.date_lacks s hs', h.summary s hs]

theorem lacks_of_mem_lines : ∀ x ∈ c.lines, Lacks x ['\n', recordSeparator] := by
  rw [lines, forall_mem_cons, forall_mem_append]
  refine ⟨h.header_lacks, fun x hx ↦ ?_, h.files⟩
  rw [eq_of_mem_replicate hx]
  exact fun s _ ↦ not_mem_nil

theorem getLast?_of_mem_lines : ∀ x ∈ c.lines, x.getLast? ≠ some '\r' := by
  rw [lines, forall_mem_cons, forall_mem_append]
  refine ⟨?_, fun x hx ↦ ?_, fun x hx hlast ↦ ?_⟩
  · have hheader : c.header = c.id ++ fieldSeparator :: (c.author ++ fieldSeparator :: c.date.text) ++
        [fieldSeparator] ++ c.summary := by simp [header]
    have hlast := h.summary_last
    rw [hheader, getLast?_append, getLast?_concat]
    cases hsummary : c.summary.getLast? with
    | none => decide
    | some d => rwa [hsummary] at hlast
  · rw [eq_of_mem_replicate hx]
    decide
  · have hblank := h.files_last x hx
    rw [hlast] at hblank
    revert hblank
    decide

theorem separator_notMem_record : recordSeparator ∉ c.record := by
  rw [record, mem_flatMap]
  rintro ⟨x, hx, hmem⟩
  rcases mem_append.1 hmem with hmem | hmem
  · exact h.lacks_of_mem_lines x hx recordSeparator (by simp) hmem
  · revert hmem
    decide

theorem lines_record : Text.lines c.record = c.lines :=
  Text.lines_flatMap_newline (fun x hx ↦ h.lacks_of_mem_lines x hx '\n' (by simp))
    h.getLast?_of_mem_lines

theorem splitAt_header : splitAt fieldSeparator c.header =
    c.id :: c.author :: c.date.text :: splitAt fieldSeparator c.summary := by
  have hfield : fieldSeparator ∈ ['\n', recordSeparator, fieldSeparator] := by simp
  simp only [splitAt_eq_splitOn, header]
  rw [splitOn_append_cons_self_of_not_mem (h.id _ hfield),
    splitOn_append_cons_self_of_not_mem (h.author _ hfield),
    splitOn_append_cons_self_of_not_mem (h.date_lacks _ hfield)]

/-- Empty lines are no files, and files are read as they are written. -/
theorem files_lines : ((c.lines.tail.map Text.trim).filter (!·.isEmpty)) = c.files := by
  have htrim : c.files.map Text.trim = c.files :=
    (map_congr_left fun f hf ↦ Text.trim_eq_self (h.files_head f hf) (h.files_last f hf)).trans
      (map_id _)
  have hgap : Text.trim [] = [] := rfl
  rw [lines, tail_cons, map_append, map_replicate, hgap, htrim, filter_append,
    filter_replicate_of_neg (by simp), nil_append, filter_eq_self]
  intro f hf
  simpa using h.files_ne_nil f hf

/-- The record of a commit is read as that commit. -/
theorem parseRecord?_record : parseRecord? c.record = some c.commit := by
  obtain ⟨s, more, hsummary⟩ := exists_cons_of_ne_nil
    (splitAt_eq_splitOn fieldSeparator c.summary ▸ splitOn_ne_nil fieldSeparator c.summary)
  have hjoin : ((s :: more).intersperse [fieldSeparator]).flatten = c.summary := by
    rw [← hsummary, splitAt_eq_splitOn]
    exact intercalate_splitOn fieldSeparator
  have hfiles := h.files_lines
  rw [lines, tail_cons] at hfiles
  simp only [parseRecord?, h.lines_record, lines, h.splitAt_header, hsummary, hjoin, hfiles,
    Instant.Written.parseChars?_text h.date, Option.map_some]
  rfl

end Proper

end Shown

/-! ## Logs -/

/-- A log is read as the commits that it shows, in their order, each with its time in universal time.
These are the commits since an instant if the log is what `git` prints for it. -/
theorem log_read_back {cs : List Shown} (h : ∀ c ∈ cs, c.Proper) :
    parseLog (cs.flatMap Shown.text) = cs.map Shown.commit ∧
      ∀ (r : Runner) (p : Path) (since : Instant) (out : Output),
        run r (logArgs p since) = .ok out → out.exit = 0 →
        out.stdout = Utf8.encode (cs.flatMap Shown.text) →
        commitsSince r p since = .ok (cs.map Shown.commit) := by
  have hlog : parseLog (cs.flatMap Shown.text) = cs.map Shown.commit := by
    -- A record starts with its separator, so the log is taken apart from its end.
    induction cs using List.reverseRecOn with
    | nil => rfl
    | append_singleton cs c ih =>
      obtain ⟨hcs, hc⟩ := List.forall_mem_append.1 h
      have hc : c.Proper := hc c (List.mem_singleton_self c)
      rw [List.flatMap_append, List.flatMap_singleton, Shown.text, parseLog_append, ih hcs,
        parseLog_of_notMem hc.separator_notMem_record, hc.parseRecord?_record, List.map_append]
      rfl
  refine ⟨hlog, fun r p since out hrun hexit hout ↦ ?_⟩
  have hread : text out.stdout = cs.flatMap Shown.text := by
    rw [hout]
    exact Utf8.decodeLossy_encode _
  unfold commitsSince
  rw [hrun]
  dsimp only
  rw [if_pos hexit, hread, hlog]

/-- A commit whose date is a day ahead of universal time, then one that changes no file. -/
def twoShown : List Shown :=
  [{ id := ['b', '2']
     author := ['A', 'd', 'a']
     date := ⟨2024, 3, 1, 'T', 0, 30, 0, none, .shifted true 2 0⟩
     summary := ['f', 'i', 'x', fieldSeparator, 'i', 't']
     gap := 1
     files := [['a', ' ', 'b'], ['c', '.', 'p', 'y']] },
   { id := ['a', '1']
     author := ['B', 'o']
     date := ⟨2024, 2, 29, 'T', 12, 0, 0, none, .universal false⟩
     summary := []
     gap := 0
     files := [] }]

theorem log_read_back_two :
    twoShown.flatMap Shown.text =
      "\x1eb2\x1fAda\x1f2024-03-01T00:30:00+02:00\x1ffix\x1fit\n\na b\nc.py\n".toList ++
        "\x1ea1\x1fBo\x1f2024-02-29T12:00:00Z\x1f\n".toList ∧
      commitsSince (fun _ ↦ .ok ⟨Utf8.encode (twoShown.flatMap Shown.text), [], 0⟩) ⟨"."⟩ ⟨0, 0⟩ =
        .ok [⟨"b2", "Ada", ⟨1709245800, 0⟩, "fix\x1fit", ["a b", "c.py"]⟩,
          ⟨"a1", "Bo", ⟨1709208000, 0⟩, "", []⟩] := by
  have hproper : ∀ c ∈ twoShown, c.Proper := by decide +kernel
  refine ⟨rfl, (log_read_back hproper).2 _ _ _ ⟨_, [], 0⟩ ?_ rfl rfl⟩
  rw [run, if_neg]
  · rfl
  · decide +kernel

end History.Git

end Steward
