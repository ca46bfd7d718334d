import Steward.Proofs.FileTree.Canonical
import Steward.Proofs.Triple

/-!
# Trees without links

Where there is no link, a path leads to the place that its text says, `FileTree.place`, or nowhere.
So an operation on a path can change that place only. Putting a file in place as a whole touches the
file and the sibling that is written first, `Disk.Replaced`.
-/

namespace Steward

set_option mvcgen.warning false

open Location

namespace Component

/-- Where a component leads from a place by its text. -/
def move (l : Location) : Component → Location
  | top | here => l
  | up => l.dropLast
  | name n => l ++ [n]

end Component

namespace Path

/-- The components of a text, whatever stands before them. -/
def body (text : String) : List Component := (split text).filterMap componentOf?

theorem ne_lead_of_mem_body {text : String} {c : Component} (h : c ∈ body text) :
    c ≠ .top ∧ c ≠ .here := by
  obtain ⟨s, -, hs⟩ := List.mem_filterMap.1 h
  rw [componentOf?] at hs
  split_ifs at hs <;> cases hs <;> simp

/-- The components are those of the body behind one that stands for the start, if any. -/
theorem exists_components_eq (p : Path) : ∃ lead : List Component,
    p.components = lead ++ body p.text ∧ (∀ c ∈ lead, c = .top ∨ c = .here) ∧
      (p.isAbsolute ↔ .top ∈ lead) := by
  simp only [components]
  split_ifs with habsolute hhere
  · exact ⟨[.top], rfl, by simp, by simp [habsolute]⟩
  · exact ⟨[.here], rfl, by simp, by simp [habsolute]⟩
  · exact ⟨[], rfl, by simp, by simp [habsolute]⟩

end Path

namespace FileTree

variable {t : FileTree} {l : Location} {p : Path}

/-- There is no link on the way to a place or below it. -/
def NoLinks (t : FileTree) (r : Location) : Prop :=
  ∀ l, l <+: r ∨ r <+: l → ∀ target, t.get? l ≠ some (.link target)

/-- Every name in the tree can be a name within a path. -/
def ProperNames (t : FileTree) : Prop := ∀ l e, t.get? l = some e → l.Proper

theorem get?_ne_link_of_entries (h : ∀ x ∈ t.entries, x.2.isDir ∨ x.2.isFile) (l : Location)
    (target : String) : t.get? l ≠ some (.link target) := by
  intro hl
  obtain ⟨-, hdir⟩ | hmem := mem_of_get? hl
  · cases hdir
  · simpa [Entry.isDir, Entry.isFile] using h _ hmem

theorem properNames_of_entries (h : ∀ x ∈ t.entries, x.1.Proper) : t.ProperNames := by
  intro l e hl
  obtain ⟨rfl, -⟩ | hmem := mem_of_get? hl
  · exact proper_nil
  · exact h _ hmem

theorem NoLinks.mono {r : Location} (h : t.NoLinks r) (hl : r <+: l) : t.NoLinks l := by
  rintro k (hk | hk)
  · exact h k (List.prefix_or_prefix_of_prefix hk hl)
  · exact h k (.inr (hl.trans hk))

theorem NoLinks.clear {r : Location} (h : t.NoLinks r) (hl : r <+: l) : t.Clear l :=
  fun k hk ↦ h.mono hl k (.inl hk)

/-! ## Places -/

/-- The place that a path leads to by its text. -/
def place (t : FileTree) (p : Path) : Location := placeFrom (t.startOf p) (steps p.text)

theorem proper_placeFrom {at_ : Location} (hat : at_.Proper) {ss : List String}
    (hss : ∀ s ∈ ss, '/' ∉ s.toList) : (placeFrom at_ ss).Proper := by
  induction ss generalizing at_ with
  | nil => exact hat
  | cons s ss ih =>
    rw [placeFrom, List.foldl_cons]
    refine ih ?_ fun s hs ↦ hss s (List.mem_cons_of_mem _ hs)
    rw [stepTo]
    split_ifs with hdot hup
    · exact hat
    · exact hat.of_isPrefix (List.dropLast_prefix _)
    · rw [proper_append, proper_singleton]
      rw [not_or] at hdot
      exact ⟨hat, hdot.1, hdot.2, hup, hss s List.mem_cons_self⟩

theorem place_path (t : FileTree) (h : l.Proper) : t.place l.path = l := by
  rw [place, startOf, if_pos (isAbsolute_path l), steps_path h, placeFrom_of_proper [] h,
    List.nil_append]

theorem proper_place (t : FileTree) (hp : p.isAbsolute) : (t.place p).Proper := by
  rw [place, startOf, if_pos hp]
  exact proper_placeFrom proper_nil fun s hs ↦ slash_not_mem_of_mem_steps hs

/-- A look-up that meets no link leads where its steps say. -/
theorem look_place {ss : List String} (ht : t.ClearFrom (t.startOf p) ss) {last : LastStep} {s : Spot}
    (h : t.look last p ss = .ok s) :
    s = .entry (placeFrom (t.startOf p) ss) ∨ s = .vacant (placeFrom (t.startOf p) ss) := by
  rw [look_eq_ok_iff, follow_eq_ok_iff] at h
  obtain ⟨-, -, -, h⟩ := h
  cases h with
  | entry h | vacant h => simpa using (h.clear ht).1
  | detour h => obtain ⟨hplace | hplace, -⟩ := h.clear ht <;> cases hplace

theorem spot_place (ht : t.ClearFrom (t.startOf p) (steps p.text)) {last : LastStep} {s : Spot}
    (h : t.spot last p = .ok s) : s = .entry (t.place p) ∨ s = .vacant (t.place p) :=
  look_place ht h

theorem canonical_path {k : Location} (ht : t.Clear l) (hl : l.Proper)
    (h : t.canonical l.path = .ok k) : k = l := by
  have hfollow := (canonical_eq_ok_iff.1 h).1
  rw [steps_path hl] at hfollow
  rcases follow_path ht hl hfollow with ⟨hk, -⟩ | ⟨hk, -⟩ <;> cases hk
  rfl

theorem look_path (ht : t.Clear l) (hl : l.Proper) {last : LastStep} {s : Spot}
    (h : t.look last l.path l = .ok s) :
    '\x00' ∉ l.path.text.toList ∧ isOverlong l.path = false ∧
      (s = .entry l ∧ Real t l ∨ s = .vacant l ∧ l ≠ [] ∧ t.get? l = none) := by
  obtain ⟨hlong, h⟩ := look_eq_ok_iff.1 h
  exact ⟨(follow_eq_ok_iff.1 h).1, hlong, follow_path ht hl h⟩

/-- What is found at the path of a place is the entry there, if it is real. -/
theorem find_path_eq_ok_iff (ht : t.Clear l) (hl : l.Proper) {e : Entry} :
    t.find l.path = .ok e ↔ Real t l ∧ '\x00' ∉ l.path.text.toList ∧ isOverlong l.path = false ∧
      t.get? l = some e := by
  rw [find, locate, spot, steps_path hl]
  constructor
  · intro h
    cases hlook : t.look .followed l.path l with
    | error e => simp [hlook] at h
    | ok s =>
      obtain ⟨hzero, hlong, ⟨rfl, hreal⟩ | ⟨rfl, -⟩⟩ := look_path ht hl hlook
      · cases hget : t.get? l with
        | none => simp [hlook, hget] at h
        | some e' =>
          refine ⟨hreal, hzero, hlong, ?_⟩
          simpa [hlook, hget] using h
      · simp [hlook] at h
  · rintro ⟨hreal, hzero, hlong, hget⟩
    have hlook : t.look .followed l.path l = .ok (.entry l) := by
      rw [look_eq_ok_iff, follow_eq_ok_iff, startOf, if_pos (isAbsolute_path l)]
      exact ⟨hlong, hzero, by simp [path], .entry hreal.advances⟩
    simp [hlook, hget]

theorem get?_of_read (ht : t.Clear l) (hl : l.Proper) {bytes : List UInt8}
    (h : t.read l.path = .ok bytes) : (t.get? l).bind (·.bytes?) = some bytes := by
  rw [read] at h
  cases hfind : t.find l.path with
  | error x => simp [hfind] at h
  | ok e =>
    obtain ⟨-, -, -, hget⟩ := (find_path_eq_ok_iff ht hl).1 hfind
    cases hbytes : e.bytes? with
    | none => simp [hfind, hbytes] at h
    | some bytes' =>
      rw [hget, Option.bind_some, hbytes]
      simpa [hfind, hbytes] using h

theorem Real.isSome (h : Real t l) : (t.get? l).isSome := by
  cases h with
  | top => rfl
  | down _ _ _ _ hget _ => simp [hget]

theorem isDir_path_iff (ht : t.Clear l) (hl : l.Proper) :
    t.isDir l.path ↔ Real t l ∧ '\x00' ∉ l.path.text.toList ∧ isOverlong l.path = false ∧
      t.DirAt l := by
  rw [DirAt, ← find_path_eq_ok_iff ht hl, isDir]
  cases t.find l.path with
  | ok e => cases e <;> simp [Except.toOption, Entry.isDir]
  | error e => simp [Except.toOption]

/-- There is a file at a place. -/
def FileAt (t : FileTree) (l : Location) : Prop := ∃ e, t.get? l = some e ∧ e.isFile

theorem FileAt.not_dirAt (h : t.FileAt l) : ¬t.DirAt l := by
  obtain ⟨e, hget, hfile⟩ := h
  intro hdir
  cases hget.symm.trans hdir
  cases hfile

theorem FileAt.ne_nil (h : t.FileAt l) : l ≠ [] := by
  rintro rfl
  exact h.not_dirAt (get?_nil t)

theorem isFile_of_clear (ht : t.Clear l) {e : Entry} (hget : t.get? l = some e)
    (hdir : ¬t.DirAt l) : e.isFile := by
  cases e with
  | dir => exact absurd hget hdir
  | link target => exact absurd hget (ht l (List.prefix_refl l) target)
  | file | database => rfl

/-! ## Changes -/

/-- From `t` to `t'` only files at places of `S` came, went or changed. -/
structure ChangesOnly (S : Location → Prop) (t t' : FileTree) : Prop where
  workingDir : t'.workingDir = t.workingDir
  others : ∀ q, ¬S q → t'.get? q = t.get? q
  files : ∀ q e, t'.get? q = some e → t.get? q = some e ∨ S q ∧ e.isFile
  dirs : ∀ q, t.DirAt q → t'.DirAt q
  distinct : t.Distinct → t'.Distinct

namespace ChangesOnly

variable {S : Location → Prop} {t t' t'' : FileTree}
variable {l at_ : Location} {ss : List String}

theorem refl (S : Location → Prop) (t : FileTree) : ChangesOnly S t t :=
  ⟨rfl, fun _ _ ↦ rfl, fun _ _ ↦ .inl, fun _ ↦ id, id⟩

theorem trans (h : ChangesOnly S t t') (h' : ChangesOnly S t' t'') : ChangesOnly S t t'' where
  workingDir := h'.workingDir.trans h.workingDir
  others q hq := (h'.others q hq).trans (h.others q hq)
  files q e he := (h'.files q e he).elim (h.files q e) .inr
  dirs q hq := h'.dirs q (h.dirs q hq)
  distinct ht := h'.distinct (h.distinct ht)

/-- It is enough that the places which did change are among some others. -/
theorem mono {S' : Location → Prop} (h : ChangesOnly S t t')
    (hS : ∀ q, S q → t'.get? q ≠ t.get? q → S' q) : ChangesOnly S' t t' where
  workingDir := h.workingDir
  others q hq := by
    by_cases hs : S q
    · exact not_not.1 fun hne ↦ hq (hS q hs hne)
    · exact h.others q hs
  files q e he := by
    refine or_iff_not_imp_left.2 fun hne ↦ ?_
    obtain ⟨hs, hfile⟩ := (h.files q e he).resolve_left hne
    exact ⟨hS q hs fun heq ↦ hne (heq ▸ he), hfile⟩
  dirs := h.dirs
  distinct := h.distinct

/-- A file may come in place of anything but a directory. -/
theorem put {e : Entry} (hl : l ≠ []) (hS : S l) (hdir : ¬t.DirAt l) (he : e.isFile) :
    ChangesOnly S t (t.insert l e) where
  workingDir := rfl
  others q hq := by rw [get?_insert t hl, if_neg fun h : q = l ↦ hq (h ▸ hS)]
  files q e' he' := by
    rw [get?_insert t hl] at he'
    split_ifs at he' with hq
    · cases he'
      exact .inr ⟨hq ▸ hS, he⟩
    · exact .inl he'
  dirs q hq := by
    rw [DirAt, get?_insert t hl, if_neg fun h : q = l ↦ hdir (h ▸ hq)]
    exact hq
  distinct ht := ht.insert l e

theorem insert {e : Entry} (hl : l ≠ []) (hS : S l) (hbefore : ∀ e ∈ t.get? l, e.isFile)
    (he : e.isFile) : ChangesOnly S t (t.insert l e) :=
  put hl hS (fun hdir ↦ by simpa [Entry.isFile] using hbefore .dir hdir) he

theorem erase (hl : l ≠ []) (hS : S l) (hdir : ¬t.DirAt l) : ChangesOnly S t (t.erase l)  where
  workingDir := rfl
  others q hq := by rw [get?_erase t hl, if_neg fun h : q = l ↦ hq (h ▸ hS)]
  files q e he := by
    rw [get?_erase t hl] at he
    split_ifs at he
    exact .inl he
  dirs q hq := by
    rw [DirAt, get?_erase t hl, if_neg]
    · exact hq
    · rintro rfl
      exact hdir hq
  distinct ht := ht.erase l

theorem link (h : ChangesOnly S t t') {target : String} (hl : t.get? l ≠ some (.link target)) :
    t'.get? l ≠ some (.link target) := by
  intro hget
  rcases h.files l _ hget with hget | ⟨-, hfile⟩
  · exact hl hget
  · simp [Entry.isFile] at hfile

theorem clear (h : ChangesOnly S t t') (ht : t.Clear l) : t'.Clear l :=
  fun k hk target ↦ h.link (ht k hk target)

theorem clearFrom (h : ChangesOnly S t t') (ht : t.ClearFrom at_ ss) : t'.ClearFrom at_ ss :=
  fun us hus target ↦ h.link (ht us hus target)

theorem noLinks (h : ChangesOnly S t t') {r : Location} (ht : t.NoLinks r) : t'.NoLinks r :=
  fun k hk target ↦ h.link (ht k hk target)

theorem properNames (h : ChangesOnly S t t') (ht : t.ProperNames) (hS : ∀ q, S q → q.Proper) :
    t'.ProperNames := by
  intro l e hget
  rcases h.files l e hget with hget | ⟨hl, -⟩
  · exact ht l e hget
  · exact hS l hl

theorem place (h : ChangesOnly S t t') (p : Path) : t'.place p = t.place p := by
  simp only [FileTree.place, startOf, h.workingDir]

/-- A real directory stays one. -/
theorem real_dir (h : ChangesOnly S t t') (hreal : Real t l) (hdir : t.DirAt l) : Real t' l := by
  induction hreal with
  | top => exact .top
  | down _ habove hname hslash _ _ ih =>
    exact .down (ih habove) (h.dirs _ habove) hname hslash (h.dirs _ hdir) (by simp)

theorem isDir_path (h : ChangesOnly S t t') (ht : t.Clear l) (hl : l.Proper)
    (hdir : t.isDir l.path) : t'.isDir l.path := by
  rw [isDir_path_iff ht hl] at hdir
  rw [isDir_path_iff (h.clear ht) hl]
  obtain ⟨hreal, hzero, hlong, hdir⟩ := hdir
  exact ⟨h.real_dir hreal hdir, hzero, hlong, h.dirs l hdir⟩

/-- What is a directory now was one before. -/
theorem dirAt_before (h : ChangesOnly S t t') (hl : t'.DirAt l) : t.DirAt l := by
  rcases h.files l _ hl with hl | ⟨-, hfile⟩
  · exact hl
  · cases hfile

/-- A way that meets no link still leads where it did, if there is something. -/
theorem advances_after (h : ChangesOnly S t t') {last : LastStep} {r : Reached}
    (hr : Advances t last at_ ss r) (hclear : t.ClearFrom at_ ss) (hend : r = .entry l) {e : Entry}
    (hget : t'.get? l = some e) (hlink : ∀ target, e ≠ .link target) :
    Advances t' last at_ ss (.entry l) := by
  induction hr with
  | done at_ =>
    cases hend
    exact .done _
  | stay hdir hs _ ih =>
    have hrest := hclear.tail
    rw [stepTo_stay hs] at hrest
    exact .stay (h.dirs _ hdir) hs (ih hrest hend)
  | up hdir _ ih => exact .up (h.dirs _ hdir) (ih hclear.tail hend)
  | free | turn => cases hend
  | keep _ hs hkept =>
    rw [← stepTo_name hs] at hkept
    exact absurd hkept (hclear [_] (by simp) _)
  | @enter at_ s rest r e' hdir hs _ _ hslash next ih =>
    have hrest := hclear.tail
    rw [stepTo_name hs] at hrest
    have hnext := ih hrest hend
    cases next with
    | done =>
      cases hend
      exact .enter (h.dirs _ hdir) hs hget hlink hslash hnext
    | stay hdir' | up hdir' | free hdir' | keep hdir' | turn hdir' | enter hdir' =>
      exact .enter (h.dirs _ hdir) hs (h.dirs _ hdir') (by simp) hslash hnext

end ChangesOnly

/-! ## Paths that lead to a place -/

/-- A path leads to a place by its text, and meets no link on the way. -/
structure Leads (t : FileTree) (p : Path) (l : Location) : Prop where
  place : t.place p = l
  clear : t.ClearFrom (t.startOf p) (steps p.text)

theorem exists_steps_eq (text : String) : ∃ tl, steps text = names text ++ tl ∧ ∀ s ∈ tl, s = "" := by
  rw [steps]
  split_ifs
  · exact ⟨[""], rfl, by simp⟩
  · exact ⟨[], (List.append_nil _).symm, by simp⟩

theorem steps_eq_names {text : String} (h : text.toList.getLast? ≠ some '/') :
    steps text = names text := by
  rw [steps, if_neg]
  intro hend
  rw [Bool.and_eq_true, decide_eq_true_iff, Bool.not_eq_true', List.isEmpty_eq_false_iff] at hend
  obtain ⟨hlast, hne⟩ := hend
  rcases List.eq_nil_or_concat' text.toList with hnil | ⟨cs, c, hcs⟩
  · rw [names, Path.split, hnil] at hne
    exact hne rfl
  · have hc : c ≠ '/' := fun hc ↦ h (by rw [hcs, List.getLast?_concat, hc])
    obtain ⟨ds, hds⟩ := Path.getLast?_splitFrom_concat [] cs hc
    rw [Path.split, hcs, hds] at hlast
    simpa using congrArg String.toList (Option.some_inj.1 hlast)

theorem placeFrom_names (at_ : Location) (text : String) :
    placeFrom at_ (names text) = placeFrom at_ (steps text) := by
  obtain ⟨tl, htl, hempty⟩ := exists_steps_eq text
  rw [htl, placeFrom, placeFrom, List.foldl_append]
  clear htl
  generalize (names text).foldl stepTo at_ = l
  induction tl generalizing l with
  | nil => rfl
  | cons s tl ih =>
    rw [List.foldl_cons, stepTo_stay (.inl (hempty s (by simp)))]
    exact ih (fun s hs ↦ hempty s (List.mem_cons_of_mem _ hs)) l

theorem placeFrom_steps (l : Location) (text : String) :
    placeFrom l (steps text) = (Path.body text).foldl Component.move l := by
  rw [← placeFrom_names, placeFrom, names, Path.body]
  induction Path.split text generalizing l with
  | nil => rfl
  | cons s ss ih =>
    rw [List.filter_cons, List.filterMap_cons]
    by_cases hempty : s = ""
    · subst hempty
      exact ih l
    · rw [if_pos (by simpa using hempty), List.foldl_cons, ih]
      by_cases hhere : s = "."
      · subst hhere
        rfl
      · by_cases hup : s = ".."
        · subst hup
          rfl
        · simp [stepTo, Path.componentOf?, Component.move, hempty, hhere, hup]

/-- Where a path leads is told by its components. -/
theorem place_of_same (t : FileTree) {q : Path} (h : p.same q) : t.place p = t.place q := by
  have hcomponents : p.components = q.components := of_decide_eq_true h
  have hbody (p : Path) : Path.body p.text = p.components.filter (· ∉ [.top, .here]) := by
    obtain ⟨lead, hp, hlead, -⟩ := p.exists_components_eq
    rw [hp, List.filter_append, List.filter_eq_nil_iff.2 fun c hc ↦ by
        simpa [or_iff_not_imp_left] using hlead c hc,
      List.nil_append, eq_comm, List.filter_eq_self]
    exact fun c hc ↦ by simpa using Path.ne_lead_of_mem_body hc
  have habsolute (p : Path) : p.isAbsolute ↔ .top ∈ p.components := by
    obtain ⟨lead, hp, -, hlead⟩ := p.exists_components_eq
    rw [hp, List.mem_append, hlead, iff_self_or]
    exact fun hc ↦ absurd rfl (Path.ne_lead_of_mem_body hc).1
  have hstart : t.startOf p = t.startOf q := by
    rw [startOf, startOf, Bool.eq_iff_iff.2 ((habsolute p).trans (hcomponents ▸ (habsolute q).symm))]
  rw [place, place, placeFrom_steps, placeFrom_steps, hbody, hbody, hcomponents, hstart]

theorem Clear.leads (ht : t.Clear l) (hl : l.Proper) : t.Leads l.path l  where
  place := t.place_path hl
  clear := by
    rw [startOf, if_pos (isAbsolute_path l), steps_path hl]
    exact ht.clearFrom hl

/-- In a tree without any links, every path leads to its place. -/
theorem NoLinks.leads (ht : t.NoLinks []) (p : Path) : t.Leads p (t.place p) :=
  ⟨rfl, fun _ _ ↦ ht _ (.inr List.nil_prefix)⟩

namespace Leads

variable {S : Location → Prop} {t t' : FileTree} {p : Path} {l : Location} {s : Spot}

theorem of_changes (h : t.Leads p l) (h' : ChangesOnly S t t') : t'.Leads p l where
  place := (h'.place p).trans h.place
  clear := by
    rw [startOf, h'.workingDir]
    exact h'.clearFrom h.clear

theorem ne_link (h : t.Leads p l) (target : String) : t.get? l ≠ some (.link target) := by
  rw [← h.place]
  exact h.clear _ (List.prefix_refl _) target

theorem spot (h : t.Leads p l) {last : LastStep} (hs : t.spot last p = .ok s) :
    s = .entry l ∨ s = .vacant l := by
  rw [← h.place]
  exact spot_place h.clear hs

theorem clear_names (h : t.Leads p l) : t.ClearFrom (t.startOf p) (names p.text) := by
  obtain ⟨tl, htl, -⟩ := exists_steps_eq p.text
  exact fun us hus ↦ h.clear us (hus.trans (htl ▸ List.prefix_append _ _))

theorem advances (h : t.Leads p l) (hs : t.spot .followed p = .ok (.entry l)) :
    Advances t .followed (t.startOf p) (steps p.text) (.entry l) := by
  rw [spot_eq_ok_iff] at hs
  cases hs.2.2.2 with
  | entry hr => exact hr
  | detour hr => obtain ⟨hl | hl, -⟩ := hr.clear h.clear <;> cases hl

theorem find_eq_ok (h : t.Leads p l) {e : Entry} (hfind : t.find p = .ok e) :
    t.spot .followed p = .ok (.entry l) ∧ t.get? l = some e := by
  rw [find, locate] at hfind
  cases hspot : t.spot .followed p with
  | error x => simp [hspot] at hfind
  | ok s =>
    obtain rfl | rfl := h.spot hspot
    · rw [hspot] at hfind
      cases hget : t.get? l with
      | none => simp [hget] at hfind
      | some e' => exact ⟨rfl, by simpa [hget] using hfind⟩
    · simp [hspot] at hfind

theorem contains_iff (h : t.Leads p l) :
    t.contains p ↔ t.spot .followed p = .ok (.entry l) ∧ (t.get? l).isSome := by
  rw [contains]
  constructor
  · intro hp
    cases hfind : t.find p with
    | error x => simp [hfind, Except.toOption] at hp
    | ok e =>
      obtain ⟨hspot, hget⟩ := h.find_eq_ok hfind
      exact ⟨hspot, by simp [hget]⟩
  · rintro ⟨hspot, hsome⟩
    obtain ⟨e, hget⟩ := Option.isSome_iff_exists.1 hsome
    simp [find, locate, hspot, hget, Except.toOption]

/-- What a path leads to is found there as long as there is something. -/
theorem contains_of_changes (h : t.Leads p l) (h' : ChangesOnly S t t') (hp : t.contains p)
    (hsome : (t'.get? l).isSome) : t'.contains p := by
  obtain ⟨hspot, -⟩ := h.contains_iff.1 hp
  refine (h.of_changes h').contains_iff.2 ⟨?_, hsome⟩
  obtain ⟨e, hget⟩ := Option.isSome_iff_exists.1 hsome
  have hway := h.advances hspot
  rw [spot_eq_ok_iff] at hspot ⊢
  refine ⟨hspot.1, hspot.2.1, hspot.2.2.1, ?_⟩
  rw [startOf, h'.workingDir]
  refine .entry (h'.advances_after hway h.clear rfl hget fun target hlink ↦ ?_)
  exact (h.of_changes h').ne_link target (hlink ▸ hget)

theorem isDir_iff (h : t.Leads p l) : t.isDir p ↔ t.contains p ∧ t.DirAt l := by
  rw [h.contains_iff, FileTree.isDir_iff]
  constructor
  · rintro ⟨k, hspot, hdir⟩
    obtain rfl := Spot.entry.inj ((h.spot hspot).resolve_right (by simp))
    exact ⟨⟨hspot, by rw [hdir]; rfl⟩, hdir⟩
  · rintro ⟨⟨hspot, -⟩, hdir⟩
    exact ⟨l, hspot, hdir⟩

/-- A directory that a path leads to stays one. -/
theorem isDir_of_changes (h : t.Leads p l) (h' : ChangesOnly S t t') (hdir : t.isDir p) :
    t'.isDir p := by
  obtain ⟨hp, hl⟩ := h.isDir_iff.1 hdir
  have hl' := h'.dirs l hl
  exact (h.of_changes h').isDir_iff.2 ⟨h.contains_of_changes h' hp (by rw [hl']; rfl), hl'⟩

end Leads

end FileTree

namespace Disk

open FileTree Std.Do

variable {S : Location → Prop} {t : FileTree}
variable {p : Path} {l k m : Location}

/-! ## Operations -/

/-- An update puts a file where the path leads, if that place is free or held a file before; or it
does nothing. -/
theorem update_cases (ht : t.ClearFrom (t.startOf p) (steps p.text)) (now : Instant)
    (f : Entry → Entry) :
    (∃ x, update now p f t = .error x t) ∨
      ∃ e, update now p f t = .ok () (t.insert (t.place p) (f e)) ∧ e.isFile ∧ t.place p ≠ [] ∧
        ∀ e' ∈ t.get? (t.place p), e'.isFile := by
  suffices h : ⦃fun s => ⌜s = t⌝⦄ update now p f
      ⦃post⟨fun _ s => ⌜∃ e, s = t.insert (t.place p) (f e) ∧ e.isFile ∧ t.place p ≠ [] ∧
        ∀ e' ∈ t.get? (t.place p), e'.isFile⌝, fun _ s => ⌜s = t⌝⟩⦄ by
    obtain ⟨_, _, hupdate, e, rfl, he⟩ | ⟨x, _, hupdate, rfl⟩ := cases_of_triple h rfl
    · exact .inr ⟨e, hupdate, he⟩
    · exact .inl ⟨x, hupdate⟩
  mvcgen [update, ask]
  case vc1 s hs _ hspot l hl _ =>
    subst hs hl
    obtain ⟨hne, hfree⟩ := look_vacant_inv hspot
    obtain rfl : l = s.place p := by simpa using spot_place ht hspot
    exact ⟨_, rfl, rfl, hne, by simp [hfree]⟩
  case vc2 s hs _ hspot l hl e hget he _ =>
    subst hs hl
    obtain rfl : l = s.place p := by simpa using spot_place ht hspot
    refine ⟨_, rfl, he, ?_, by simpa [hget] using he⟩
    intro htop
    rw [htop, get?_nil] at hget
    cases hget
    simp [Entry.isFile] at he

/-- To remove a file that is found takes it away. -/
theorem removeFile_of_contains (hp : t.Leads p l) (hfound : t.contains p) (hdir : ¬t.DirAt l) :
    removeFile p t = .ok () (t.erase l) := by
  obtain ⟨hspot, -⟩ := hp.contains_iff.1 hfound
  have hkept : t.spot .kept p = .ok (.entry l) := by
    rw [spot_eq_ok_iff] at hspot
    obtain ⟨hlong, hzero, hempty, hwalk⟩ := hspot
    obtain ⟨k, hk⟩ := hwalk.kept
    have hspot : t.spot .kept p = .ok (.entry k) := by
      rw [spot_eq_ok_iff]
      exact ⟨hlong, hzero, hempty, hk⟩
    obtain rfl := Spot.entry.inj ((hp.spot hspot).resolve_right (by simp))
    exact hspot
  simp only [removeFile, bind, EStateM.bind, ask_apply, hkept, get, getThe, MonadStateOf.get,
    EStateM.get, if_neg (mt any_isDir_iff.1 hdir)]
  rfl

/-- From `t` to `t'` the file `e` came to stand at `k`, by way of `m`. The path `p` leads to it, and if
something stood there before, it led to that. -/
structure Replaced (p : Path) (k m : Location) (e : Entry) (t t' : FileTree) : Prop where
  changes : ChangesOnly (fun q => q = k ∨ q = m) t t'
  there : t'.get? k = some e
  before : t.get? k = none ∨ t.contains p
  found : t'.contains p

/-- The directory that a path puts a file in is there already. -/
def Housed (t : FileTree) (p : Path) : Prop :=
  ∀ u ∈ p.parent?, u.text.isEmpty ∨ ∃ l, t.Leads u l ∧ t.isDir u

theorem Housed.of_changes {t' : FileTree} (h : Housed t p) (h' : ChangesOnly S t t') :
    Housed t' p := by
  intro u hu
  refine (h u hu).imp_right ?_
  rintro ⟨l, hl, hdir⟩
  exact ⟨l, hl.of_changes h', hl.isDir_of_changes h' hdir⟩

theorem tempSibling_path {n : String} (h : Proper (l ++ [n])) :
    tempSibling (l ++ [n]).path = (l ++ [n ++ ".tmp"]).path :=
  sibling_path h (by decide) (by decide)

end Disk

end Steward
