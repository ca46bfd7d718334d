import Mathlib
import Steward.FileTree.Disk

/-!
# Looking paths up

A look-up depends on the directories and links that it comes through, and on the files only at its
end. So it survives that a file is written or made, or a directory is made at a free place:
`FileTree.Filled` relates the trees before and after, `FileTree.Filled.spot` carries look-ups over.

The ways to take the last step differ only at a link or a slash at the end. `Disk.isDir_of_makeDirs`
and `Disk.makeDirs_of_isDir` put this to use: directories that have been made once are there, and to
make them again does nothing.
-/

namespace Steward

namespace FileTree

/-! ## Entries -/

section Entries

variable {t : FileTree} {l : Location} {e : Entry}

@[simp]
theorem get?_nil (t : FileTree) : t.get? [] = some .dir := rfl

theorem mem_of_get? (h : t.get? l = some e) : l = [] ∧ e = .dir ∨ (l, e) ∈ t.entries := by
  rw [get?] at h
  split_ifs at h with hnil
  · exact .inl ⟨hnil, (Option.some.inj h).symm⟩
  · obtain ⟨before, after, hentries, -⟩ := List.lookup_eq_some_iff.1 h
    exact .inr (by simp [hentries])

theorem lookup_cons_of_ne {k m : Location} (h : k ≠ m) (e : Entry)
    (entries : List (Location × Entry)) : ((m, e) :: entries).lookup k = entries.lookup k := by
  rw [List.lookup_cons, beq_eq_false_iff_ne.2 h]

theorem lookup_filter_ne (entries : List (Location × Entry)) (l k : Location) :
    (entries.filter (·.1 != l)).lookup k = if k = l then none else entries.lookup k := by
  induction entries with
  | nil => simp
  | cons e entries ih =>
    obtain ⟨m, e⟩ := e
    by_cases hm : m = l
    · subst hm
      rw [List.filter_cons_of_neg (by simp), ih]
      split_ifs with hk
      · rfl
      · rw [lookup_cons_of_ne hk]
    · rw [List.filter_cons_of_pos (by simpa using hm)]
      by_cases hk : k = m
      · subst hk
        simp [hm]
      · rw [lookup_cons_of_ne hk, lookup_cons_of_ne hk, ih]

theorem get?_insert (t : FileTree) (hl : l ≠ []) (e : Entry) (k : Location) :
    (t.insert l e).get? k = if k = l then some e else t.get? k := by
  by_cases hk : k = l
  · subst hk
    simp [get?, insert, hl]
  · simp only [get?, insert, lookup_cons_of_ne hk, lookup_filter_ne, hk, if_false]

theorem get?_erase (t : FileTree) (hl : l ≠ []) (k : Location) :
    (t.erase l).get? k = if k = l then none else t.get? k := by
  by_cases hk : k = l
  · subst hk
    simp [get?, erase, hl, lookup_filter_ne]
  · simp [get?, erase, hk, lookup_filter_ne]

/-- No two entries stand at one place. -/
def Distinct (t : FileTree) : Prop := (t.entries.map Prod.fst).Nodup

instance (t : FileTree) : Decidable t.Distinct :=
  inferInstanceAs (Decidable (t.entries.map Prod.fst).Nodup)

theorem Distinct.get?_eq_some_iff (h : t.Distinct) (hl : l ≠ []) :
    t.get? l = some e ↔ (l, e) ∈ t.entries := by
  constructor
  · intro hget
    exact (mem_of_get? hget).resolve_left fun htop ↦ hl htop.1
  · intro hmem
    cases hget : t.get? l with
    | none =>
      rw [get?, if_neg hl, List.lookup_eq_none_iff] at hget
      simpa using hget _ hmem
    | some e' =>
      have hmem' := (mem_of_get? hget).resolve_left fun htop ↦ hl htop.1
      cases List.inj_on_of_nodup_map h hmem' hmem rfl
      rfl

theorem Distinct.erase (h : t.Distinct) (l : Location) : (t.erase l).Distinct :=
  h.sublist (List.filter_sublist.map _)

theorem Distinct.insert (h : t.Distinct) (l : Location) (e : Entry) : (t.insert l e).Distinct := by
  refine List.nodup_cons.2 ⟨?_, h.erase l⟩
  simp

end Entries

/-! ## Walks that succeed -/

/-- There is a directory at a place. -/
def DirAt (t : FileTree) (l : Location) : Prop := t.get? l = some .dir

instance (t : FileTree) (l : Location) : Decidable (t.DirAt l) :=
  inferInstanceAs (Decidable (t.get? l = some .dir))

/-- A step that goes down: a name, and not too long. -/
structure IsName (s : String) : Prop where
  ne_empty : s ≠ ""
  ne_here : s ≠ "."
  ne_up : s ≠ ".."
  short : s.utf8ByteSize ≤ maxName

/-- What `advance` does when it succeeds. -/
inductive Advances (t : FileTree) (last : LastStep) : Location → List String → Reached → Prop where
  | done (at_ : Location) : Advances t last at_ [] (.entry at_)
  | stay {at_ s rest r} (hdir : t.DirAt at_) (hs : s = "" ∨ s = ".")
      (next : Advances t last at_ rest r) : Advances t last at_ (s :: rest) r
  | up {at_ rest r} (hdir : t.DirAt at_) (next : Advances t last at_.dropLast rest r) :
      Advances t last at_ (".." :: rest) r
  | free {at_ s} (hdir : t.DirAt at_) (hs : IsName s) (hget : t.get? (at_ ++ [s]) = none) :
      Advances t last at_ [s] (.vacant (at_ ++ [s]))
  | keep {at_ s target} (hdir : t.DirAt at_) (hs : IsName s)
      (hget : t.get? (at_ ++ [s]) = some (.link target)) (hlast : last = .kept) :
      Advances t last at_ [s] (.entry (at_ ++ [s]))
  | turn {at_ s rest target} (hdir : t.DirAt at_) (hs : IsName s)
      (hget : t.get? (at_ ++ [s]) = some (.link target)) (hrest : rest = [] → last ≠ .kept)
      (hslash : last = .written → rest ≠ [""]) :
      Advances t last at_ (s :: rest) (.detour at_ target rest)
  | enter {at_ s rest r e} (hdir : t.DirAt at_) (hs : IsName s)
      (hget : t.get? (at_ ++ [s]) = some e) (he : ∀ target, e ≠ .link target)
      (hslash : last = .written → rest ≠ [""]) (next : Advances t last (at_ ++ [s]) rest r) :
      Advances t last at_ (s :: rest) r

section Advances

variable {t : FileTree} {l at_ : Location} {last : LastStep} {ss : List String}

theorem any_isDir_iff : (t.get? l).any (·.isDir) = true ↔ t.DirAt l := by
  rw [DirAt, Option.any_eq_true]
  constructor
  · rintro ⟨e, he, hdir⟩
    cases e with
    | dir => exact he
    | file | link | database => cases hdir
  · exact fun h ↦ ⟨.dir, h, rfl⟩

theorem advance_name {s : String} {rest : List String} (hdir : t.DirAt at_) (hs : IsName s)
    (hslash : last = .written → rest ≠ [""]) :
    t.advance last at_ (s :: rest) =
      match t.get? (at_ ++ [s]) with
      | none => if rest.isEmpty then .ok (.vacant (at_ ++ [s])) else .error .notFound
      | some (.link target) =>
        if rest.isEmpty && last = .kept then .ok (.entry (at_ ++ [s]))
        else .ok (.detour at_ target rest)
      | some _ => t.advance last (at_ ++ [s]) rest := by
  refine (if_pos (any_isDir_iff.2 hdir)).trans ?_
  refine (if_neg (by simp [hs.ne_empty, hs.ne_here])).trans ?_
  refine (if_neg hs.ne_up).trans ?_
  refine (if_neg (by simpa using hslash)).trans ?_
  exact if_neg (not_lt.2 hs.short)

theorem advance_eq_ok_iff {r : Reached} :
    t.advance last at_ ss = .ok r ↔ Advances t last at_ ss r := by
  have isName {s : String} (hdots : ¬(s = "" || s = ".") = true) (hup : s ≠ "..")
      (hlong : ¬maxName < s.utf8ByteSize) : IsName s := by
    rw [Bool.or_eq_true, not_or, decide_eq_true_iff, decide_eq_true_iff] at hdots
    exact ⟨hdots.1, hdots.2, hup, not_lt.1 hlong⟩
  constructor
  · intro h
    fun_induction FileTree.advance t last at_ ss with
    | case1 at_ =>
      cases h
      exact .done at_
    | case2 at_ s rest hdir hs ih => exact .stay (any_isDir_iff.1 hdir) (by simpa using hs) (ih h)
    | case3 at_ rest hdir hs ih => exact .up (any_isDir_iff.1 hdir) (ih h)
    | case4 => cases h
    | case5 => cases h
    | case6 at_ s rest hdir hdots hup hslash hlong hget hrest =>
      cases h
      rw [List.isEmpty_iff.1 hrest]
      exact .free (any_isDir_iff.1 hdir) (isName hdots hup hlong) hget
    | case7 => cases h
    | case8 at_ s rest hdir hdots hup hslash hlong target hget hkept =>
      cases h
      obtain ⟨hrest, hlast⟩ := Bool.and_eq_true_iff.1 hkept
      rw [List.isEmpty_iff.1 hrest]
      exact .keep (any_isDir_iff.1 hdir) (isName hdots hup hlong) hget (of_decide_eq_true hlast)
    | case9 at_ s rest hdir hdots hup hslash hlong target hget hkept =>
      cases h
      exact .turn (any_isDir_iff.1 hdir) (isName hdots hup hlong) hget (by simpa using hkept)
        (by simpa using hslash)
    | case10 at_ s rest hdir hdots hup hslash hlong e he hget ih =>
      exact .enter (any_isDir_iff.1 hdir) (isName hdots hup hlong) hget he (by simpa using hslash)
        (ih h)
    | case11 => cases h
    | case12 => cases h
  · intro h
    induction h with
    | done at_ => rfl
    | stay hdir hs next ih =>
      rw [FileTree.advance, if_pos (any_isDir_iff.2 hdir), if_pos (by simpa using hs), ih]
    | up hdir next ih =>
      rw [FileTree.advance, if_pos (any_isDir_iff.2 hdir), if_neg (by decide), if_pos rfl, ih]
    | free hdir hs hget => rw [advance_name hdir hs (by simp), hget]; rfl
    | keep hdir hs hget hlast => rw [advance_name hdir hs (by simp), hget]; simp [hlast]
    | turn hdir hs hget hrest hslash =>
      rw [advance_name hdir hs hslash, hget]
      simpa using hrest
    | enter hdir hs hget he hslash next ih =>
      rw [advance_name hdir hs hslash, hget]
      split <;> simp_all

end Advances

/-- What `walk` does when it succeeds. -/
inductive Walks (t : FileTree) (last : LastStep) :
    Nat → Location → List String → Spot → Prop where
  | entry {links at_ ss l} (h : Advances t last at_ ss (.entry l)) :
      Walks t last links at_ ss (.entry l)
  | vacant {links at_ ss l} (h : Advances t last at_ ss (.vacant l)) :
      Walks t last links at_ ss (.vacant l)
  | detour {links at_ ss from_ target rest s}
      (h : Advances t last at_ ss (.detour from_ target rest))
      (next : Walks t last links (if (Path.mk target).isAbsolute then [] else from_)
        (steps target ++ rest) s) : Walks t last (links + 1) at_ ss s

variable {t : FileTree} {l at_ : Location} {e : Entry} {last : LastStep} {ss : List String}
  {s : Spot} {p : Path} {links : Nat}

theorem walk_eq_ok_iff :
    t.walk last links at_ ss = .ok s ↔ Walks t last links at_ ss s := by
  constructor
  · intro h
    fun_induction FileTree.walk t last links at_ ss with
    | case1 => cases h
    | case2 links at_ ss l hl =>
      cases h
      exact .entry (advance_eq_ok_iff.1 hl)
    | case3 links at_ ss l hl =>
      cases h
      exact .vacant (advance_eq_ok_iff.1 hl)
    | case4 => cases h
    | case5 at_ ss from_ target rest hl links ih => exact .detour (advance_eq_ok_iff.1 hl) (ih h)
  · intro h
    induction h with
    | entry h | vacant h => rw [FileTree.walk, advance_eq_ok_iff.2 h]
    | detour h next ih => rw [FileTree.walk, advance_eq_ok_iff.2 h]; exact ih

theorem Advances.vacant_inv (h : Advances t last at_ ss (.vacant l)) :
    l ≠ [] ∧ t.get? l = none := by
  generalize hr : Reached.vacant l = r at h
  induction h with
  | done | keep | turn => cases hr
  | stay _ _ _ ih | up _ _ ih | enter _ _ _ _ _ _ ih => exact ih hr
  | free hdir hs hget =>
    cases hr
    exact ⟨by simp, hget⟩

/-- A free place is not the top, and free. -/
theorem Walks.vacant_inv (h : Walks t last links at_ ss (.vacant l)) :
    l ≠ [] ∧ t.get? l = none := by
  generalize hs : Spot.vacant l = s at h
  induction h with
  | entry => cases hs
  | vacant h =>
    cases hs
    exact h.vacant_inv
  | detour _ _ ih => exact ih hs

/-- The place where the look-up of a path starts. -/
def startOf (t : FileTree) (p : Path) : Location := if p.isAbsolute then [] else t.workingDir

theorem follow_eq_ok_iff :
    t.follow last p ss = .ok s ↔
      '\x00' ∉ p.text.toList ∧ ¬p.text.isEmpty ∧ Walks t last maxLinks (t.startOf p) ss s := by
  rw [follow, ← startOf]
  split_ifs with hzero hempty
  · simp_all
  · simp_all
  · rw [walk_eq_ok_iff]
    simp_all

theorem look_eq_ok_iff :
    t.look last p ss = .ok s ↔ isOverlong p = false ∧ t.follow last p ss = .ok s := by
  rw [look]
  split_ifs with h
  · simp_all
  · rw [Bool.and_eq_true, not_and] at h
    refine ⟨fun hs ↦ ⟨?_, hs⟩, And.right⟩
    have hzero : '\x00' ∉ p.text.toList := (follow_eq_ok_iff.1 hs).1
    simpa [hzero] using h

theorem spot_eq_ok_iff :
    t.spot last p = .ok s ↔ isOverlong p = false ∧ '\x00' ∉ p.text.toList ∧ ¬p.text.isEmpty ∧
      Walks t last maxLinks (t.startOf p) (steps p.text) s := by
  rw [spot, look_eq_ok_iff, follow_eq_ok_iff]

theorem spotOfName_eq_ok_iff :
    t.spotOfName p = .ok s ↔ isOverlong p = false ∧ '\x00' ∉ p.text.toList ∧ ¬p.text.isEmpty ∧
      Walks t .kept maxLinks (t.startOf p) (names p.text) s := by
  rw [spotOfName, look_eq_ok_iff, follow_eq_ok_iff]

theorem look_vacant_inv (h : t.look last p ss = .ok (.vacant l)) : l ≠ [] ∧ t.get? l = none := by
  rw [look_eq_ok_iff, follow_eq_ok_iff] at h
  exact h.2.2.2.vacant_inv

theorem isDir_iff : t.isDir p ↔ ∃ l, t.spot .followed p = .ok (.entry l) ∧ t.DirAt l := by
  rw [isDir, Option.any_eq_true, find, locate]
  constructor
  · rintro ⟨e, he, hdir⟩
    split at he
    · cases he
    · rename_i l hl
      split at hl
      · cases hl
      · cases hl
        refine ⟨l, ‹_›, any_isDir_iff.1 ?_⟩
        split at he
        · rename_i hget
          cases he
          rw [hget]
          exact hdir
        · cases he
      · cases hl
  · rintro ⟨l, hl, hdir⟩
    refine ⟨.dir, ?_, rfl⟩
    rw [hl]
    simp only [show t.get? l = some .dir from hdir]
    rfl

/-! ## Directories and links that stay -/

/-- The directories and links of `t` are in `t'` too. -/
structure Steers (t t' : FileTree) : Prop where
  workingDir : t'.workingDir = t.workingDir
  dirs : ∀ q, t.DirAt q → t'.DirAt q
  links : ∀ q target, t.get? q = some (.link target) → t'.get? q = some (.link target)

def Spot.reached : Spot → Reached
  | .entry l => .entry l
  | .vacant l => .vacant l

/-- What steps led to in `t` stands in `t'`, or something that is no link has come there. -/
inductive Stands (t t' : FileTree) : Reached → Reached → Prop where
  | entry {k} (h : ∀ e, t.get? k = some e →
      ∃ e', t'.get? k = some e' ∧ (e' = e ∨ ∀ target, e' ≠ .link target)) :
      Stands t t' (.entry k) (.entry k)
  | vacant {k} (h : t'.get? k = none) : Stands t t' (.vacant k) (.vacant k)
  | filled {k e'} (h : t'.get? k = some e') (he : ∀ target, e' ≠ .link target) :
      Stands t t' (.vacant k) (.entry k)
  | detour {from_ target rest} :
      Stands t t' (.detour from_ target rest) (.detour from_ target rest)

section Steers

variable {t' : FileTree}

theorem Stands.of_eq (h : t'.get? l = t.get? l) : Stands t t' (.entry l) (.entry l) :=
  .entry fun e he ↦ ⟨e, h.trans he, .inl rfl⟩

theorem Advances.of_steers (h : Steers t t') {r r' : Reached} (hr : Advances t last at_ ss r)
    (hends : Stands t t' r r') : Advances t' last at_ ss r' := by
  induction hr with
  | done at_ =>
    cases hends
    exact .done at_
  | stay hdir hs _ ih => exact .stay (h.dirs _ hdir) hs (ih hends)
  | up hdir _ ih => exact .up (h.dirs _ hdir) (ih hends)
  | free hdir hs _ =>
    cases hends with
    | vacant hget => exact .free (h.dirs _ hdir) hs hget
    | filled hget he => exact .enter (h.dirs _ hdir) hs hget he (by simp) (.done _)
  | keep hdir hs hget hlast =>
    cases hends
    exact .keep (h.dirs _ hdir) hs (h.links _ _ hget) hlast
  | turn hdir hs hget hrest hslash =>
    cases hends
    exact .turn (h.dirs _ hdir) hs (h.links _ _ hget) hrest hslash
  | @enter at_ s rest r e hdir hs hget he hslash next ih =>
    -- What is entered is at the end of the way or a directory.
    obtain ⟨e', hget', he'⟩ :
        ∃ e', t'.get? (at_ ++ [s]) = some e' ∧ ∀ target, e' ≠ .link target := by
      cases next with
      | done =>
        obtain ⟨hend⟩ := hends
        obtain ⟨e', hget', rfl | he'⟩ := hend e hget
        · exact ⟨e', hget', he⟩
        · exact ⟨e', hget', he'⟩
      | stay hdir | up hdir | free hdir | keep hdir | turn hdir | enter hdir =>
        exact ⟨.dir, h.dirs _ hdir, by simp⟩
    exact .enter (h.dirs _ hdir) hs hget' he' hslash (ih hends)

theorem Walks.of_steers (h : Steers t t') {s' : Spot} (hs : Walks t last links at_ ss s)
    (hends : Stands t t' s.reached s'.reached) : Walks t' last links at_ ss s' := by
  induction hs with
  | entry hr | vacant hr =>
    have hr' := hr.of_steers h hends
    cases s' with
    | entry => exact .entry hr'
    | vacant => exact .vacant hr'
  | detour hr _ ih => exact .detour (hr.of_steers h .detour) (ih hends)

theorem look_of_steers (h : Steers t t') {s' : Spot} (hs : t.look last p ss = .ok s)
    (hends : Stands t t' s.reached s'.reached) : t'.look last p ss = .ok s' := by
  rw [look_eq_ok_iff, follow_eq_ok_iff, startOf] at hs ⊢
  rw [h.workingDir]
  exact ⟨hs.1, hs.2.1, hs.2.2.1, hs.2.2.2.of_steers h hends⟩

end Steers

/-! ## Filling a place -/

/-- The tree `t'` is `t` but for an entry, no link, at a place that was free or held a file. -/
structure Filled (t t' : FileTree) (l : Location) : Prop where
  workingDir : t'.workingDir = t.workingDir
  others : ∀ k, k ≠ l → t'.get? k = t.get? k
  before : ∀ e ∈ t.get? l, e.isFile
  after : ∃ e, t'.get? l = some e ∧ ∀ target, e ≠ .link target

/-- Where a look-up leads once a free place is filled. -/
def Spot.filled (l : Location) : Spot → Spot
  | .vacant k => if k = l then .entry k else .vacant k
  | s => s

theorem filled_insert (hl : l ≠ []) (hbefore : ∀ e ∈ t.get? l, e.isFile)
    (he : ∀ target, e ≠ .link target) : Filled t (t.insert l e) l  where
  workingDir := rfl
  others k hk := by rw [get?_insert t hl, if_neg hk]
  before := hbefore
  after := ⟨e, by rw [get?_insert t hl, if_pos rfl], he⟩

namespace Filled

variable {t' : FileTree}

theorem dirAt (h : Filled t t' l) {k : Location} (hk : t.DirAt k) : t'.DirAt k := by
  rw [DirAt, h.others k, hk]
  rintro rfl
  cases h.before _ hk

theorem steers (h : Filled t t' l) : Steers t t' where
  workingDir := h.workingDir
  dirs _ hk := h.dirAt hk
  links k target hk := by
    rw [h.others k, hk]
    rintro rfl
    cases h.before _ hk

/-- A look-up leads to the same place once another is filled. -/
theorem spot (h : Filled t t' l) (hs : t.spot last p = .ok s) :
    t'.spot last p = .ok (s.filled l) := by
  refine look_of_steers h.steers hs ?_
  obtain ⟨e, he, hlink⟩ := h.after
  cases s with
  | entry k =>
    refine .entry fun e' he' ↦ ?_
    by_cases hk : k = l
    · exact ⟨e, hk ▸ he, .inr hlink⟩
    · exact ⟨e', (h.others k hk).trans he', .inl rfl⟩
  | vacant k =>
    rw [Spot.filled]
    split_ifs with hk
    · exact .filled (hk ▸ he) hlink
    · exact .vacant ((h.others k hk).trans (look_vacant_inv hs).2)

theorem isDir (h : Filled t t' l) (hp : t.isDir p) : t'.isDir p := by
  obtain ⟨k, hk, hdir⟩ := isDir_iff.1 hp
  exact isDir_iff.2 ⟨k, h.spot hk, h.dirAt hdir⟩

end Filled

/-! ## The last step -/

section LastStep

open List

variable {r : Reached} {k : Location} {us : List String} {sp : Spot}

/-- Only at a link at the end does it matter whether links are followed there. -/
theorem Advances.followed (h : Advances t last at_ ss r) (hr : last = .kept → ∀ l, r ≠ .entry l) :
    Advances t .followed at_ ss r := by
  induction h with
  | done at_ => exact .done at_
  | stay hdir hs next ih => exact .stay hdir hs (ih hr)
  | up hdir next ih => exact .up hdir (ih hr)
  | free hdir hs hget => exact .free hdir hs hget
  | keep hdir hs hget hlast => exact absurd rfl (hr hlast _)
  | turn hdir hs hget hrest hslash => exact .turn hdir hs hget (by simp) (by simp)
  | enter hdir hs hget he hslash next ih => exact .enter hdir hs hget he (by simp) (ih hr)

theorem Walks.followed (h : Walks t last links at_ ss s) (hs : last = .kept → ∀ l, s ≠ .entry l) :
    Walks t .followed links at_ ss s := by
  induction h with
  | entry h => exact .entry (h.followed (by simpa using hs))
  | vacant h => exact .vacant (h.followed (by simp))
  | detour h next ih => exact .detour (h.followed (by simp)) (ih hs)

/-- Where a file can be written, it is read. -/
theorem spot_followed_of_written (h : t.spot .written p = .ok s) :
    t.spot .followed p = .ok s := by
  rw [spot_eq_ok_iff] at h ⊢
  exact ⟨h.1, h.2.1, h.2.2.1, h.2.2.2.followed (by simp)⟩

/-- Where links are followed to an entry, one is named. -/
theorem Advances.kept (h : Advances t .followed at_ ss r) :
    Advances t .kept at_ ss r ∨ ∃ k, Advances t .kept at_ ss (.entry k) := by
  induction h with
  | done at_ => exact .inl (.done at_)
  | stay hdir hs _ ih => exact ih.imp (.stay hdir hs) (.imp fun _ ↦ .stay hdir hs)
  | up hdir _ ih => exact ih.imp (.up hdir) (.imp fun _ ↦ .up hdir)
  | free hdir hs hget => exact .inl (.free hdir hs hget)
  | keep _ _ _ hlast => cases hlast
  | @turn at_ s rest target hdir hs hget _ _ =>
    by_cases hrest : rest = []
    · subst hrest
      exact .inr ⟨_, .keep hdir hs hget rfl⟩
    · exact .inl (.turn hdir hs hget (absurd · hrest) (by simp))
  | enter hdir hs hget he _ _ ih =>
    exact ih.imp (.enter hdir hs hget he (by simp)) (.imp fun _ ↦ .enter hdir hs hget he (by simp))

theorem Walks.kept (h : Walks t .followed links at_ ss (.entry l)) :
    ∃ k, Walks t .kept links at_ ss (.entry k) := by
  generalize hs : Spot.entry l = s at h
  induction h with
  | entry h => exact h.kept.elim (⟨_, .entry ·⟩) (.imp fun _ ↦ .entry)
  | vacant => cases hs
  | detour h next ih =>
    exact h.kept.elim (fun h ↦ (ih hs).imp fun _ ↦ .detour h) (.imp fun _ ↦ .entry)

/-! ## Ways in two parts -/

/-- Steps that others can be taken before: either the last step is taken as all are, or it is among
these and not just a slash. -/
def Closes (last : LastStep) (us : List String) : Prop := last = .followed ∨ us ≠ [] ∧ us ≠ [""]

theorem closes_followed (us : List String) : Closes .followed us := .inl rfl

theorem closes_singleton (last : LastStep) {s : String} (hs : s ≠ "") : Closes last [s] :=
  .inr ⟨cons_ne_nil s [], fun h ↦ hs (singleton_inj.1 h)⟩

theorem Closes.append_ne_slash (h : Closes last us) (rest : List String) (hlast : last = .written) :
    rest ++ us ≠ [""] := by
  rcases h with rfl | ⟨hnil, hslash⟩
  · cases hlast
  · cases rest with
    | nil => exact hslash
    | cons s rest => simp [hnil]

theorem Closes.append_ne_nil (h : Closes last us) (rest : List String) (hrest : rest ++ us = []) :
    last ≠ .kept := by
  rcases h with rfl | ⟨hnil, -⟩
  · simp
  · exact absurd (append_eq_nil_iff.1 hrest).2 hnil

theorem Advances.trans (hus : Closes last us) (h : Advances t .followed at_ ss (.entry k))
    (h' : Advances t last k us r) : Advances t last at_ (ss ++ us) r := by
  generalize hk : Reached.entry k = q at h
  induction h with
  | done at_ =>
    cases hk
    exact h'
  | stay hdir hs next ih => exact .stay hdir hs (ih hk)
  | up hdir next ih => exact .up hdir (ih hk)
  | free hdir hs hget => cases hk
  | keep hdir hs hget hlast => cases hlast
  | turn hdir hs hget hrest hslash => cases hk
  | enter hdir hs hget he hslash next ih =>
    exact .enter hdir hs hget he (hus.append_ne_slash _) (ih hk)

theorem Advances.append_detour {from_ : Location} {rest : List String} {target : String}
    (hus : Closes last us) (h : Advances t .followed at_ ss (.detour from_ target rest)) :
    Advances t last at_ (ss ++ us) (.detour from_ target (rest ++ us)) := by
  generalize hr : Reached.detour from_ target rest = r at h
  induction h with
  | done at_ => cases hr
  | stay hdir hs next ih => exact .stay hdir hs (ih hr)
  | up hdir next ih => exact .up hdir (ih hr)
  | free hdir hs hget => cases hr
  | keep hdir hs hget hlast => cases hlast
  | turn hdir hs hget hrest hslash =>
    cases hr
    exact .turn hdir hs hget (hus.append_ne_nil _) (hus.append_ne_slash _)
  | enter hdir hs hget he hslash next ih =>
    exact .enter hdir hs hget he (hus.append_ne_slash _) (ih hr)

/-- Steps with others behind them come to where those are taken, or to a link before. -/
theorem Advances.split (hus : us ≠ []) (h : Advances t last at_ (ss ++ us) r) :
    (∃ k, Advances t .followed at_ ss (.entry k) ∧ Advances t last k us r) ∨
      ∃ from_ target rest, r = .detour from_ target (rest ++ us) ∧
        Advances t .followed at_ ss (.detour from_ target rest) := by
  induction ss generalizing at_ with
  | nil => exact .inl ⟨at_, .done at_, h⟩
  | cons s ss ih =>
    rw [cons_append] at h
    generalize hall : ss ++ us = all at h
    cases h with
    | stay hdir hs next =>
      subst hall
      obtain ⟨k, hk, hlast⟩ | ⟨f, target, rest, hr, hk⟩ := ih next
      · exact .inl ⟨k, .stay hdir hs hk, hlast⟩
      · exact .inr ⟨f, target, rest, hr, .stay hdir hs hk⟩
    | up hdir next =>
      subst hall
      obtain ⟨k, hk, hlast⟩ | ⟨f, target, rest, hr, hk⟩ := ih next
      · exact .inl ⟨k, .up hdir hk, hlast⟩
      · exact .inr ⟨f, target, rest, hr, .up hdir hk⟩
    | free | keep => exact absurd (append_eq_nil_iff.1 hall).2 hus
    | turn hdir hs hget =>
      subst hall
      exact .inr ⟨_, _, ss, rfl, .turn hdir hs hget (by simp) (by simp)⟩
    | enter hdir hs hget he hslash next =>
      subst hall
      obtain ⟨k, hk, hlast⟩ | ⟨f, target, rest, hr, hk⟩ := ih next
      · exact .inl ⟨k, .enter hdir hs hget he (by simp) hk, hlast⟩
      · exact .inr ⟨f, target, rest, hr, .enter hdir hs hget he (by simp) hk⟩

/-- More links may be followed than there are. -/
theorem Walks.mono {n m : Nat} (h : Walks t last n at_ ss sp) (hm : n ≤ m) :
    Walks t last m at_ ss sp := by
  induction h generalizing m with
  | entry h => exact .entry h
  | vacant h => exact .vacant h
  | detour h next ih =>
    obtain ⟨m, rfl⟩ : ∃ i, m = i + 1 := ⟨m - 1, by omega⟩
    exact .detour h (ih (by omega))

/-- A way can be taken in two parts, and each follows some of the links. -/
theorem Walks.split (hus : us ≠ []) (h : Walks t last links at_ (ss ++ us) sp) :
    ∃ k n m, n + m = links ∧ Walks t .followed n at_ ss (.entry k) ∧ Walks t last m k us sp := by
  generalize hall : ss ++ us = all at h
  induction h generalizing ss with
  | @entry links at_ all l h =>
    subst hall
    obtain ⟨k, hk, hlast⟩ | ⟨_, _, _, hr, -⟩ := h.split hus
    · exact ⟨k, 0, links, Nat.zero_add _, .entry hk, .entry hlast⟩
    · cases hr
  | @vacant links at_ all l h =>
    subst hall
    obtain ⟨k, hk, hlast⟩ | ⟨_, _, _, hr, -⟩ := h.split hus
    · exact ⟨k, 0, links, Nat.zero_add _, .entry hk, .vacant hlast⟩
    · cases hr
  | @detour links at_ all f target rest sp h next ih =>
    subst hall
    obtain ⟨k, hk, hlast⟩ | ⟨_, _, rest, hr, hk⟩ := h.split hus
    · exact ⟨k, 0, links + 1, Nat.zero_add _, .entry hk, .detour hlast next⟩
    · cases hr
      obtain ⟨k, n, m, hnm, hk', hlast⟩ := ih (append_assoc _ _ _)
      exact ⟨k, n + 1, m, by omega, .detour hk hk', hlast⟩

theorem Walks.of_append (h : Walks t .followed links at_ (ss ++ us) (.entry l)) :
    ∃ k, Walks t .followed links at_ ss (.entry k) := by
  by_cases hus : us = []
  · exact ⟨l, by simpa [hus] using h⟩
  · obtain ⟨k, n, m, hlinks, hk, -⟩ := h.split hus
    exact ⟨k, hk.mono (by omega)⟩

/-- Two ways are taken one after the other, and follow the links of both. -/
theorem Walks.trans {n m : Nat} (hus : Closes last us) (h : Walks t .followed n at_ ss (.entry k))
    (h' : Walks t last m k us sp) : Walks t last (n + m) at_ (ss ++ us) sp := by
  generalize hk : Spot.entry k = sq at h
  induction h with
  | entry h =>
    cases hk
    cases h' with
    | entry h' => exact .entry (.trans hus h h')
    | vacant h' => exact .vacant (.trans hus h h')
    | detour h' next => exact .detour (.trans hus h h') (next.mono (Nat.le_add_left _ _))
  | vacant => cases hk
  | @detour n at_ ss f target rest sq h next ih =>
    rw [Nat.add_right_comm]
    refine .detour (.append_detour hus h) ?_
    rw [← append_assoc]
    exact ih hk

/-- A slash at the end asks for a directory. -/
theorem Walks.append_slash (h : Walks t .followed links at_ ss (.entry l)) (hdir : t.DirAt l) :
    Walks t .followed links at_ (ss ++ [""]) (.entry l) :=
  Walks.trans (m := 0) (closes_followed _) h (.entry (.stay hdir (.inl rfl) (.done l)))

end LastStep

end FileTree

/-! ## Directories that are made -/

namespace Disk

open FileTree

variable {p : Path} {t t' : FileTree}

theorem ask_apply {α : Type} (f : FileTree → Except IoError α) (t : FileTree) :
    ask f t = match f t with
      | .ok a => .ok a t
      | .error e => .error e t := by
  simp only [ask, bind, EStateM.bind, get, getThe, MonadStateOf.get, EStateM.get]
  cases f t <;> rfl

theorem makeDir_apply (p : Path) (t : FileTree) :
    makeDir p t = match t.spotOfName p with
      | .ok (.vacant l) => .ok () (t.insert l .dir)
      | .ok (.entry _) => .error .alreadyExists t
      | .error e => .error e t := by
  simp only [makeDir, bind, EStateM.bind, ask_apply]
  rcases t.spotOfName p with e | ⟨l⟩ | ⟨l⟩ <;> rfl

/-- A directory that was made is there. -/
theorem isDir_of_makeDir (h : makeDir p t = .ok () t') : t'.isDir p := by
  rw [makeDir_apply] at h
  split at h
  · rename_i l hl
    cases h
    rw [spotOfName_eq_ok_iff] at hl
    obtain ⟨hlong, hzero, hempty, hl⟩ := hl
    obtain ⟨hne, hfree⟩ := hl.vacant_inv
    have hdir : (t.insert l .dir).DirAt l := by rw [DirAt, get?_insert t hne, if_pos rfl]
    have hfilled : Filled t (t.insert l .dir) l := filled_insert hne (by simp [hfree]) (by simp)
    have hwalk : Walks (t.insert l .dir) .followed maxLinks (t.startOf p) (names p.text)
        (.entry l) :=
      (hl.followed (by simp)).of_steers hfilled.steers (.filled hdir (by simp))
    refine isDir_iff.2 ⟨l, ?_, hdir⟩
    rw [spot_eq_ok_iff]
    refine ⟨hlong, hzero, hempty, ?_⟩
    rw [steps]
    split_ifs
    · exact hwalk.append_slash hdir
    · exact hwalk
  · cases h
  · cases h

theorem makeDir_of_isDir (h : t.isDir p) : makeDir p t = .error .alreadyExists t := by
  obtain ⟨l, hl, -⟩ := isDir_iff.1 h
  rw [spot_eq_ok_iff] at hl
  obtain ⟨hlong, hzero, hempty, hl⟩ := hl
  obtain ⟨j, hj⟩ : ∃ j, Walks t .followed maxLinks (t.startOf p) (names p.text) (.entry j) := by
    rw [steps] at hl
    split_ifs at hl
    · exact hl.of_append
    · exact ⟨l, hl⟩
  obtain ⟨k, hk⟩ := hj.kept
  have hname : t.spotOfName p = .ok (.entry k) := by
    rw [spotOfName_eq_ok_iff]
    exact ⟨hlong, hzero, hempty, hk⟩
  rw [makeDir_apply, hname]

theorem isDir_of_ensureDir (h : ensureDir p t = .ok () t') : t'.isDir p := by
  rw [ensureDir] at h
  split at h
  · rename_i hmade
    cases h
    exact isDir_of_makeDir hmade
  · split_ifs at h with hdir
    cases h
    exact hdir

/-- Directories that were made are there. -/
theorem isDir_of_makeDirs (h : makeDirs p t = .ok () t') : p.text.isEmpty ∨ t'.isDir p := by
  rw [makeDirs, makeDirsFrom] at h
  split_ifs at h with hempty
  · exact .inl hempty
  · right
    cases hmake : makeDir p t with
    | ok _ t₁ =>
      simp only [hmake] at h
      cases h
      exact isDir_of_makeDir hmake
    | error e t₁ =>
      simp only [hmake] at h
      by_cases he : e = .notFound
      · subst he
        cases hq : p.parent? with
        | none =>
          simp only [hq] at h
          cases h
        | some q =>
          simp only [hq] at h
          split at h
          · cases h
          · exact isDir_of_ensureDir h
      · have hdir : (if t₁.isDir p then EStateM.Result.ok () t₁ else .error e t₁) = .ok () t' := by
          rw [← h]
          cases e
          case notFound => exact absurd rfl he
          all_goals rfl
        split_ifs at hdir with hp
        cases hdir
        exact hp

/-- To make directories that are there does nothing. -/
theorem makeDirs_of_isDir (h : p.text.isEmpty ∨ t.isDir p) : makeDirs p t = .ok () t := by
  rw [makeDirs, makeDirsFrom]
  split_ifs with hempty
  · rfl
  · have hdir : t.isDir p := h.resolve_left hempty
    simp [makeDir_of_isDir hdir, hdir]

theorem makeParents_of_isDir (h : ∀ q ∈ p.parent?, q.text.isEmpty ∨ t.isDir q) :
    makeParents p t = .ok () t := by
  rw [makeParents]
  cases hq : p.parent? with
  | none => rfl
  | some q => exact makeDirs_of_isDir (h q hq)

end Disk

end Steward
