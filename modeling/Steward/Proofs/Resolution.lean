import Steward.Proofs.Containment

/-!
# Resolution of paths that exist

A path is resolved name by name: each prefix is made canonical, and a `..` takes the last name off
what has come out so far. The file system goes the whole way at once, through all links. Where the
path leads to something, both come to the same place, `Workspace.resolveLocation_of_canonical`.

The way is split at its first step, `FileTree.Walks.split`. What one step leads to is canonical, and
it is what the prefix that ends there is resolved to; the links on the way are shared out among the
steps, so that none of them follows too many.
-/

namespace Steward

open Location List

/-- The texts between slashes are made of the characters of the whole. -/
theorem Path.mem_of_mem_splitFrom {current cs : List Char} {s : String}
    (hs : s ∈ splitFrom current cs) {c : Char} (hc : c ∈ s.toList) : c ∈ current ∨ c ∈ cs := by
  induction cs generalizing current with
  | nil =>
    rw [splitFrom, mem_singleton] at hs
    subst hs
    exact .inl (by simpa using hc)
  | cons d cs ih =>
    rw [splitFrom] at hs
    split_ifs at hs
    · rcases mem_cons.1 hs with rfl | hs
      · exact .inl (by simpa using hc)
      · exact .inr (mem_cons_of_mem d ((ih hs).resolve_left not_mem_nil))
    · rcases ih hs with hmem | hmem
      · rcases mem_cons.1 hmem with rfl | hmem
        · exact .inr mem_cons_self
        · exact .inl hmem
      · exact .inr (mem_cons_of_mem d hmem)

namespace FileTree

variable {t : FileTree} {k l : Location} {s : String}
variable {n : Nat} {at_ : Location} {q : String}

theorem zero_notMem_of_mem_steps {text : String} (hs : s ∈ steps text)
    (htext : '\x00' ∉ text.toList) : '\x00' ∉ s.toList := by
  intro hzero
  exact htext ((Path.mem_of_mem_splitFrom (mem_split_of_mem_steps hs) hzero).resolve_left
    not_mem_nil)

theorem Walks.unique {last : LastStep} {m : Nat} {ss : List String} {sp sq : Spot}
    (h : Walks t last n at_ ss sp) (h' : Walks t last m at_ ss sq) : sp = sq := by
  have h := walk_eq_ok_iff.2 (h.mono (Nat.le_max_left n m))
  rw [walk_eq_ok_iff.2 (h'.mono (Nat.le_max_right n m))] at h
  exact (Except.ok.inj h).symm

/-- A way to an entry can be taken in two parts, be they empty or not. -/
theorem Walks.split_entry {links : Nat} {ss us : List String}
    (h : Walks t .followed links at_ (ss ++ us) (.entry l)) :
    ∃ k n m, n + m = links ∧ Walks t .followed n at_ ss (.entry k) ∧
      Walks t .followed m k us (.entry l) := by
  by_cases hus : us = []
  · subst hus
    rw [append_nil] at h
    exact ⟨l, links, 0, rfl, h, .entry (.done l)⟩
  · exact h.split hus

/-- Where one step leads: dots are taken by their text, all else is a name. -/
theorem Walks.step_cases (h : Walks t .followed n at_ [s] (.entry k)) :
    (s = "" ∨ s = ".") ∧ k = at_ ∨ s = ".." ∧ k = at_.dropLast ∨ IsName s := by
  cases h with
  | entry h =>
    cases h with
    | stay _ hs next =>
      cases next
      exact .inl ⟨hs, rfl⟩
    | up _ next =>
      cases next
      exact .inr (.inl ⟨rfl, rfl⟩)
    | keep _ hs | enter _ hs => exact .inr (.inr hs)
  | detour h =>
    cases h with
    | stay _ _ next | up _ next => cases next
    | turn _ hs | enter _ hs => exact .inr (.inr hs)

theorem real_startOf (hhome : Real t t.workingDir) (p : Path) : Real t (t.startOf p) := by
  rw [startOf]
  split_ifs
  · exact .top
  · exact hhome

/-- What a name leads to from a canonical place is the canonical place of both together. -/
theorem canonical_concat (ht : t.NulFree) (hl : Real t l) (hs : ProperName s)
    (hzero : '\x00' ∉ s.toList) (hn : n ≤ maxLinks) (h : Walks t .followed n l [s] (.entry k))
    (hshort : isOverlong k.path = false) : t.canonical (l ++ [s]).path = .ok k := by
  have hproper : (l ++ [s]).Proper := by simpa using ⟨hl.proper, hs⟩
  have htext : '\x00' ∉ (l ++ [s]).path.text.toList := by
    refine zero_notMem_path fun m hm ↦ ?_
    rcases mem_append.1 hm with hm | hm
    · exact hl.zero_notMem ht m hm
    · rwa [mem_singleton.1 hm]
  rw [canonical_eq_ok_iff, follow_eq_ok_iff, steps_path hproper, startOf,
    if_pos (isAbsolute_path _)]
  refine ⟨⟨htext, by simp [path], ?_⟩, hshort⟩
  have hwalk : Walks t .followed (0 + n) [] (l ++ [s]) (.entry k) :=
    .trans (closes_followed _) (.entry hl.advances) h
  exact hwalk.mono (by omega)

/-- An empty text between slashes stands for no component. -/
theorem filterMap_names (text : String) :
    (names text).filterMap Path.componentOf? = (Path.split text).filterMap Path.componentOf? := by
  rw [names, filterMap_filter]
  congr 1
  funext s
  by_cases hs : s = ""
  · subst hs
    rfl
  · simp [hs]

theorem filterMap_steps (text : String) :
    (steps text).filterMap Path.componentOf? = (Path.split text).filterMap Path.componentOf? := by
  rw [steps]
  split_ifs
  · rw [filterMap_append, filterMap_names]
    exact append_nil _
  · exact filterMap_names text

/-- The names of what is joined come one after the other. -/
theorem names_join (p : Path) (hq : q.toList.head? ≠ some '/') :
    names (p.join q).text = names p.text ++ names q := by
  rw [Path.join, if_neg hq, names, names, names, Path.split, Path.split, Path.split]
  split_ifs with hend
  · by_cases hempty : p.text.toList = []
    · simp [hempty, Path.splitFrom]
    · obtain ⟨front, hfront⟩ : ∃ front, p.text.toList = front ++ ['/'] :=
        getLast?_eq_some_iff.1 (by simpa [hempty] using hend)
      rw [String.toList_append, hfront, append_assoc, singleton_append,
        Path.splitFrom_append, Path.splitFrom_append, filter_append, filter_append]
      simp [Path.splitFrom]
  · rw [String.toList_append, String.toList_append, append_assoc,
      show "/".toList = ['/'] from rfl, singleton_append, Path.splitFrom_append,
      filter_append]

/-- Behind the names of the path that it is joined to, a path takes steps of its own. -/
theorem exists_steps_join (p : Path) (hq : q.toList.head? ≠ some '/') :
    ∃ us, steps (p.join q).text = names p.text ++ us ∧
      us.filterMap Path.componentOf? = (Path.split q).filterMap Path.componentOf? := by
  rw [steps, names_join p hq]
  split_ifs
  · refine ⟨names q ++ [""], append_assoc _ _ _, ?_⟩
    rw [filterMap_append, filterMap_names]
    exact append_nil _
  · exact ⟨names q, rfl, filterMap_names q⟩

theorem startOf_join {p : Path} (hp : ¬p.text.isEmpty) (hq : q.toList.head? ≠ some '/') :
    t.startOf (p.join q) = t.startOf p := by
  have hne : p.text.toList ≠ [] := by simpa [String.isEmpty_iff] using hp
  have hhead : (p.join q).text.toList.head? = p.text.toList.head? := by
    rw [Path.join, if_neg hq]
    split_ifs
    · rw [String.toList_append, head?_append_of_ne_nil _ hne]
    · rw [String.toList_append, String.toList_append, append_assoc,
        head?_append_of_ne_nil _ hne]
  rw [startOf, startOf, Path.isAbsolute, Path.isAbsolute, hhead]

/-- Slashes that a path ends in do not count where it leads to an entry. -/
theorem walks_names_of_steps {links : Nat} {text : String}
    (h : Walks t .followed links at_ (steps text) (.entry l)) :
    Walks t .followed links at_ (names text) (.entry l) := by
  rw [steps] at h
  split_ifs at h
  · obtain ⟨k, n, m, hnm, hk, hlast⟩ := h.split_entry
    rcases hlast.step_cases with ⟨-, rfl⟩ | ⟨hs, -⟩ | hs
    · exact hk.mono (by omega)
    · simp at hs
    · exact absurd rfl hs.ne_empty
  · exact h

/-- A path that is joined to another goes on where the other one leads. -/
theorem Walks.of_join {p : Path} (hq : q.toList.head? ≠ some '/') {r c : Location}
    (hp : t.follow .followed p (steps p.text) = .ok (.entry r))
    (h : t.follow .followed (p.join q) (steps (p.join q).text) = .ok (.entry c)) :
    ∃ us n m, n + m = maxLinks ∧ steps (p.join q).text = names p.text ++ us ∧
      us.filterMap Path.componentOf? = (Path.split q).filterMap Path.componentOf? ∧
      Walks t .followed n (t.startOf (p.join q)) (names p.text) (.entry r) ∧
      Walks t .followed m r us (.entry c) := by
  obtain ⟨us, hsteps, hus⟩ := exists_steps_join p hq
  obtain ⟨-, hempty, hp⟩ := follow_eq_ok_iff.1 hp
  obtain ⟨-, -, h⟩ := follow_eq_ok_iff.1 h
  rw [hsteps] at h
  obtain ⟨k, n, m, hnm, hk, hrest⟩ := h.split_entry
  cases hk.unique (startOf_join hempty hq ▸ walks_names_of_steps hp)
  exact ⟨us, n, m, hnm, hsteps, hus, hk, hrest⟩

end FileTree

namespace Workspace

open FileTree

variable {t : FileTree}

/-- A way that leads to something is followed on disk to its end. The induction is on the steps of
the way; `hshort` is about the places that their prefixes lead to. -/
theorem foldlM_of_walks (ht : t.NulFree) {ss : List String} {links : Nat} {at_ c : Location}
    (hat : Real t at_) (hlinks : links ≤ maxLinks)
    (hss : ∀ s ∈ ss, '/' ∉ s.toList ∧ '\x00' ∉ s.toList)
    (hshort : ∀ us, us <+: ss → ∀ l, Walks t .followed links at_ us (.entry l) →
      isOverlong l.path = false)
    (h : Walks t .followed links at_ ss (.entry c)) :
    (ss.filterMap Path.componentOf?).foldlM (step t) ⟨at_, true⟩ = .ok ⟨c, true⟩ := by
  induction ss generalizing links at_ with
  | nil =>
    cases h.unique (.entry (.done at_) : Walks t .followed 0 at_ [] (.entry at_))
    rfl
  | cons s ss ih =>
    obtain ⟨⟨hslash, hzero⟩, hss⟩ := forall_mem_cons.1 hss
    rw [← singleton_append] at h
    obtain ⟨k, n, m, hnm, hfirst, hrest⟩ := h.split_entry
    have hk : Real t k := hfirst.real hat (by simpa using hslash)
    have hrest := ih hk (by omega) hss (fun us hus l hl ↦ hshort (s :: us)
      (cons_prefix_cons.2 ⟨rfl, hus⟩) l (hnm ▸ .trans (closes_followed _) hfirst hl)) hrest
    rcases hfirst.step_cases with ⟨hs, rfl⟩ | ⟨rfl, rfl⟩ | hs
    · rw [filterMap_cons_none (by rcases hs with rfl | rfl <;> rfl)]
      exact hrest
    · rw [filterMap_cons_some (by rfl : Path.componentOf? ".." = some .up), foldlM_cons]
      exact hrest
    · have hname : Path.componentOf? s = some (.name s) := by
        simp [Path.componentOf?, hs.ne_empty, hs.ne_here, hs.ne_up]
      have hcanonical : t.canonical (at_ ++ [s]).path = .ok k :=
        canonical_concat ht hat ⟨hs.ne_empty, hs.ne_here, hs.ne_up, hslash⟩ hzero (by omega) hfirst
          (hshort [s] (by simp) k (hfirst.mono (by omega)))
      have hstep : step t ⟨at_, true⟩ (.name s) = .ok ⟨k, true⟩ := by
        simp [step, hcanonical]
      rw [filterMap_cons_some hname, foldlM_cons, hstep]
      exact hrest

/-- No part of a path leads too deep if no entry stands too deep. -/
theorem short_of_entries (hhome : Real t t.workingDir)
    (h : ∀ x ∈ t.entries, isOverlong (Location.path x.1) = false) (p : Path) :
    ∀ ss, ss <+: steps p.text → ∀ l, t.follow .followed p ss = .ok (.entry l) →
      isOverlong l.path = false := by
  intro ss hss l hl
  obtain ⟨-, -, hwalk⟩ := follow_eq_ok_iff.1 hl
  cases hwalk.real (real_startOf hhome p) fun s hs ↦ slash_not_mem_of_mem_steps (hss.subset hs) with
  | top => decide
  | down _ _ _ _ hget _ => exact h _ ((mem_of_get? hget).resolve_left (by simp))

/-- A path that leads to something is resolved to where it leads. -/
theorem settle_of_canonical (ht : t.NulFree) (hhome : Real t t.workingDir) {base : Path}
    {raw : String} {r c : Location} (hr : t.canonical base = .ok r)
    (hc : t.canonical (base.join raw) = .ok c)
    (hshort : ∀ ss, ss <+: steps (base.join raw).text → ∀ l,
      t.follow .followed (base.join raw) ss = .ok (.entry l) → isOverlong l.path = false) :
    settle t (candidate r raw) = .ok c := by
  obtain ⟨hfollow, -⟩ := canonical_eq_ok_iff.1 hc
  obtain ⟨hzero, hempty, hwalk⟩ := follow_eq_ok_iff.1 hfollow
  have hplain : ∀ s ∈ steps (base.join raw).text, '/' ∉ s.toList ∧ '\x00' ∉ s.toList :=
    fun s hs ↦ ⟨slash_not_mem_of_mem_steps hs, zero_notMem_of_mem_steps hs hzero⟩
  have hshort : ∀ ss, ss <+: steps (base.join raw).text → ∀ l,
      Walks t .followed maxLinks (t.startOf (base.join raw)) ss (.entry l) →
        isOverlong l.path = false :=
    fun ss hss l hl ↦ hshort ss hss l (follow_eq_ok_iff.2 ⟨hzero, hempty, hl⟩)
  by_cases hraw : raw.toList.head? = some '/'
  · have hjoin (p : Path) : p.join raw = ⟨raw⟩ := by rw [Path.join, if_pos hraw]
    have habsolute : Path.isAbsolute ⟨raw⟩ = true := decide_eq_true hraw
    rw [hjoin] at hwalk hplain hshort
    rw [startOf, if_pos habsolute] at hwalk hshort
    have hfold := foldlM_of_walks ht .top le_rfl hplain hshort hwalk
    rw [filterMap_steps] at hfold
    rw [candidate, hjoin, settle, Path.components, if_pos habsolute, foldlM_cons]
    exact congrArg (Except.map (·.at_)) hfold
  · obtain ⟨us, n, m, hnm, hsteps, hus, hn, hm⟩ :=
      Walks.of_join hraw (canonical_eq_ok_iff.1 hr).1 hfollow
    have hreal : Real t r := hn.real (real_startOf hhome _) fun s hs ↦
      slash_not_mem_of_mem_steps (hsteps ▸ mem_append_left us hs)
    have hcanonical : t.canonical r.path = .ok r :=
      canonical_of_real ht hreal (canonical_eq_ok_iff.1 hr).2
    have hfold := foldlM_of_walks ht hreal (by omega)
      (fun s hs ↦ hplain s (hsteps ▸ mem_append_right _ hs))
      (fun vs hvs l hl ↦ hshort (names base.text ++ vs)
        (hsteps ▸ (prefix_append_right_inj _).2 hvs) l
        (hnm ▸ .trans (closes_followed _) hn hl)) hm
    rw [hus] at hfold
    have hall : (r.map Component.name ++ (Path.split raw).filterMap Path.componentOf?).foldlM
        (step t) ⟨[], true⟩ = .ok ⟨c, true⟩ := by
      rw [foldlM_append, foldlM_names_of_canonical ht hcanonical]
      exact hfold
    rw [candidate, settle, Path.components_join (isAbsolute_path r) hraw,
      components_path hreal.proper, cons_append, foldlM_cons]
    exact congrArg (Except.map (·.at_)) hall

/-- **Resolution agrees with the file system.** The candidate is what is given, if that is absolute,
and else what is given behind the root, however the root is written. If the candidate leads to
something, and no part of it to a place whose path is too long, then it is resolved to the canonical
place, or refused if that lies outside the root. -/
theorem resolveLocation_of_canonical (ht : t.NulFree) (hhome : Real t t.workingDir)
    {root base : Path} {raw : String} {r c : Location} (hroot : t.canonical root = .ok r)
    (hbase : t.canonical base = .ok r) (hc : t.canonical (base.join raw) = .ok c)
    (hshort : ∀ ss, ss <+: steps (base.join raw).text → ∀ l,
      t.follow .followed (base.join raw) ss = .ok (.entry l) → isOverlong l.path = false) :
    resolveLocation t raw root = if r <+: c then .ok c else .error (.containment raw r.path) := by
  have hsettle := settle_of_canonical ht hhome hbase hc hshort
  simp only [resolveLocation, hroot, hsettle, Except.mapError, bind, Except.bind,
    List.isPrefixOf_iff_prefix]
  rfl

/-- A root with a link to a link, and with one that ends in `..`. -/
def mazeTree : FileTree where
  entries := [(["ws"], .dir), (["ws", "a"], .link "b/../c"), (["ws", "b"], .link "d/e/.."),
    (["ws", "c"], .link "/ws/d"), (["ws", "d"], .dir), (["ws", "d", "e"], .dir),
    (["ws", "up"], .link "..")]
  workingDir := ["ws", "d"]

theorem resolveLocation_of_canonical_maze :
    resolveLocation mazeTree "../../../ws/up/ws/a/../c/e" ⟨".."⟩ = .ok ["ws", "d", "e"] ∧
      resolveLocation mazeTree "a/../up" ⟨".."⟩ = .error (.containment "a/../up" ⟨"/ws"⟩) := by
  have ht : mazeTree.NulFree := nulFree_of_entries (by decide)
  have hhome : Real mazeTree mazeTree.workingDir :=
    (real_of_canonical (p := ⟨"/ws/d"⟩) (by decide) (by decide)).1
  have hroot : mazeTree.canonical ⟨".."⟩ = .ok ["ws"] := by decide
  have hshort := short_of_entries hhome (by decide)
  constructor
  · exact resolveLocation_of_canonical ht hhome hroot hroot (c := ["ws", "d", "e"]) (by decide)
      (hshort _)
  · exact resolveLocation_of_canonical ht hhome hroot hroot (c := []) (by decide) (hshort _)

end Workspace

end Steward
