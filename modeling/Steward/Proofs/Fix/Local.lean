import Steward.Proofs.Fix.Frame

/-!
# Fixing a file is local

What fixing a file does is decided by the file, its copy and the files under way beside it, and it
changes nothing else. So in two trees that hold the same there, `Beside`, it comes to the same,
`Fix.file_beside`. When a file was written does not count: `FileTree.content` is what is at a place
without it.
-/

namespace Steward

open Location FileTree

/-- The entry, whenever it was written. -/
def Entry.undated : Entry → Entry
  | .file bytes _ => .file bytes ⟨0, 0⟩
  | .database store _ => .database store ⟨0, 0⟩
  | e => e

namespace Entry

variable {e e' : Entry}

@[simp]
theorem isFile_undated (e : Entry) : e.undated.isFile = e.isFile := by
  cases e <;> rfl

@[simp]
theorem bytes?_undated (e : Entry) : e.undated.bytes? = e.bytes? := by
  cases e <;> rfl

theorem eq_link_of_undated {target : String} (h : e.undated = .link target) : e = .link target := by
  cases e with
  | link => exact h
  | dir | file | database => cases h

end Entry

namespace FileTree

variable {t t' u u' : FileTree} {l : Location}
variable {last : LastStep} {at_ : Location}

/-- What is at a place, whenever it was written. -/
def content (t : FileTree) (l : Location) : Option Entry := (t.get? l).map Entry.undated

theorem content_eq_none_iff : t.content l = none ↔ t.get? l = none := Option.map_eq_none_iff

theorem dirAt_iff_content : t.DirAt l ↔ t.content l = some .dir := by
  rw [DirAt, content]
  cases t.get? l with
  | none => simp
  | some e => cases e <;> simp [Entry.undated]

theorem content_eq_some (h : t.content l = u.content l) {e : Entry} (he : t.get? l = some e) :
    ∃ e', u.get? l = some e' ∧ e'.undated = e.undated := by
  rw [content, he, Option.map_some, eq_comm] at h
  exact Option.map_eq_some_iff.1 h

theorem content_eq_none (h : t.content l = u.content l) (ht : t.get? l = none) :
    u.get? l = none := by
  rwa [← content_eq_none_iff, ← h, content_eq_none_iff]

theorem content_insert (hl : l ≠ []) (e : Entry) (k : Location) :
    (t.insert l e).content k = if k = l then some e.undated else t.content k := by
  rw [content, get?_insert t hl]
  split_ifs <;> rfl

theorem content_erase (hl : l ≠ []) (k : Location) :
    (t.erase l).content k = if k = l then none else t.content k := by
  rw [content, get?_erase t hl]
  split_ifs <;> rfl

/-! ## Ways in trees with the same contents -/

theorem isNone_congr (h : t.content l = u.content l) : (t.get? l).isNone = (u.get? l).isNone := by
  have hnone (v : FileTree) : (v.get? l).isNone = (v.content l).isNone := by
    rw [content, Option.isNone_map]
  rw [hnone, hnone, h]

theorem advance_of_long {s : String} {rest : List String} (hdir : t.DirAt at_) (hs : ProperName s)
    (hslash : last = .written → rest ≠ [""]) (hlong : maxName < s.utf8ByteSize) :
    t.advance last at_ (s :: rest) = .error .nameTooLong := by
  refine (if_pos (any_isDir_iff.2 hdir)).trans ?_
  refine (if_neg (by simp [hs.ne_empty, hs.ne_here])).trans ?_
  refine (if_neg hs.ne_up).trans ?_
  refine (if_neg (by simpa using hslash)).trans ?_
  exact if_pos hlong

theorem advance_of_not_dirAt {s : String} {rest : List String} (hdir : ¬t.DirAt at_) :
    t.advance last at_ (s :: rest) =
      if (t.get? at_).isNone then .error .notFound else .error .notDirectory :=
  if_neg (by rwa [any_isDir_iff])

/-- Steps that are names lead to the same place if the entries on the way are the same. -/
theorem advance_congr {ss : List String} (hss : Proper ss)
    (h : ∀ us, us <+: ss → t.content (at_ ++ us) = u.content (at_ ++ us)) :
    t.advance last at_ ss = u.advance last at_ ss := by
  induction ss generalizing at_ with
  | nil => rfl
  | cons s ss ih =>
    have hat : t.content at_ = u.content at_ := by simpa using h [] List.nil_prefix
    have hnext : t.content (at_ ++ [s]) = u.content (at_ ++ [s]) := h [s] (by simp)
    have hs : ProperName s := hss s List.mem_cons_self
    have hproper : Proper ss := fun n hn ↦ hss n (List.mem_cons_of_mem _ hn)
    have hslash : last = .written → ss ≠ [""] := by
      rintro - rfl
      exact (hproper "" List.mem_cons_self).ne_empty rfl
    have hrest : t.advance last (at_ ++ [s]) ss = u.advance last (at_ ++ [s]) ss :=
      ih hproper fun us hus ↦ by
        simpa using h (s :: us) (List.cons_prefix_cons.2 ⟨rfl, hus⟩)
    by_cases hdir : t.DirAt at_
    · have hdir' : u.DirAt at_ := dirAt_iff_content.2 (hat ▸ dirAt_iff_content.1 hdir)
      by_cases hlong : s.utf8ByteSize ≤ maxName
      · have hname : IsName s := ⟨hs.ne_empty, hs.ne_here, hs.ne_up, hlong⟩
        rw [advance_name hdir hname hslash, advance_name hdir' hname hslash]
        cases hget : t.get? (at_ ++ [s]) with
        | none =>
          rw [content_eq_none hnext hget]
        | some e =>
          obtain ⟨e', hget', heq⟩ := content_eq_some hnext hget
          rw [hget']
          cases e with
          | link target =>
            rw [Entry.eq_link_of_undated heq]
          | dir | file | database =>
            cases e' with
            | link => cases heq
            | dir | file | database => exact hrest
      · rw [advance_of_long hdir hs hslash (not_le.1 hlong),
          advance_of_long hdir' hs hslash (not_le.1 hlong)]
    · have hdir' : ¬u.DirAt at_ := by
        rwa [dirAt_iff_content, ← hat, ← dirAt_iff_content]
      rw [advance_of_not_dirAt hdir, advance_of_not_dirAt hdir', isNone_congr hat]

/-- The look-up of a place without links on the way depends on the entries on the way. -/
theorem look_path_congr (hl : l.Proper) (hclear : t.Clear l)
    (h : ∀ k, k <+: l → t.content k = u.content k) :
    t.look last l.path l = u.look last l.path l := by
  have hadvance : t.advance last [] l = u.advance last [] l := advance_congr hl h
  have hwalk : t.walk last maxLinks [] l = u.walk last maxLinks [] l := by
    rw [walk, walk, ← hadvance]
    cases hr : t.advance last [] l with
    | error x => rfl
    | ok r =>
      cases r with
      | entry | vacant => rfl
      | detour from_ target rest =>
        have hends := ((advance_eq_ok_iff.1 hr).clear (hclear.clearFrom hl)).1
        simp at hends
  simp only [look, follow, isAbsolute_path, if_true, hwalk]

end FileTree

/-! ## Trees that hold the same beside each other -/

/-- Two trees hold the same files under some names of a directory that is in both, and no link stands
on the way. -/
structure Beside (l : Location) (N : String → Prop) (t u : FileTree) : Prop where
  dir : t.isDir l.path
  dir' : u.isDir l.path
  clear : ∀ m, N m → t.Clear (l ++ [m])
  clear' : ∀ m, N m → u.Clear (l ++ [m])
  same : ∀ m, N m → t.content (l ++ [m]) = u.content (l ++ [m])

namespace Beside

variable {l : Location} {N : String → Prop} {t t' u u' : FileTree} {m : String}

/-- Whatever changes on both sides, it is enough that the same comes of it. -/
theorem of_changes {S S' : Location → Prop} (h : Beside l N t u) (hl : l.Proper) (hm : N m)
    (ht : ChangesOnly S t t') (hu : ChangesOnly S' u u')
    (hsame : ∀ m, N m → t'.content (l ++ [m]) = u'.content (l ++ [m])) : Beside l N t' u'  where
  dir := ht.isDir_path ((h.clear m hm).of_isPrefix (List.prefix_append l [m])) hl h.dir
  dir' := hu.isDir_path ((h.clear' m hm).of_isPrefix (List.prefix_append l [m])) hl h.dir'
  clear m hm := ht.clear (h.clear m hm)
  clear' m hm := hu.clear (h.clear' m hm)
  same := hsame

theorem dirAt_above {k : Location} (ht : t.Clear l) (hl : l.Proper) (hdir : t.isDir l.path)
    (hk : k <+: l) : t.DirAt k := by
  obtain ⟨hreal, -, -, hdir⟩ := (isDir_path_iff ht hl).1 hdir
  obtain ⟨ns, rfl⟩ := hk
  by_cases hns : ns = []
  · simpa [hns] using hdir
  · exact hreal.dirAt_above hns

/-- The entries on the way to such a name are the same. -/
theorem content_eq (h : Beside l N t u) (hl : l.Proper) (hm : N m) {k : Location}
    (hk : k <+: l ++ [m]) : t.content k = u.content k := by
  rcases List.prefix_concat_iff.1 hk with rfl | hk
  · exact h.same m hm
  · have habove : l <+: l ++ [m] := List.prefix_append l [m]
    have hdir := dirAt_above ((h.clear m hm).of_isPrefix habove) hl h.dir hk
    have hdir' := dirAt_above ((h.clear' m hm).of_isPrefix habove) hl h.dir' hk
    rw [dirAt_iff_content.1 hdir, dirAt_iff_content.1 hdir']

theorem dirAt_iff (h : Beside l N t u) (hm : N m) : t.DirAt (l ++ [m]) ↔ u.DirAt (l ++ [m]) := by
  rw [dirAt_iff_content, dirAt_iff_content, h.same m hm]

variable (h : Beside l N t u) (hm : N m) (hp : Proper (l ++ [m]))
include h hm hp

theorem look_eq (last : LastStep) :
    t.look last (l ++ [m]).path (l ++ [m]) = u.look last (l ++ [m]).path (l ++ [m]) :=
  look_path_congr hp (h.clear m hm) fun _ ↦ h.content_eq ((proper_append l [m]).1 hp).1 hm

theorem spot_eq (last : LastStep) :
    t.spot last (l ++ [m]).path = u.spot last (l ++ [m]).path := by
  rw [spot, spot, steps_path hp, h.look_eq hm hp]

theorem spotOfName_eq :
    t.spotOfName (l ++ [m]).path = u.spotOfName (l ++ [m]).path := by
  rw [spotOfName, spotOfName, names_path hp, h.look_eq hm hp]

/-- What is found under such a name is the same. -/
theorem find_eq :
    (t.find (l ++ [m]).path).map Entry.undated = (u.find (l ++ [m]).path).map Entry.undated := by
  rw [find, find, locate, locate, ← h.spot_eq hm hp]
  cases hspot : t.spot .followed (l ++ [m]).path with
  | error x => rfl
  | ok s =>
    obtain rfl | rfl := spot_path_of_clear (h.clear m hm) hp hspot
    · dsimp only
      cases hget : t.get? (l ++ [m]) with
      | none =>
        rw [content_eq_none (h.same m hm) hget]
      | some e =>
        obtain ⟨e', hget', heq⟩ := content_eq_some (h.same m hm) hget
        rw [hget']
        exact congrArg Except.ok heq.symm
    · rfl

theorem contains_eq :
    t.contains (l ++ [m]).path = u.contains (l ++ [m]).path := by
  have hfind := h.find_eq hm hp
  rw [contains, contains]
  cases ht : t.find (l ++ [m]).path <;> cases hu : u.find (l ++ [m]).path <;>
    simp_all [Except.map, Except.toOption]

theorem read_eq :
    t.read (l ++ [m]).path = u.read (l ++ [m]).path := by
  have hread (v : FileTree) : v.read (l ++ [m]).path =
      ((v.find (l ++ [m]).path).map Entry.undated).bind fun e ↦
        e.bytes?.elim (.error .isDirectory) .ok := by
    rw [FileTree.read]
    cases v.find (l ++ [m]).path with
    | error x => rfl
    | ok e =>
      simp only [Except.map, Except.bind, Entry.bytes?_undated]
      cases e.bytes? <;> rfl
  rw [hread, hread, h.find_eq hm hp]

theorem insert (hdir : ¬t.DirAt (l ++ [m])) {e e' : Entry} (he : e.isFile)
    (heq : e'.undated = e.undated) :
    Beside l N (t.insert (l ++ [m]) e) (u.insert (l ++ [m]) e') := by
  have hne : l ++ [m] ≠ [] := by simp
  have hdir' : ¬u.DirAt (l ++ [m]) := mt (h.dirAt_iff hm).2 hdir
  have he' : e'.isFile := by
    rw [← Entry.isFile_undated, heq, Entry.isFile_undated]
    exact he
  refine h.of_changes ((proper_append l [m]).1 hp).1 hm
    (.insert (S := (· = l ++ [m])) hne rfl (fun _ hx ↦ isFile_of_clear (h.clear m hm) hx hdir) he)
    (.insert (S := (· = l ++ [m])) hne rfl (fun _ hx ↦ isFile_of_clear (h.clear' m hm) hx hdir') he')
    fun k hk ↦ ?_
  rw [content_insert hne, content_insert hne, heq, h.same k hk]

theorem erase (hdir : ¬t.DirAt (l ++ [m])) :
    Beside l N (t.erase (l ++ [m])) (u.erase (l ++ [m])) := by
  have hne : l ++ [m] ≠ [] := by simp
  refine h.of_changes ((proper_append l [m]).1 hp).1 hm
    (.erase (S := (· = l ++ [m])) hne rfl hdir)
    (.erase (S := (· = l ++ [m])) hne rfl (mt (h.dirAt_iff hm).2 hdir)) fun k hk ↦ ?_
  rw [content_erase hne, content_erase hne, h.same k hk]

end Beside

/-! ## Operations -/

namespace Disk

/-- Two outcomes are the same, on trees that are related. -/
inductive Alike {α : Type} (P : α → FileTree → FileTree → Prop) (Q : FileTree → FileTree → Prop) :
    EStateM.Result IoError FileTree α → EStateM.Result IoError FileTree α → Prop where
  | ok {a : α} {t u : FileTree} (h : P a t u) : Alike P Q (.ok a t) (.ok a u)
  | error {x : IoError} {t u : FileTree} (h : Q t u) : Alike P Q (.error x t) (.error x u)

namespace Alike

variable {α β : Type} {P : α → FileTree → FileTree → Prop} {P' : β → FileTree → FileTree → Prop}
  {Q Q' : FileTree → FileTree → Prop} {t u : FileTree} {x y : Disk α}

theorem bind (h : Alike P Q (x t) (y u)) {f g : α → Disk β}
    (hf : ∀ a t u, P a t u → Alike P' Q (f a t) (g a u)) :
    Alike P' Q ((x >>= f) t) ((y >>= g) u) := by
  simp only [Bind.bind, EStateM.bind]
  generalize x t = p at h ⊢
  generalize y u = q at h ⊢
  cases h with
  | ok h => exact hf _ _ _ h
  | error h => exact .error h

theorem tryCatch (h : Alike P Q (x t) (y u)) {f g : IoError → Disk α}
    (hf : ∀ e t u, Q t u → Alike P Q' (f e t) (g e u)) :
    Alike P Q' ((MonadExcept.tryCatch x f) t) ((MonadExcept.tryCatch y g) u) := by
  simp only [MonadExcept.tryCatch, tryCatchThe, MonadExceptOf.tryCatch, EStateM.tryCatch]
  generalize x t = p at h ⊢
  generalize y u = q at h ⊢
  cases h with
  | ok h => exact .ok h
  | error h => exact hf _ _ _ h

theorem exec (h : Alike (fun _ ↦ Q) Q (x t) (y u)) :
    (x.exec t).1 = (y.exec u).1 ∧ Q (x.exec t).2 (y.exec u).2 := by
  simp only [Disk.exec, EStateM.run]
  generalize x t = p at h ⊢
  generalize y u = q at h ⊢
  cases h with
  | ok h | error h => exact ⟨rfl, h⟩

/-- A question that has the same answer on both trees. -/
theorem ask {f : FileTree → Except IoError α} (h : Q t u) (heq : f t = f u) :
    Alike (fun a t' u' ↦ t' = t ∧ u' = u ∧ f t = .ok a) Q (Disk.ask f t) (Disk.ask f u) := by
  rw [ask_apply, ask_apply, ← heq]
  cases f t with
  | ok a => exact .ok ⟨rfl, rfl, rfl⟩
  | error x => exact .error h

end Alike

variable {l : Location} {N : String → Prop} {t u : FileTree} {m n : String}

theorem write_beside (h : Beside l N t u) (hm : N m) (hp : Proper (l ++ [m])) (now now' : Instant)
    (bytes : List UInt8) :
    Alike (fun _ t u ↦ Beside l N t u ∧ t.FileAt (l ++ [m])) (Beside l N)
      (write now (l ++ [m]).path bytes t) (write now' (l ++ [m]).path bytes u) := by
  have hne : l ++ [m] ≠ [] := by simp
  have hput (hdir : ¬t.DirAt (l ++ [m])) :
      Beside l N (t.insert (l ++ [m]) (.file bytes now)) (u.insert (l ++ [m]) (.file bytes now')) ∧
        (t.insert (l ++ [m]) (.file bytes now)).FileAt (l ++ [m]) :=
    ⟨h.insert hm hp hdir rfl rfl, _, by rw [get?_insert t hne, if_pos rfl], rfl⟩
  rw [write, write]
  refine (Alike.ask h (h.spot_eq hm hp .written)).bind ?_
  rintro s t' u' ⟨rfl, rfl, hspot⟩
  rcases spot_path_of_clear (h.clear m hm) hp hspot with rfl | rfl
  · simp only [Bind.bind, EStateM.bind, get, getThe, MonadStateOf.get, EStateM.get]
    cases hget : t'.get? (l ++ [m]) with
    | none =>
      rw [content_eq_none (h.same m hm) hget]
      exact .error h
    | some e =>
      obtain ⟨e', hget', heq⟩ := content_eq_some (h.same m hm) hget
      have hfile : e'.isFile = e.isFile := by
        rw [← Entry.isFile_undated, heq, Entry.isFile_undated]
      rw [hget']
      dsimp only
      rw [hfile]
      split_ifs with he
      · exact .ok (hput (FileAt.not_dirAt ⟨e, hget, he⟩))
      · exact .error h
  · have hfree := (look_vacant_inv hspot).2
    exact .ok (hput (by simp [DirAt, hfree]))

theorem removeFile_beside (h : Beside l N t u) (hm : N m) (hp : Proper (l ++ [m])) :
    Alike (fun _ ↦ Beside l N) (Beside l N) (removeFile (l ++ [m]).path t)
      (removeFile (l ++ [m]).path u) := by
  rw [removeFile]
  refine (Alike.ask h (h.spot_eq hm hp .kept)).bind ?_
  rintro s t' u' ⟨rfl, rfl, hspot⟩
  rcases spot_path_of_clear (h.clear m hm) hp hspot with rfl | rfl
  · simp only [Bind.bind, EStateM.bind, get, getThe, MonadStateOf.get, EStateM.get]
    by_cases hdir : t'.DirAt (l ++ [m])
    · rw [if_pos (any_isDir_iff.2 hdir), if_pos (any_isDir_iff.2 ((h.dirAt_iff hm).1 hdir))]
      exact .error h
    · rw [if_neg (mt any_isDir_iff.1 hdir),
        if_neg (mt any_isDir_iff.1 (mt (h.dirAt_iff hm).2 hdir))]
      exact .ok (h.erase hm hp hdir)
  · exact .error h

theorem rename_beside {k : String} (h : Beside l N t u) (hm : N m) (hk : N k)
    (hpm : Proper (l ++ [m])) (hpk : Proper (l ++ [k])) (hmk : m ≠ k)
    (hfile : t.FileAt (l ++ [m])) :
    Alike (fun _ ↦ Beside l N) (Beside l N) (rename (l ++ [m]).path (l ++ [k]).path t)
      (rename (l ++ [m]).path (l ++ [k]).path u) := by
  rw [rename]
  refine (Alike.ask h (h.spotOfName_eq hm hpm)).bind ?_
  rintro a t' u' ⟨rfl, rfl, ha⟩
  refine (Alike.ask h (h.spotOfName_eq hk hpk)).bind ?_
  rintro b t u ⟨rfl, rfl, hb⟩
  dsimp only
  by_cases hdots : endsInDots (l ++ [m]).path || endsInDots (l ++ [k]).path
  · rw [if_pos hdots]
    exact .error h
  rw [if_neg hdots]
  obtain ⟨e, hget, he⟩ := hfile
  obtain ⟨e', hget', heq⟩ := content_eq_some (h.same m hm) hget
  rw [spotOfName, names_path hpm] at ha
  rw [spotOfName, names_path hpk] at hb
  obtain ⟨-, -, ⟨rfl, -⟩ | ⟨rfl, -, hfree⟩⟩ := look_path (h.clear m hm) hpm ha
  swap
  · cases hfree.symm.trans hget
  simp only [Bind.bind, EStateM.bind, get, getThe, MonadStateOf.get, EStateM.get, hget, hget']
  by_cases hslash : (l ++ [k]).path.text.toList.getLast? = some '/'
  · rw [if_pos hslash, if_pos hslash]
    exact .error h
  rw [if_neg hslash, if_neg hslash]
  have hne : l ++ [m] ≠ l ++ [k] := by simpa using hmk
  have hmove (hdir : ¬t.DirAt (l ++ [k])) :
      Beside l N ((t.erase (l ++ [m])).insert (l ++ [k]) e)
        ((u.erase (l ++ [m])).insert (l ++ [k]) e') := by
    refine (h.erase hm hpm (FileAt.not_dirAt ⟨e, hget, he⟩)).insert hk hpk ?_ he heq
    rwa [dirAt_iff_content, content_erase (by simp), if_neg hne.symm, ← dirAt_iff_content]
  obtain ⟨-, -, ⟨rfl, -⟩ | ⟨rfl, -, hfree⟩⟩ := look_path (h.clear k hk) hpk hb
  · simp only [EStateM.bind, EStateM.get, if_neg hne]
    by_cases hdir : t.DirAt (l ++ [k])
    · rw [if_pos (any_isDir_iff.2 hdir), if_pos (any_isDir_iff.2 ((h.dirAt_iff hk).1 hdir))]
      exact .error h
    · rw [if_neg (mt any_isDir_iff.1 hdir),
        if_neg (mt any_isDir_iff.1 (mt (h.dirAt_iff hk).2 hdir))]
      exact .ok (a := ()) (hmove hdir)
  · exact .ok (a := ()) (hmove (by simp [DirAt, hfree]))

theorem writeAtomic_beside (h : Beside l N t u) (hn : N n) (hm : N (n ++ ".tmp"))
    (hp : Proper (l ++ [n])) (now now' : Instant) (bytes : List UInt8) :
    Alike (fun _ ↦ Beside l N) (Beside l N) (writeAtomic now (l ++ [n]).path bytes t)
      (writeAtomic now' (l ++ [n]).path bytes u) := by
  rw [writeAtomic, writeAtomic, tempSibling_path hp]
  have hpm : Proper (l ++ [n ++ ".tmp"]) := hp.append_suffix (by decide) (by decide)
  have hne : n ++ ".tmp" ≠ n := fun heq ↦ by simpa using congrArg String.length heq
  refine Alike.bind (P := fun _ ↦ Beside l N) ?_ fun _ t u h ↦ ?_
  · have hmake {t : FileTree} (hdir : t.isDir l.path) :
        makeParents (l ++ [n]).path t = .ok () t := by
      refine makeParents_of_isDir fun u hu ↦ ?_
      rw [parent?_path hp, Option.mem_some] at hu
      exact .inr (hu ▸ hdir)
    rw [hmake h.dir, hmake h.dir']
    exact .ok h
  · refine Alike.tryCatch (Q := Beside l N) ?_ fun x t u h ↦ ?_
    · refine (write_beside h hm hpm now now' bytes).bind fun _ t u h ↦ ?_
      exact rename_beside h.1 hm hn hpm hp hne h.2
    · refine Alike.bind (P := fun _ ↦ Beside l N) ?_ fun _ t u h ↦ .error h
      exact Alike.tryCatch (removeFile_beside h hm hpm) fun _ t u h ↦ .ok h

end Disk

/-! ## Files -/

namespace Fix

/-- The names beside a file that fixing it is about: its own, that of its copy, and those of the two
while they are under way. -/
def Near (n m : String) : Prop :=
  m = n ∨ m = n ++ ".backup" ∨ m = n ++ ".tmp" ∨ m = n ++ ".backup" ++ ".tmp"

variable {l : Location} {n : String}
variable {b : Bench}

theorem near_self (n : String) : Near n n := .inl rfl

theorem near_backup (n : String) : Near n (n ++ ".backup") := .inr (.inl rfl)

theorem near_temp (n : String) : Near n (n ++ ".tmp") := .inr (.inr (.inl rfl))

theorem near_backupTemp (n : String) : Near n (n ++ ".backup" ++ ".tmp") := .inr (.inr (.inr rfl))

/-- Attempts that come to the same do so however often they are made. -/
theorem retry_congr {σ ε : Type} {attempt attempt' : σ → Except ε Unit × σ} {R : σ → σ → Prop}
    (h : ∀ s s', R s s' →
      (attempt s).1 = (attempt' s').1 ∧ R (attempt s).2 (attempt' s').2)
    (more delay : Nat) {s s' : σ} (hs : R s s') :
    (retry attempt more delay s).result = (retry attempt' more delay s').result ∧
      R (retry attempt more delay s).state (retry attempt' more delay s').state := by
  induction more generalizing delay s s' with
  | zero => exact h s s' hs
  | succ more ih =>
    obtain ⟨hresult, hstate⟩ := h s s' hs
    rw [retry, retry]
    generalize attempt s = x at hresult hstate ⊢
    generalize attempt' s' = y at hresult hstate ⊢
    obtain ⟨x, s⟩ := x
    obtain ⟨y, s'⟩ := y
    cases hresult
    cases x with
    | ok => exact ⟨rfl, hstate⟩
    | error e => exact ih (min (2 * delay) maxDelay) hstate

namespace Bench

variable {b b' : Bench} (h : Beside l (Near n) b.tree b'.tree) (hp : Proper (l ++ [n]))
include h hp

theorem ensureBackup_beside
    (hback : b.isBackedUp (l ++ [n]).path = b'.isBackedUp (l ++ [n]).path) (now now' : Instant)
    (bytes : List UInt8) :
    (b.ensureBackup now (l ++ [n]).path bytes).1 = (b'.ensureBackup now' (l ++ [n]).path bytes).1 ∧
      Beside l (Near n) (b.ensureBackup now (l ++ [n]).path bytes).2.tree
        (b'.ensureBackup now' (l ++ [n]).path bytes).2.tree := by
  have hpb : Proper (l ++ [n ++ ".backup"]) := hp.append_suffix (by decide) (by decide)
  obtain ⟨hresult, htree⟩ := (Disk.writeAtomic_beside h (near_backup n) (near_backupTemp n) hpb now
    now' bytes).exec
  rw [ensureBackup, ensureBackup, backupPath_path hp, ← hback,
    ← h.contains_eq (near_backup n) hpb]
  split_ifs
  · exact ⟨rfl, h⟩
  · exact ⟨rfl, h⟩
  · generalize (Disk.writeAtomic now (l ++ [n ++ ".backup"]).path bytes).exec b.tree = x
      at hresult htree ⊢
    generalize (Disk.writeAtomic now' (l ++ [n ++ ".backup"]).path bytes).exec b'.tree = y
      at hresult htree ⊢
    obtain ⟨x, t⟩ := x
    obtain ⟨y, u⟩ := y
    cases hresult
    cases x with
    | ok | error => exact ⟨rfl, htree⟩

theorem write_beside (cfg : Config.Fixer) (now now' : Instant) (bytes : List UInt8) :
    (b.write cfg now (l ++ [n]).path bytes).1 = (b'.write cfg now' (l ++ [n]).path bytes).1 ∧
      Beside l (Near n) (b.write cfg now (l ++ [n]).path bytes).2.tree
        (b'.write cfg now' (l ++ [n]).path bytes).2.tree :=
  retry_congr (R := Beside l (Near n)) (fun _ _ h ↦
    (Disk.writeAtomic_beside h (near_self n) (near_temp n) hp now now' bytes).exec) _ _ h

theorem dropBackup_beside (p : Path) :
    Beside l (Near n) (b.dropBackup p (l ++ [n ++ ".backup"]).path).tree
      (b'.dropBackup p (l ++ [n ++ ".backup"]).path).tree :=
  (Disk.removeFile_beside h (near_backup n) (hp.append_suffix (by decide) (by decide))).exec.2

end Bench

/-- The copy that was made is the one beside the file. -/
theorem Bench.eq_backupPath {b : Bench} {now : Instant} {p q : Path} {bytes : List UInt8}
    (h : (b.ensureBackup now p bytes).1 = .ok (some q)) : q = backupPath p := by
  rw [ensureBackup] at h
  split_ifs at h
  · cases h
  · cases h
  · split at h
    · exact (Option.some.inj (Except.ok.inj h)).symm
    · cases h

theorem replace_beside {b' : Bench} (h : Beside l (Near n) b.tree b'.tree) (hp : Proper (l ++ [n]))
    (hback : b.isBackedUp (l ++ [n]).path = b'.isBackedUp (l ++ [n]).path) (cfg : Config.Fixer)
    (now now' : Instant) (old : List UInt8) (new : List Char) (report : FileReport) :
    Beside l (Near n) (replace cfg now (l ++ [n]).path old new report b).2.tree
      (replace cfg now' (l ++ [n]).path old new report b').2.tree := by
  obtain ⟨hmade, htree⟩ := Bench.ensureBackup_beside h hp hback now now' old
  have hcopy {q : Path} := @Bench.eq_backupPath b now (l ++ [n]).path q old
  rw [replace, replace]
  generalize b.ensureBackup now (l ++ [n]).path old = x at hmade htree hcopy ⊢
  generalize b'.ensureBackup now' (l ++ [n]).path old = y at hmade htree ⊢
  obtain ⟨x, b₁⟩ := x
  obtain ⟨y, b₁'⟩ := y
  cases hmade
  cases x with
  | error e => exact htree
  | ok made =>
    obtain ⟨hresult, hwritten⟩ := Bench.write_beside htree hp cfg now now' (Utf8.encode new)
    dsimp only at hresult hwritten ⊢
    generalize b₁.write cfg now (l ++ [n]).path (Utf8.encode new) = x at hresult hwritten ⊢
    generalize b₁'.write cfg now' (l ++ [n]).path (Utf8.encode new) = y at hresult hwritten ⊢
    obtain ⟨x, b₂⟩ := x
    obtain ⟨y, b₂'⟩ := y
    cases hresult
    cases x with
    | ok => exact hwritten
    | error e =>
      cases made with
      | none => exact hwritten
      | some q =>
        rw [hcopy rfl, backupPath_path hp]
        exact Bench.dropBackup_beside hwritten hp _

/-- **Fixing a file is local.** In trees that hold the same beside each other it comes to the same,
whenever it is done. -/
theorem file_beside {b' : Bench} (h : Beside l (Near n) b.tree b'.tree) (hp : Proper (l ++ [n]))
    (hback : b.isBackedUp (l ++ [n]).path = b'.isBackedUp (l ++ [n]).path) (cfg : Config.Fixer)
    (now now' : Instant) (name : String) (vs : List Violation) :
    Beside l (Near n) (file cfg now (l ++ [n]).path name vs b).2.tree
      (file cfg now' (l ++ [n]).path name vs b').2.tree := by
  rw [file, file, ← h.read_eq (near_self n) hp]
  cases b.tree.read (l ++ [n]).path with
  | error e => exact h
  | ok bytes =>
    dsimp only
    cases Encoding.detect bytes with
    | none => exact h
    | some x =>
      obtain ⟨source, encoding⟩ := x
      dsimp only
      cases (text (Language.ofPath (l ++ [n]).path) vs source).2 with
      | none => exact h
      | some new => exact replace_beside h hp hback cfg now now' bytes new _

/-! ## Files that are left alone -/

/-- Without a violation there is nothing to do. -/
theorem file_nil (cfg : Config.Fixer) (now : Instant) (p : Path) (name : String) (b : Bench) :
    (file cfg now p name [] b).2 = b := by
  rw [file]
  cases b.tree.read p with
  | error e => rfl
  | ok bytes =>
    dsimp only
    cases Encoding.detect bytes with
    | none => rfl
    | some x =>
      have hnone : (text (Language.ofPath p) [] x.1).2 = none := by simp [text, ordered]
      simp only [hnone]

/-! ## Files that need no copy any more -/

theorem Bench.mem_backedUp_of_ensureBackup {b : Bench} {now : Instant} {p q : Path}
    {bytes : List UInt8} (h : q ∈ (b.ensureBackup now p bytes).2.backedUp) :
    q = p ∨ q ∈ b.backedUp := by
  rw [ensureBackup] at h
  split_ifs at h
  · exact .inr h
  · exact List.mem_cons.1 h
  · split at h
    · exact List.mem_cons.1 h
    · exact .inr h

theorem mem_backedUp_of_replace {cfg : Config.Fixer} {now : Instant} {p q : Path} {old : List UInt8}
    {new : List Char} {report : FileReport}
    (h : q ∈ (replace cfg now p old new report b).2.backedUp) : q = p ∨ q ∈ b.backedUp := by
  have hensured {q : Path} := @Bench.mem_backedUp_of_ensureBackup b now p q old
  rw [replace] at h
  generalize b.ensureBackup now p old = x at hensured h
  obtain ⟨x, b₁⟩ := x
  cases x with
  | error e => exact hensured h
  | ok made =>
    have hwrite : (b₁.write cfg now p (Utf8.encode new)).2.backedUp = b₁.backedUp := rfl
    dsimp only at h
    generalize b₁.write cfg now p (Utf8.encode new) = y at h hwrite
    obtain ⟨y, b₂⟩ := y
    dsimp only at hwrite hensured
    rw [← hwrite] at hensured
    cases y with
    | ok => exact hensured h
    | error e =>
      cases made with
      | none => exact hensured h
      | some backup => exact hensured (List.mem_filter.1 h).1

/-- Fixing a file is the only reason why it needs no copy any more. -/
theorem mem_backedUp_of_file {cfg : Config.Fixer} {now : Instant} {p q : Path} {name : String}
    {vs : List Violation} (h : q ∈ (file cfg now p name vs b).2.backedUp) :
    q = p ∨ q ∈ b.backedUp := by
  rw [file] at h
  cases hread : b.tree.read p with
  | error e =>
    rw [hread] at h
    exact .inr h
  | ok bytes =>
    rw [hread] at h
    dsimp only at h
    split at h
    · exact .inr h
    · split at h
      · exact .inr h
      · exact mem_backedUp_of_replace h

end Fix

end Steward
