import Steward.Proofs.FileTree.Growth
import Steward.Proofs.FileTree.Naming

/-!
# Putting files in place

A file is put in place as a whole by way of a sibling, in whatever tree: with links on the way, and
with anything at the name of the sibling. Missing parents are made first, `FileTree.Furnished`. What
comes then is said once, by `Disk.moveIn_cases`; from that follows what stays as it was,
`Disk.writeAtomic_touches`.

The sibling has no name of its own: what stood under its name is used up, and if that is a link, the
new content goes where the link leads.
-/

namespace Steward

set_option mvcgen.warning false

open Location FileTree Std.Do
open Ledger (LeadsTo)

/-- The path `q` is the parent of `p`, or above that. -/
def Path.Above (p q : Path) : Prop := Relation.TransGen (fun a b : Path ↦ a.parent? = some b) p q

namespace FileTree

variable {S : Location → Prop} {P Q : Path → Prop} {t t' t'' : FileTree} {p : Path} {l : Location}

theorem ne_append_suffix (l : Location) (n : String) {suffix : String} (h : suffix ≠ "") :
    l ++ [n] ≠ l ++ [n ++ suffix] := by
  intro heq
  rw [List.append_cancel_left_eq, List.singleton_inj] at heq
  exact h (by simpa using congrArg String.toList heq)

/-! ## Missing parents -/

/-- From `t` to `t'` only directories came, each where one of some paths leads to. -/
structure Furnished (P : Path → Prop) (t t' : FileTree) : Prop where
  workingDir : t'.workingDir = t.workingDir
  made : ∀ l, t'.get? l ≠ t.get? l →
    t.get? l = none ∧ t'.DirAt l ∧ ∃ q, P q ∧ t'.spotOfName q = .ok (.entry l)

namespace Furnished

theorem refl (P : Path → Prop) (t : FileTree) : Furnished P t t :=
  ⟨rfl, fun _ h ↦ absurd rfl h⟩

theorem get?_of_some (h : Furnished P t t') {e : Entry} (hget : t.get? l = some e) :
    t'.get? l = some e := by
  rw [← hget]
  by_contra hne
  simpa [hget] using (h.made l hne).1

theorem grows (h : Furnished P t t') : Grows t t' :=
  ⟨h.workingDir, fun _ _ hget ↦ .inl (h.get?_of_some hget)⟩

theorem mono (h : Furnished P t t') (hP : ∀ q, P q → Q q) : Furnished Q t t' where
  workingDir := h.workingDir
  made l hl := by
    obtain ⟨hfree, hdir, q, hq, hspot⟩ := h.made l hl
    exact ⟨hfree, hdir, q, hP q hq, hspot⟩

theorem trans (h : Furnished P t t') (h' : Furnished P t' t'') : Furnished P t t'' where
  workingDir := h'.workingDir.trans h.workingDir
  made l hl := by
    by_cases hsame : t'.get? l = t.get? l
    · rw [← hsame] at hl ⊢
      exact h'.made l hl
    · obtain ⟨hfree, hdir, q, hq, hspot⟩ := h.made l hsame
      exact ⟨hfree, h'.get?_of_some hdir, q, hq, h'.grows.look hspot⟩

end Furnished

end FileTree

namespace Disk

variable {α : Type} {now : Instant} {p q : Path} {bytes : List UInt8} {t s : FileTree}

theorem exec_of_ok {d : Disk α} {a : α} (h : d t = .ok a s) : d.exec t = (.ok a, s) := by
  rw [exec, EStateM.run, h]

theorem exec_of_error {d : Disk α} {x : IoError} (h : d t = .error x s) :
    d.exec t = (.error x, s) := by
  rw [exec, EStateM.run, h]

theorem exec_of_preserves {P : FileTree → Prop} {d : Disk α} (h : Preserves P d) (ht : P t) :
    P (d.exec t).2 := by
  have hrun := triple_iff.1 h t ht
  rw [exec, EStateM.run]
  cases hd : d t with
  | ok a s | error x s =>
    rw [hd] at hrun
    exact hrun

theorem furnished_insert {l : Location} (hspot : t.spotOfName p = .ok (.vacant l)) :
    Furnished (· = p) t (t.insert l .dir) := by
  obtain ⟨hne, hfree⟩ := look_vacant_inv hspot
  have hfilled : Filled t (t.insert l .dir) l := filled_insert hne (by simp [hfree]) (by simp)
  have hdir : (t.insert l .dir).DirAt l := by rw [DirAt, get?_insert t hne, if_pos rfl]
  refine ⟨rfl, fun k hk ↦ ?_⟩
  obtain rfl : k = l := by
    by_contra hne
    exact hk (hfilled.others k hne)
  exact ⟨hfree, hdir, p, rfl, look_of_steers hfilled.steers hspot (.filled hdir (by simp))⟩

/-- Only paths above another are made for it. -/
theorem makeParents_furnishes (p : Path) (t : FileTree) :
    Furnished p.Above t ((makeParents p).exec t).2 := by
  refine exec_of_preserves (makeParents_scoped (Q := p.Above) (fun _ _ h hq ↦ h.tail hq) ?_
    fun _ hq ↦ .single hq) (.refl _ t)
  intro s q l hq hs hspot
  exact hs.trans ((furnished_insert hspot).mono fun _ h ↦ h ▸ hq)

/-! ## What each operation can do -/

theorem write_spec (now : Instant) (p : Path) (bytes : List UInt8) (t : FileTree) :
    ⦃fun s => ⌜s = t⌝⦄ write now p bytes
      ⦃post⟨fun _ s => ⌜∃ l, LeadsTo t p l ∧ s = t.insert l (.file bytes now)⌝,
        fun _ s => ⌜s = t⌝⟩⦄ := by
  mvcgen [write, update, ask]
  case vc1 s hs _ hspot l hl _ =>
    subst hs hl
    exact ⟨l, .inl hspot, rfl⟩
  case vc2 s hs _ hspot l hl e hget he _ =>
    subst hs hl
    exact ⟨l, .inr ⟨hspot, e, hget, he⟩, rfl⟩

/-- What removing a file leaves, whether it succeeds or not. -/
inductive Cleared (p : Path) (t : FileTree) : FileTree → Prop where
  | kept (h : ∀ l, t.spot .kept p = .ok (.entry l) → t.DirAt l) : Cleared p t t
  | gone {l : Location} (hl : t.spot .kept p = .ok (.entry l)) (hdir : ¬t.DirAt l) :
    Cleared p t (t.erase l)

theorem removeFile_spec (p : Path) (t : FileTree) :
    ⦃fun s => ⌜s = t⌝⦄ removeFile p
      ⦃post⟨fun _ s => ⌜Cleared p t s⌝, fun _ s => ⌜Cleared p t s⌝⟩⦄ := by
  mvcgen [removeFile, ask]
  case vc1 s hs _ hspot l hl =>
    subst hs hl
    exact .kept (by simp [hspot])
  case vc2 s hs _ hspot l hl hdir =>
    subst hs hl
    refine .kept fun k hk ↦ ?_
    cases hspot.symm.trans hk
    exact any_isDir_iff.1 hdir
  case vc3 s hs _ hspot l hl hdir _ =>
    subst hs hl
    exact .gone hspot (mt any_isDir_iff.2 hdir)
  case vc4 s hs x hspot =>
    subst hs
    exact .kept (by simp [hspot])

/-- What moving a file or a link over another path leaves. -/
inductive Renamed (p q : Path) (t : FileTree) : FileTree → Prop where
  | moved {l m : Location} {e : Entry} (hl : t.spotOfName p = .ok (.entry l))
      (he : t.get? l = some e) (hm : t.Names q m) (hdir : ¬t.DirAt m)
      (hdots : endsInDots q = false) (hslash : q.text.toList.getLast? ≠ some '/') (hlm : l ≠ m) :
    Renamed p q t ((t.erase l).insert m e)
  /-- Both name the same entry. -/
  | same {l : Location} (hl : t.spotOfName p = .ok (.entry l)) (hm : t.Names q l)
      (hdots : endsInDots q = false) : Renamed p q t t

theorem rename_spec (p q : Path) (t : FileTree) :
    ⦃fun s => ⌜s = t⌝⦄ rename p q
      ⦃post⟨fun _ s => ⌜Renamed p q t s⌝, fun _ s => ⌜s = t⌝⟩⦄ := by
  have hdots (h : ¬(endsInDots p || endsInDots q) = true) : endsInDots q = false := by
    rw [Bool.not_eq_true, Bool.or_eq_false_iff] at h
    exact h.2
  mvcgen [rename, ask]
  case vc5 s hs _ hl _ hm _ hends l hl' e he _ hslash m hm' _ =>
    subst hs hl' hm'
    obtain ⟨-, hfree⟩ := look_vacant_inv hm
    refine .moved hl he (.inr hm) (by simp [DirAt, hfree]) (hdots hends) hslash ?_
    rintro rfl
    simp [hfree] at he
  case vc7 s hs _ hl _ hm _ hends l hl' e he _ hslash m hm' _ hdir hlm =>
    subst hs hl' hm' hlm
    exact .same hl (.inl hm) (hdots hends)
  case vc8 s hs _ hl _ hm _ hends l hl' e he _ hslash m hm' _ hdir hlm _ =>
    subst hs hl' hm'
    exact .moved hl he (.inl hm) (mt any_isDir_iff.2 hdir) (hdots hends) hslash hlm

/-! ## Writing a sibling and moving it over the path -/

/-- What is done once the parents are there. -/
def moveIn (now : Instant) (p : Path) (bytes : List UInt8) : Disk Unit := do
  let tmp := tempSibling p
  try
    write now tmp bytes
    rename tmp p
  catch e =>
    try removeFile tmp catch _ => pure ()
    throw e

theorem writeAtomic_eq (now : Instant) (p : Path) (bytes : List UInt8) :
    writeAtomic now p bytes = (do makeParents p; moveIn now p bytes) := rfl

/-- What moving a file in comes to: the sibling cannot be written; or it cannot be moved; or it can.
When it fails, the sibling is removed. -/
inductive MovesIn (now : Instant) (p : Path) (bytes : List UInt8) (t : FileTree) :
    Except IoError Unit × FileTree → Prop where
  | unwritten {x : IoError} {s : FileTree} (h : Cleared (tempSibling p) t s) :
    MovesIn now p bytes t (.error x, s)
  | unmoved {l : Location} {x : IoError} {s : FileTree} (hl : LeadsTo t (tempSibling p) l)
      (h : Cleared (tempSibling p) (t.insert l (.file bytes now)) s) :
    MovesIn now p bytes t (.error x, s)
  | moved {l : Location} {s : FileTree} (hl : LeadsTo t (tempSibling p) l)
      (h : Renamed (tempSibling p) p (t.insert l (.file bytes now)) s) :
    MovesIn now p bytes t (.ok (), s)

theorem bind_of_ok {β : Type} {d : Disk α} {f : α → Disk β} {a : α} (h : d t = .ok a s) :
    (d >>= f) t = f a s := by
  simp only [bind, EStateM.bind, h]

theorem bind_of_error {β : Type} {d : Disk α} {f : α → Disk β} {x : IoError}
    (h : d t = .error x s) : (d >>= f) t = .error x s := by
  simp only [bind, EStateM.bind, h]

theorem tryCatch_of_ok {d : Disk α} {handle : IoError → Disk α} {a : α} (h : d t = .ok a s) :
    (tryCatch d handle : Disk α) t = .ok a s := by
  simp only [tryCatch, tryCatchThe, MonadExceptOf.tryCatch, EStateM.tryCatch, h]

theorem tryCatch_of_error {d : Disk α} {handle : IoError → Disk α} {x : IoError}
    (h : d t = .error x s) : (tryCatch d handle : Disk α) t = handle x s := by
  simp only [tryCatch, tryCatchThe, MonadExceptOf.tryCatch, EStateM.tryCatch, h]
  rfl

theorem removeFile_cleared (p : Path) (t : FileTree) : Cleared p t ((removeFile p).exec t).2 := by
  obtain ⟨a, s, hs, hcleared⟩ | ⟨x, s, hs, hcleared⟩ := cases_of_triple (removeFile_spec p t) rfl
  · rwa [exec_of_ok hs]
  · rwa [exec_of_error hs]

/-- The sibling is removed after a failure, if it can be. -/
theorem moveIn_of_error {x : IoError} {v : FileTree}
    (h : (do write now (tempSibling p) bytes; rename (tempSibling p) p : Disk Unit) t =
      .error x v) : ∃ s, moveIn now p bytes t = .error x s ∧ Cleared (tempSibling p) v s := by
  obtain ⟨a, s, hs, hcleared⟩ | ⟨y, s, hs, hcleared⟩ :=
    cases_of_triple (removeFile_spec (tempSibling p) v) rfl
  · exact ⟨s, (tryCatch_of_error h).trans (bind_of_ok (tryCatch_of_ok hs)), hcleared⟩
  · exact ⟨s, (tryCatch_of_error h).trans (bind_of_ok ((tryCatch_of_error hs).trans rfl)), hcleared⟩

theorem moveIn_movesIn (now : Instant) (p : Path) (bytes : List UInt8) (t : FileTree) :
    MovesIn now p bytes t ((moveIn now p bytes).exec t) := by
  obtain ⟨⟨⟩, v, hwrite, l, hl, rfl⟩ | ⟨x, v, hwrite, hsame⟩ :=
    cases_of_triple (write_spec now (tempSibling p) bytes t) rfl
  · obtain ⟨⟨⟩, s, hrename, hmoved⟩ | ⟨x, v, hrename, hsame⟩ :=
      cases_of_triple (rename_spec (tempSibling p) p (t.insert l (.file bytes now))) rfl
    · have hrun : moveIn now p bytes t = .ok () s :=
        tryCatch_of_ok ((bind_of_ok hwrite).trans hrename)
      rw [exec_of_ok hrun]
      exact .moved hl hmoved
    · obtain ⟨s, hrun, hcleared⟩ := moveIn_of_error ((bind_of_ok hwrite).trans hrename)
      rw [exec_of_error hrun]
      exact .unmoved hl (hsame ▸ hcleared)
  · obtain ⟨s, hrun, hcleared⟩ := moveIn_of_error (bind_of_error hwrite)
    rw [exec_of_error hrun]
    exact .unwritten (hsame ▸ hcleared)

/-! ## What moving a file in changes -/

section MoveIn

variable {l k m : Location} {r : Except IoError Unit × FileTree}

theorem endsInDots_sibling (p : Path) {suffix : String} (hlength : 2 < suffix.length)
    (hslash : '/' ∉ suffix.toList) : endsInDots (p.sibling suffix) = false := by
  obtain ⟨ss, s, hnames, hs, -⟩ := exists_names_sibling p suffix hlength hslash
  rw [names] at hnames
  simp [endsInDots, hnames, hs.ne_here, hs.ne_up]

theorem endsInDots_tempSibling (p : Path) : endsInDots (tempSibling p) = false :=
  endsInDots_sibling p (by decide) (by decide)

theorem spot_kept_tempSibling (t : FileTree) (p : Path) :
    t.spot .kept (tempSibling p) = t.spotOfName (tempSibling p) := by
  obtain ⟨_, _, -, -, hsteps⟩ := exists_names_sibling p ".tmp" (by decide) (by decide)
  rw [FileTree.spot, tempSibling, hsteps, spotOfName]

/-- A sibling that is no link is written where it is named. -/
theorem names_of_leadsTo (hl : LeadsTo t (tempSibling p) l)
    (hlink : t.NamesNoLink (tempSibling p)) : t.Names (tempSibling p) l := by
  obtain ⟨ss, s, hnames, hs, hsteps⟩ :=
    exists_names_sibling p ".tmp" (by decide) (by decide)
  obtain ⟨sp, hspot, hend⟩ : ∃ sp, t.spot .written (tempSibling p) = .ok sp ∧
      (sp = .entry l ∨ sp = .vacant l) :=
    hl.elim (fun h ↦ ⟨_, h, .inr rfl⟩) fun h ↦ ⟨_, h.1, .inl rfl⟩
  rw [FileTree.spot, tempSibling, hsteps, hnames] at hspot
  obtain ⟨k, hk, hstanding⟩ := Hosts.of_look hnames hs hspot
  rw [hstanding fun target hget ↦ absurd hget (hlink _ (hk.names_iff.2 rfl) target), standing] at hend
  refine hk.names_iff.2 ?_
  split_ifs at hend <;> simpa [eq_comm] using hend

/-- A file comes where the sibling leads to; no directory and no link goes. -/
theorem changes_of_leadsTo (now : Instant) (bytes : List UInt8) (hl : LeadsTo t q l) :
    ChangesOnly (· = l) t (t.insert l (.file bytes now)) ∧
      Steers t (t.insert l (.file bytes now)) := by
  obtain ⟨hne, hbefore⟩ := hl.isFile
  have hchanges : ChangesOnly (· = l) t (t.insert l (.file bytes now)) :=
    .insert hne rfl hbefore rfl
  refine ⟨hchanges, hchanges.steers ?_⟩
  rintro k rfl target hget
  simpa [Entry.isFile] using hbefore _ hget

theorem Cleared.names (h : Cleared (tempSibling p) t s) (hne : s.get? k ≠ t.get? k) :
    t.Names (tempSibling p) k ∧ s.get? k = none ∧ ¬t.DirAt k := by
  cases h with
  | kept => exact absurd rfl hne
  | @gone l hl hdir =>
    rw [spot_kept_tempSibling] at hl
    have hnil : l ≠ [] := Names.ne_nil (.inl hl) (endsInDots_tempSibling p)
    rw [get?_erase t hnil] at hne ⊢
    split_ifs at hne ⊢ with hk
    · exact ⟨hk ▸ .inl hl, rfl, hk ▸ hdir⟩
    · exact absurd rfl hne

theorem Renamed.names (h : Renamed q p t s) (hq : endsInDots q = false)
    (hne : s.get? k ≠ t.get? k) : t.Names q k ∨ t.Names p k := by
  cases h with
  | same => exact absurd rfl hne
  | @moved l m e hl he hm hdir hdots hslash hlm =>
    by_cases hk : k = l
    · exact .inl (hk ▸ .inl hl)
    · refine .inr ?_
      by_contra hk'
      rw [get?_insert _ (Names.ne_nil hm hdots), if_neg fun h : k = m ↦ hk' (h ▸ hm),
        get?_erase t (Names.ne_nil (.inl hl) hq), if_neg hk] at hne
      exact hne rfl

/-- Nothing changes but where the path and its sibling name an entry, and where the sibling leads
to. -/
theorem MovesIn.frame (h : MovesIn now p bytes t r) (hne : r.2.get? k ≠ t.get? k) :
    t.Names p k ∨ t.Names (tempSibling p) k ∨ LeadsTo t (tempSibling p) k := by
  by_cases hk : LeadsTo t (tempSibling p) k
  · exact .inr (.inr hk)
  have hwritten {l : Location} (hl : LeadsTo t (tempSibling p) l) :
      (t.insert l (.file bytes now)).get? k = t.get? k := by
    rw [get?_insert t hl.isFile.1, if_neg fun h : k = l ↦ hk (h ▸ hl)]
  have hback {q : Path} {l : Location} (hl : LeadsTo t (tempSibling p) l)
      (hq : endsInDots q = false) (hk : (t.insert l (.file bytes now)).Names q k) : t.Names q k :=
    hk.of_steers hq (changes_of_leadsTo now bytes hl).1.steers_before
  have htemp := endsInDots_tempSibling p
  cases h with
  | unwritten h => exact .inr (.inl (h.names hne).1)
  | unmoved hl h =>
    rw [← hwritten hl] at hne
    exact .inr (.inl (hback hl htemp (h.names hne).1))
  | moved hl h =>
    rw [← hwritten hl] at hne
    obtain hq | hp := h.names htemp hne
    · exact .inr (.inl (hback hl htemp hq))
    · refine .inl (hback hl ?_ hp)
      cases h with
      | moved _ _ _ _ hdots | same _ _ hdots => exact hdots

/-- The entry that a path names is not the one that its sibling names. -/
theorem ne_of_names (hm : t.Names p m) (hp : endsInDots p = false)
    (hl : t.Names (tempSibling p) l) : l ≠ m := by
  obtain ⟨k, n, hk, rfl⟩ := hm.hosts hp
  obtain ⟨k', s, hk', rfl⟩ := hl.hosts (endsInDots_tempSibling p)
  obtain ⟨rfl, rfl⟩ := hk.eq_of_sibling (by decide) (by decide) hk'
  exact (ne_append_suffix _ n (by decide)).symm

/-- From `t` to `s` the path `p` came to name a file at `m`, and its sibling names nothing any
more. -/
structure Placed (now : Instant) (p : Path) (bytes : List UInt8) (m : Location) (t s : FileTree) :
    Prop where
  names : t.Names p m
  dots : endsInDots p = false
  slash : p.text.toList.getLast? ≠ some '/'
  dir : ¬t.DirAt m
  there : s.get? m = some (.file bytes now)
  temp : ∀ k, t.Names (tempSibling p) k → s.get? k = none
  changes : ChangesOnly (fun k ↦ k = m ∨ t.Names (tempSibling p) k) t s

theorem MovesIn.placed (h : MovesIn now p bytes t (.ok (), s))
    (hlink : t.NamesNoLink (tempSibling p)) : ∃ m, Placed now p bytes m t s := by
  have htemp := endsInDots_tempSibling p
  cases h with
  | @moved l _ hl h =>
    have hname := names_of_leadsTo hl hlink
    obtain ⟨hchanges, -⟩ := changes_of_leadsTo now bytes hl
    have hback {q : Path} {k : Location} (hq : endsInDots q = false)
        (hk : (t.insert l (.file bytes now)).Names q k) : t.Names q k :=
      hk.of_steers hq hchanges.steers_before
    have hthere : (t.insert l (.file bytes now)).get? l = some (.file bytes now) := by
      rw [get?_insert t hl.isFile.1, if_pos rfl]
    cases h with
    | @moved l' m e hl' he hm hdir hdots hslash hlm =>
      obtain rfl := (hback htemp (.inl hl')).unique hname
      rw [hthere, Option.some_inj] at he
      subst he
      have hm' := hback hdots hm
      have hne : l' ≠ [] := hl.isFile.1
      have hne' : m ≠ [] := hm'.ne_nil hdots
      have hfree : ((t.insert l' (.file bytes now)).erase l').get? m = t.get? m := by
        rw [get?_erase _ hne, if_neg hlm.symm, hchanges.others m hlm.symm]
      refine ⟨m, hm', hdots, hslash, fun h ↦ hdir (hchanges.dirs m h), ?_, fun k hk ↦ ?_, ?_⟩
      · rw [get?_insert _ hne', if_pos rfl]
      · obtain rfl := hk.unique hname
        rw [get?_insert _ hne', if_neg hlm, get?_erase _ hne, if_pos rfl]
      · refine (hchanges.mono fun k hk _ ↦ .inr (hk ▸ hname)).trans
          (.trans (.erase hne (.inr hname) ?_) (.put hne' (.inl rfl) ?_ rfl))
        · simp [DirAt, hthere]
        · rw [DirAt, hfree]
          exact fun h ↦ hdir (hchanges.dirs m h)
    | same hl' hm hdots =>
      exact absurd rfl (ne_of_names (hback hdots hm) hdots (hback htemp (.inl hl')))

/-- When moving a file in fails, at most what the sibling named is gone. -/
theorem MovesIn.failed {x : IoError} (h : MovesIn now p bytes t (.error x, s))
    (hlink : t.NamesNoLink (tempSibling p)) :
    ChangesOnly (t.Names (tempSibling p)) t s ∧ ∀ k, s.get? k ≠ t.get? k → s.get? k = none := by
  have htemp := endsInDots_tempSibling p
  have hcleared {v : FileTree} (h : Cleared (tempSibling p) v s) :
      ChangesOnly (v.Names (tempSibling p)) v s := by
    cases h with
    | kept => exact .refl _ _
    | gone hl hdir =>
      rw [spot_kept_tempSibling] at hl
      exact .erase (Names.ne_nil (.inl hl) htemp) (.inl hl) hdir
  cases h with
  | unwritten h => exact ⟨hcleared h, fun k hk ↦ (h.names hk).2.1⟩
  | @unmoved l _ _ hl h =>
    have hname := names_of_leadsTo hl hlink
    obtain ⟨hchanges, hsteers⟩ := changes_of_leadsTo now bytes hl
    have hback {k : Location} (hk : (t.insert l (.file bytes now)).Names (tempSibling p) k) :
        k = l := (hk.of_steers htemp hchanges.steers_before).unique hname
    refine ⟨(hchanges.mono fun k hk _ ↦ hk ▸ hname).trans
      ((hcleared h).mono fun k hk _ ↦ hback hk ▸ hname), fun k hk ↦ ?_⟩
    -- The file that was written is removed again.
    have hgone : s.get? l = none := by
      have hthere : (t.insert l (.file bytes now)).get? l = some (.file bytes now) := by
        rw [get?_insert t hl.isFile.1, if_pos rfl]
      have hspot : (t.insert l (.file bytes now)).spotOfName (tempSibling p) = .ok (.entry l) := by
        refine (hname.of_steers htemp hsteers).resolve_right fun hfree ↦ ?_
        simpa [hthere] using (look_vacant_inv hfree).2
      rw [← spot_kept_tempSibling] at hspot
      cases h with
      | kept h => simpa [DirAt, hthere] using h l hspot
      | gone hl' =>
        cases hspot.symm.trans hl'
        rw [get?_erase _ hl.isFile.1, if_pos rfl]
    by_cases hkl : k = l
    · rw [hkl, hgone]
    · rw [← hchanges.others k hkl] at hk
      exact (h.names hk).2.1

/-! ## Putting a file in place -/

/-- A failure to make the parents is all there is; else the file is moved in. -/
theorem exec_writeAtomic (now : Instant) (p : Path) (bytes : List UInt8) (t : FileTree) :
    let u := ((makeParents p).exec t).2
    (∃ x, (writeAtomic now p bytes).exec t = (.error x, u)) ∨
      (writeAtomic now p bytes).exec t = (moveIn now p bytes).exec u := by
  rw [writeAtomic_eq]
  cases h : makeParents p t with
  | error x s =>
    rw [exec_of_error h]
    exact .inl ⟨x, exec_of_error (bind_of_error h)⟩
  | ok a s =>
    rw [exec_of_ok h]
    right
    rw [exec, exec, EStateM.run, EStateM.run, bind_of_ok h]

/-- A path that named no link leads to the file that was put in its place. -/
theorem Placed.read (h : Placed now p bytes m t s) (hlink : t.NamesNoLink p)
    (htemp : t.NamesNoLink (tempSibling p)) : s.read p = .ok bytes := by
  obtain ⟨k, n, hk, rfl⟩ := h.names.hosts h.dots
  have hsteers : Steers t s := by
    refine h.changes.steers ?_
    rintro q (rfl | hq)
    · exact hlink _ h.names
    · exact htemp q hq
  exact (hk.of_steers hsteers).read h.slash h.there

/-- Putting a file in place touches the entry that the path names, the one that the sibling names,
and missing parents. If the sibling names a link, it also touches what that leads to. Without a link
there, the file is there as a whole, or nothing but the sibling is different. -/
theorem writeAtomic_touches (now : Instant) (p : Path) (bytes : List UInt8) (t : FileTree) :
    let u := ((makeParents p).exec t).2
    let r := (writeAtomic now p bytes).exec t
    Furnished p.Above t u ∧
      (∀ l, r.2.get? l ≠ u.get? l →
        u.Names p l ∨ u.Names (tempSibling p) l ∨ LeadsTo u (tempSibling p) l) ∧
      (u.NamesNoLink (tempSibling p) →
        (r.1 = .ok () →
          (∃ m, u.Names p m ∧ ¬u.DirAt m ∧ r.2.get? m = some (.file bytes now)) ∧
          (∀ l, u.Names (tempSibling p) l → r.2.get? l = none) ∧
          (u.NamesNoLink p → r.2.read p = .ok bytes)) ∧
        ∀ x, r.1 = .error x → ∀ l, r.2.get? l ≠ u.get? l →
          u.Names (tempSibling p) l ∧ r.2.get? l = none ∧
            (endsInDots p = false → ¬u.Names p l)) := by
  intro u r
  refine ⟨makeParents_furnishes p t, ?_⟩
  obtain ⟨x, hr⟩ | hr := exec_writeAtomic now p bytes t
  · have hr : r = (.error x, u) := hr
    rw [hr]
    exact ⟨fun l hl ↦ absurd rfl hl, fun _ ↦ ⟨by simp, fun _ _ l hl ↦ absurd rfl hl⟩⟩
  · have hmoves : MovesIn now p bytes u r := by
      rw [show r = (moveIn now p bytes).exec u from hr]
      exact moveIn_movesIn now p bytes u
    refine ⟨fun l ↦ hmoves.frame, fun hlink ↦ ⟨fun hok ↦ ?_, fun x herror l hl ↦ ?_⟩⟩
    · obtain ⟨m, hm⟩ := MovesIn.placed (s := r.2) (by rwa [← hok]) hlink
      exact ⟨⟨m, hm.names, hm.dir, hm.there⟩, hm.temp, fun hp ↦ hm.read hp hlink⟩
    · obtain ⟨hchanges, hgone⟩ := MovesIn.failed (x := x) (s := r.2) (by rwa [← herror]) hlink
      have hname : u.Names (tempSibling p) l := not_not.1 fun h ↦ hl (hchanges.others l h)
      exact ⟨hname, hgone l hl, fun hp hm ↦ ne_of_names hm hp hname rfl⟩

/-- Where the parents are there and the sibling is no link, a file is put in place or nothing but the
sibling is different. -/
theorem writeAtomic_cases (hdir : ∀ u ∈ p.parent?, u.text.isEmpty ∨ t.isDir u)
    (hlink : t.NamesNoLink (tempSibling p)) (now : Instant) (bytes : List UInt8) :
    (∃ s m, (writeAtomic now p bytes).exec t = (.ok (), s) ∧ Placed now p bytes m t s) ∨
      ∃ x s, (writeAtomic now p bytes).exec t = (.error x, s) ∧
        ChangesOnly (t.Names (tempSibling p)) t s := by
  have hrun : (writeAtomic now p bytes).exec t = (moveIn now p bytes).exec t := by
    rw [writeAtomic_eq, exec, exec, EStateM.run, EStateM.run,
      bind_of_ok (makeParents_of_isDir hdir)]
  have hmoves := moveIn_movesIn now p bytes t
  rw [hrun]
  rcases hresult : (moveIn now p bytes).exec t with ⟨x | ⟨⟨⟩⟩, s⟩ <;> rw [hresult] at hmoves
  · exact .inr ⟨x, s, rfl, (hmoves.failed hlink).1⟩
  · obtain ⟨m, hm⟩ := hmoves.placed hlink
    exact .inl ⟨s, m, rfl, hm⟩

/-- If there is no link on the way, the path is the one that leads to the file. -/
theorem writeAtomic_replaces (hp : t.Leads p k) (hm : t.Leads (tempSibling p) m)
    (hdir : Housed t p) (now : Instant) (bytes : List UInt8) (h : ChangesOnly (· = m) t s) :
    (∃ s', (writeAtomic now p bytes).exec s = (.ok (), s') ∧
      Replaced p k m (.file bytes now) t s') ∨
    ∃ x s', (writeAtomic now p bytes).exec s = (.error x, s') ∧ ChangesOnly (· = m) t s' := by
  have hparents (u : Path) (hu : u ∈ p.parent?) : u.text.isEmpty ∨ s.isDir u :=
    (hdir.of_changes h u hu).imp_right fun ⟨_, _, hdir⟩ ↦ hdir
  have htemp (q : Location) (hq : s.Names (tempSibling p) q) : q = m :=
    (hm.of_changes h).eq_of_names hq
  have hlink : s.NamesNoLink (tempSibling p) := fun q hq ↦ htemp q hq ▸ (hm.of_changes h).ne_link
  obtain ⟨s', q, hexec, hplaced⟩ | ⟨x, s', hexec, hchanges⟩ :=
    writeAtomic_cases hparents hlink now bytes
  · obtain rfl := (hp.of_changes h).eq_of_names hplaced.names
    have hchanges : ChangesOnly (fun l ↦ l = q ∨ l = m) t s' :=
      (h.mono fun _ hl _ ↦ .inr hl).trans (hplaced.changes.mono fun l hl _ ↦ hl.imp_right (htemp l))
    have hsteers : Steers t s' := hchanges.steers (by
      rintro l (rfl | rfl)
      · exact hp.ne_link
      · exact hm.ne_link)
    have hname := hplaced.names.of_steers hplaced.dots h.steers_before
    obtain ⟨d, n, hd, rfl⟩ := hname.hosts hplaced.dots
    refine .inl ⟨s', hexec, hchanges, hplaced.there, ?_, ?_⟩
    · rw [hd.contains_iff hplaced.slash hp.ne_link, Option.isSome_iff_ne_none]
      exact em _
    · rw [(hd.of_steers hsteers).contains_iff hplaced.slash (by simp [hplaced.there]),
        hplaced.there]
      rfl
  · exact .inr ⟨x, s', hexec, h.trans (hchanges.mono fun q hq _ ↦ htemp q hq)⟩

/-- A file, and another one under the name of its sibling. -/
def siblingTree : FileTree where
  entries := [(["f"], .file [0x6F] ⟨0, 0⟩), (["f.tmp"], .file [0x6D] ⟨0, 0⟩)]

theorem namesNoLink_of_linkless (h : t.Linkless) (p : Path) : t.NamesNoLink p :=
  fun _ _ ↦ get?_ne_link_of_entries h _

theorem writeAtomic_touches_siblingTree :
    ((writeAtomic ⟨1, 0⟩ ⟨"f"⟩ [0x6E]).exec siblingTree).1 = .ok () ∧
      ((writeAtomic ⟨1, 0⟩ ⟨"f"⟩ [0x6E]).exec siblingTree).2.read ⟨"f"⟩ = .ok [0x6E] := by
  have hok : ((writeAtomic ⟨1, 0⟩ ⟨"f"⟩ [0x6E]).exec siblingTree).1 = .ok () := by decide +kernel
  have hlink (q : Path) : ((makeParents ⟨"f"⟩).exec siblingTree).2.NamesNoLink q :=
    namesNoLink_of_linkless (by decide +kernel) q
  obtain ⟨-, -, htouches⟩ := writeAtomic_touches ⟨1, 0⟩ ⟨"f"⟩ [0x6E] siblingTree
  exact ⟨hok, ((htouches (hlink _)).1 hok).2.2 (hlink _)⟩

/-- A file, and a link to it under the name of another's sibling. -/
def linkedSiblingTree : FileTree where
  entries := [(["g"], .file [0x6D] ⟨0, 0⟩), (["f.tmp"], .link "g")]

/-- What stands under the name of the sibling is not left alone: a file is used up, and through a link
another file is written, which the path then is a link to. -/
theorem writeAtomic_takes_sibling :
    (siblingTree.get? ["f.tmp"] = some (.file [0x6D] ⟨0, 0⟩) ∧
      let r := (writeAtomic ⟨1, 0⟩ ⟨"f"⟩ [0x6E]).exec siblingTree
      r.1 = .ok () ∧ r.2.get? ["f.tmp"] = none) ∧
    let r := (writeAtomic ⟨1, 0⟩ ⟨"f"⟩ [0x6E]).exec linkedSiblingTree
    r.1 = .ok () ∧ r.2.get? ["g"] = some (.file [0x6E] ⟨1, 0⟩) ∧
      r.2.get? ["f"] = some (.link "g") := by
  decide +kernel

end MoveIn

end Disk

end Steward
