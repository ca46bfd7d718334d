import Steward.Proofs.FileTree.NoLinks

/-!
# Trees that grow

Making directories, and putting files at free places or in place of others, takes nothing away: what
a path led to it leads to still, `FileTree.Grows.look`. None of the operations makes a link where
there was none, `Disk.writeAtomic_linkless`.
-/

namespace Steward

set_option mvcgen.warning false

open Location FileTree Std.Do

theorem Entry.isFile_appended (now : Instant) (bytes : List UInt8) (e : Entry) :
    (e.appended now bytes).isFile = e.isFile := by
  cases e <;> rfl

namespace FileTree

/-- No entry is a link. -/
def Linkless (t : FileTree) : Prop := ∀ x ∈ t.entries, x.2.isDir ∨ x.2.isFile

instance (t : FileTree) : Decidable t.Linkless :=
  inferInstanceAs (Decidable (∀ x ∈ t.entries, x.2.isDir ∨ x.2.isFile))

variable {t t' t'' : FileTree} {l : Location} {e : Entry}

theorem Linkless.erase (h : t.Linkless) (l : Location) : (t.erase l).Linkless :=
  fun x hx ↦ h x (List.mem_filter.1 hx).1

theorem Linkless.insert (h : t.Linkless) (l : Location) (he : e.isDir ∨ e.isFile) :
    (t.insert l e).Linkless := by
  intro x hx
  rcases List.mem_cons.1 hx with rfl | hx
  · exact he
  · exact h x (List.mem_filter.1 hx).1

theorem Linkless.of_get? (h : t.Linkless) (hget : t.get? l = some e) : e.isDir ∨ e.isFile := by
  obtain ⟨-, rfl⟩ | hmem := mem_of_get? hget
  · exact .inl rfl
  · exact h _ hmem

/-- From `t` to `t'` nothing went, and files stayed files. -/
structure Grows (t t' : FileTree) : Prop where
  workingDir : t'.workingDir = t.workingDir
  entries : ∀ q e, t.get? q = some e → t'.get? q = some e ∨ e.isFile ∧ t'.FileAt q

theorem Grows.refl (t : FileTree) : Grows t t := ⟨rfl, fun _ _ ↦ .inl⟩

theorem Grows.fileAt (h : Grows t t') (hl : t.FileAt l) : t'.FileAt l := by
  obtain ⟨e, hget, hfile⟩ := hl
  rcases h.entries l e hget with hget | ⟨-, hl⟩
  · exact ⟨e, hget, hfile⟩
  · exact hl

theorem Grows.dirAt (h : Grows t t') (hl : t.DirAt l) : t'.DirAt l := by
  rcases h.entries l _ hl with hl | ⟨hfile, -⟩
  · exact hl
  · cases hfile

theorem Grows.link (h : Grows t t') {target : String} (hl : t.get? l = some (.link target)) :
    t'.get? l = some (.link target) := by
  rcases h.entries l _ hl with hl | ⟨hfile, -⟩
  · exact hl
  · cases hfile

theorem Grows.trans (h : Grows t t') (h' : Grows t' t'') : Grows t t'' where
  workingDir := h'.workingDir.trans h.workingDir
  entries q e hget := by
    rcases h.entries q e hget with hget' | ⟨hfile, hat⟩
    · exact h'.entries q e hget'
    · exact .inr ⟨hfile, h'.fileAt hat⟩

theorem Grows.insert (hl : l ≠ []) (hbefore : ∀ e' ∈ t.get? l, e'.isFile ∧ e.isFile) :
    Grows t (t.insert l e) where
  workingDir := rfl
  entries q e' hget := by
    rw [FileAt, get?_insert t hl]
    split_ifs with hq
    · subst hq
      obtain ⟨hfile', hfile⟩ := hbefore e' hget
      exact .inr ⟨hfile', e, rfl, hfile⟩
    · exact .inl hget

theorem Grows.steers (h : Grows t t') : Steers t t' :=
  ⟨h.workingDir, fun _ ↦ h.dirAt, fun _ _ ↦ h.link⟩

/-- What steps led to they lead to still when the tree has grown. -/
theorem Grows.look (h : Grows t t') {last : LastStep} {p : Path} {ss : List String}
    (hl : t.look last p ss = .ok (.entry l)) : t'.look last p ss = .ok (.entry l) := by
  refine look_of_steers h.steers hl (.entry fun e he ↦ ?_)
  obtain hget | ⟨-, e', hget, hfile⟩ := h.entries l e he
  · exact ⟨e, hget, .inl rfl⟩
  · refine ⟨e', hget, .inr ?_⟩
    rintro target rfl
    cases hfile

end FileTree

namespace Disk

variable {P : FileTree → Prop}

section Scope

variable {Q : Path → Prop} (hQ : ∀ p q, Q p → p.parent? = some q → Q q)
  (hdirs : ∀ t p l, Q p → P t → t.spotOfName p = .ok (.vacant l) → P (t.insert l .dir))
include hdirs

theorem makeDir_scoped {p : Path} (hp : Q p) : Preserves P (makeDir p) := by
  mvcgen [makeDir, ask]
  case vc2 t ht _ hspot l hl _ =>
    subst hl
    exact hdirs t p l hp ht hspot

theorem ensureDir_scoped {p : Path} (hp : Q p) : Preserves P (ensureDir p) := by
  refine triple_iff.2 fun t ht ↦ ?_
  rw [ensureDir]
  obtain ⟨_, t', hmake, hmade⟩ | ⟨_, t', hmake, hmade⟩ :=
    cases_of_triple (makeDir_scoped hdirs hp) ht
  · rw [hmake]
    exact hmade
  · simp only [hmake]
    split_ifs <;> exact hmade

include hQ

/-- Making directories keeps what a single new directory keeps, where the path or one above it leads
to. -/
theorem makeDirsFrom_scoped (depth : Nat) {p : Path} (hp : Q p) :
    Preserves P (makeDirsFrom depth p) := by
  induction depth generalizing p with
  | zero => exact ensureDir_scoped hdirs hp
  | succ depth ih =>
    refine triple_iff.2 fun t ht ↦ ?_
    have hmade := triple_iff.1 (makeDir_scoped hdirs hp) t ht
    simp only [makeDirsFrom]
    split_ifs
    · exact ht
    · cases hmake : makeDir p t with
      | ok _ t' =>
        rw [hmake] at hmade
        exact hmade
      | error x t' =>
        rw [hmake] at hmade
        by_cases hx : x = .notFound
        · subst hx
          cases hq : p.parent? with
          | none => exact hmade
          | some q =>
            have habove := triple_iff.1 (ih (hQ p q hp hq)) t' hmade
            simp only
            cases hdirs' : makeDirsFrom depth q t' with
            | error _ t'' =>
              rw [hdirs'] at habove
              exact habove
            | ok _ t'' =>
              rw [hdirs'] at habove
              exact triple_iff.1 (ensureDir_scoped hdirs hp) t'' habove
        · cases x
          case notFound => exact absurd rfl hx
          all_goals
            simp only
            split_ifs <;> exact hmade

theorem makeParents_scoped {p : Path} (hp : ∀ q, p.parent? = some q → Q q) :
    Preserves P (makeParents p) := by
  rw [makeParents]
  cases hq : p.parent? with
  | none => exact triple_iff.2 fun _ ht ↦ ht
  | some q => exact makeDirsFrom_scoped hQ hdirs _ (hp q hq)

end Scope

section Frame

variable (hdirs : ∀ t l, P t → l ≠ [] → t.get? l = none → P (t.insert l .dir))
include hdirs

theorem makeDirs_frame (p : Path) : Preserves P (makeDirs p) :=
  makeDirsFrom_scoped (Q := fun _ ↦ True) (fun _ _ _ _ ↦ trivial) (fun t _ l _ ht hspot ↦
    hdirs t l ht (look_vacant_inv hspot).1 (look_vacant_inv hspot).2) _ trivial

theorem makeParents_frame (p : Path) : Preserves P (makeParents p) := by
  have hmake := makeDirs_frame hdirs
  mvcgen [makeParents, hmake]

end Frame

/-- Putting a file keeps what a file at a free place or in place of another keeps. -/
theorem update_frame
    (hfiles : ∀ t l e, P t → l ≠ [] → (∀ e' ∈ t.get? l, e'.isFile) → e.isFile → P (t.insert l e))
    (now : Instant) (p : Path) {f : Entry → Entry} (hf : ∀ e, e.isFile → (f e).isFile) :
    Preserves P (update now p f) := by
  mvcgen [update, ask]
  case vc1 t ht _ hspot l hl _ =>
    subst hl
    obtain ⟨hne, hfree⟩ := look_vacant_inv hspot
    exact hfiles t l _ ht hne (by simp [hfree]) (hf _ rfl)
  case vc2 t ht _ hspot l hl e hget hfile _ =>
    refine hfiles t l _ ht (FileAt.ne_nil ⟨e, hget, hfile⟩) (by simpa [hget] using hfile) (hf e hfile)

theorem removeFile_linkless (p : Path) : Preserves (·.Linkless) (removeFile p) := by
  mvcgen [removeFile, ask]
  case vc3 h _ _ l _ _ _ => exact h.erase l

theorem rename_linkless (p q : Path) : Preserves (·.Linkless) (rename p q) := by
  mvcgen [rename, ask]
  case vc5 | vc8 =>
    have h := ‹Linkless _›
    exact (h.erase _).insert _ (h.of_get? ‹get? _ _ = some _›)

theorem writeAtomic_linkless (now : Instant) (p : Path) (bytes : List UInt8) :
    Preserves (·.Linkless) (writeAtomic now p bytes) := by
  have hparents := @makeParents_frame Linkless fun t l ht _ _ ↦ ht.insert l (.inl rfl)
  have hwrite (now : Instant) (p : Path) (bytes : List UInt8) :
      Preserves (·.Linkless) (write now p bytes) :=
    update_frame (fun t l e ht _ _ he ↦ ht.insert l (.inr he)) now p fun _ _ ↦ rfl
  have hrename := rename_linkless
  have hremove := removeFile_linkless
  mvcgen [writeAtomic, hparents, hwrite, hrename, hremove]
  case vc4 => exact id

end Disk

end Steward
