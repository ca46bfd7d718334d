import Steward.Proofs.FileTree.NoLinks
import Steward.Proofs.Ledger.Run

/-!
# Where a ledger stands

A ledger can be added to as long as its path leads to a file or to a free place, `Ledger.LeadsTo`.
It leads there still after files came, went or changed, if none of them took the place of a link:
`FileTree.ChangesOnly.leadsTo`.
-/

namespace Steward

set_option mvcgen.warning false

open FileTree Std.Do

namespace FileTree

section Changes

variable {S : Location → Prop} {t t' : FileTree} {at_ : Location} {ss : List String}

/-- A step that names a file or nothing ends there. -/
theorem exists_advances {s : String} (hdir : t.DirAt at_) (hs : IsName s)
    (hfile : ∀ e ∈ t.get? (at_ ++ [s]), e.isFile) :
    ∃ r, Advances t .written at_ [s] r ∧
      (r = .vacant (at_ ++ [s]) ∨ r = .entry (at_ ++ [s]) ∧ t.FileAt (at_ ++ [s])) := by
  cases hget : t.get? (at_ ++ [s]) with
  | none => exact ⟨_, .free hdir hs hget, .inl rfl⟩
  | some e =>
    have he := hfile e hget
    refine ⟨_, .enter hdir hs hget ?_ (by simp) (.done _), .inr ⟨rfl, e, hget, he⟩⟩
    rintro target rfl
    cases he

/-- After files came and went, steps lead to the same file or free place, or to the same link. -/
theorem ChangesOnly.advances (h : ChangesOnly S t t')
    (hS : ∀ q, S q → ∀ target, t.get? q ≠ some (.link target)) {r : Reached}
    (hr : Advances t .written at_ ss r) (hat : ∀ k, k <+: at_ → t.DirAt k) :
    ∃ r', Advances t' .written at_ ss r' ∧
      (∀ l, r = .vacant l ∨ r = .entry l ∧ t.FileAt l →
        r' = .vacant l ∨ r' = .entry l ∧ t'.FileAt l) ∧
      ∀ from_ target rest, r = .detour from_ target rest →
        r' = r ∧ ∀ k, k <+: from_ → t.DirAt k := by
  have hends {at_ : Location} {s : String} {r : Reached} (hd : t.DirAt at_) (hs : IsName s)
      (hfile : ∀ e ∈ t.get? (at_ ++ [s]), e.isFile)
      (hr : r = .vacant (at_ ++ [s]) ∨ r = .entry (at_ ++ [s])) :
      ∃ r', Advances t' .written at_ [s] r' ∧
        (∀ l, r = .vacant l ∨ r = .entry l ∧ t.FileAt l →
          r' = .vacant l ∨ r' = .entry l ∧ t'.FileAt l) ∧
        ∀ from_ target rest, r = .detour from_ target rest →
          r' = r ∧ ∀ k, k <+: from_ → t.DirAt k := by
    obtain ⟨r', hr', hend⟩ := exists_advances (h.dirs _ hd) hs fun e he ↦
      (h.files _ e he).elim (hfile e) And.right
    refine ⟨r', hr', fun l hl ↦ ?_, by rintro _ _ _ rfl; simp at hr⟩
    obtain rfl | rfl := hr <;> obtain ⟨⟨⟩⟩ | ⟨⟨⟩, -⟩ := hl <;> exact hend
  induction hr with
  | done at_ =>
    refine ⟨_, .done at_, fun l hl ↦ ?_, by simp⟩
    obtain ⟨⟨⟩⟩ | ⟨⟨⟩, hfile⟩ := hl
    exact absurd (hat _ List.prefix_rfl) hfile.not_dirAt
  | stay hd hs _ ih =>
    obtain ⟨r', hr', hends⟩ := ih hat
    exact ⟨r', .stay (h.dirs _ hd) hs hr', hends⟩
  | up hd _ ih =>
    obtain ⟨r', hr', hends⟩ := ih fun k hk ↦ hat k (hk.trans (List.dropLast_prefix _))
    exact ⟨r', .up (h.dirs _ hd) hr', hends⟩
  | free hd hs hget => exact hends hd hs (by simp [hget]) (.inl rfl)
  | keep _ _ _ hlast => cases hlast
  | @turn at_ s rest target hd hs hget hrest hslash =>
    refine ⟨_, .turn (h.dirs _ hd) hs ?_ hrest hslash, by simp, fun _ _ _ hr ↦ ⟨rfl, ?_⟩⟩
    · rw [h.others _ fun hq ↦ hS _ hq target hget, hget]
    · cases hr
      exact hat
  | @enter at_ s rest r e hd hs hget he hslash next ih =>
    by_cases hfile : e.isFile
    · -- A file is the end of the way.
      have hend : rest = [] ∧ r = .entry (at_ ++ [s]) := by
        cases next with
        | done => exact ⟨rfl, rfl⟩
        | stay hd | up hd | free hd | keep hd | turn hd | enter hd =>
          exact absurd hd (FileAt.not_dirAt ⟨e, hget, hfile⟩)
      obtain ⟨rfl, rfl⟩ := hend
      exact hends hd hs (by simpa [hget] using hfile) (.inr rfl)
    · have hdir' : t.DirAt (at_ ++ [s]) := by
        cases e with
        | dir => exact hget
        | link target => exact absurd rfl (he target)
        | file | database => exact absurd rfl hfile
      obtain ⟨r', hr', hends⟩ := ih fun k hk ↦ (List.prefix_concat_iff.1 hk).elim (· ▸ hdir') (hat k)
      exact ⟨r', .enter (h.dirs _ hd) hs (h.dirs _ hdir') (by simp) hslash hr', hends⟩

theorem ChangesOnly.walks (h : ChangesOnly S t t')
    (hS : ∀ q, S q → ∀ target, t.get? q ≠ some (.link target)) {links : Nat} {s : Spot}
    (hs : Walks t .written links at_ ss s) (hat : ∀ k, k <+: at_ → t.DirAt k) {l : Location}
    (hl : s = .vacant l ∨ s = .entry l ∧ t.FileAt l) :
    Walks t' .written links at_ ss (.vacant l) ∨
      Walks t' .written links at_ ss (.entry l) ∧ t'.FileAt l := by
  induction hs with
  | entry hr | vacant hr =>
    obtain ⟨r', hr', hends, -⟩ := h.advances hS hr hat
    obtain rfl | ⟨rfl, hfile⟩ := hends l (by simpa using hl)
    · exact .inl (.vacant hr')
    · exact .inr ⟨.entry hr', hfile⟩
  | @detour links at_ ss from_ target rest s hr next ih =>
    obtain ⟨r', hr', -, hturn⟩ := h.advances hS hr hat
    obtain ⟨rfl, hfrom⟩ := hturn from_ target rest rfl
    refine (ih ?_ hl).imp (.detour hr') (And.imp_left (.detour hr'))
    split_ifs
    · simp [DirAt]
    · exact hfrom

end Changes

end FileTree

namespace Ledger

/-- A path leads to a place where there is a file or none yet. -/
def LeadsTo (t : FileTree) (p : Path) (l : Location) : Prop :=
  t.spot .written p = .ok (.vacant l) ∨ t.spot .written p = .ok (.entry l) ∧ t.FileAt l

variable {S : Location → Prop} {t t' : FileTree} {p : Path} {l : Location}

theorem LeadsTo.of_changes (hl : LeadsTo t p l) (h : ChangesOnly S t t')
    (hS : ∀ q, S q → ∀ target, t.get? q ≠ some (.link target)) (hp : p.isAbsolute) :
    LeadsTo t' p l := by
  have hspot : ∃ s, t.spot .written p = .ok s ∧ (s = .vacant l ∨ s = .entry l ∧ t.FileAt l) :=
    hl.elim (fun hl ↦ ⟨_, hl, .inl rfl⟩) fun ⟨hl, hfile⟩ ↦ ⟨_, hl, .inr ⟨rfl, hfile⟩⟩
  obtain ⟨s, hspot, hs⟩ := hspot
  rw [spot_eq_ok_iff, startOf, if_pos hp] at hspot
  obtain ⟨hlong, hzero, hempty, hwalk⟩ := hspot
  have hback {s : Spot} (hwalk : Walks t' .written maxLinks [] (steps p.text) s) :
      t'.spot .written p = .ok s := by
    rw [spot_eq_ok_iff, startOf, if_pos hp]
    exact ⟨hlong, hzero, hempty, hwalk⟩
  exact (h.walks hS hwalk (by simp [DirAt]) hs).imp hback (And.imp_left hback)

/-- Nothing but a file can be where a path leads that a file can be written to. -/
theorem LeadsTo.isFile (hl : LeadsTo t p l) : l ≠ [] ∧ ∀ e ∈ t.get? l, e.isFile := by
  obtain hl | ⟨-, e, hget, hfile⟩ := hl
  · obtain ⟨hne, hfree⟩ := look_vacant_inv hl
    exact ⟨hne, by simp [hfree]⟩
  · exact ⟨FileAt.ne_nil ⟨e, hget, hfile⟩, by simpa [hget] using hfile⟩

theorem LeadsTo.append (hl : LeadsTo t p l) (now : Instant) (bytes : List UInt8) :
    ∃ e, Disk.append now p bytes t = .ok () (t.insert l e) ∧ e.isFile := by
  obtain hl | ⟨hl, e, hget, hfile⟩ := hl
  · exact ⟨_, append_of_vacant now bytes hl, rfl⟩
  · refine ⟨_, append_of_file now bytes hl hget hfile, ?_⟩
    cases e with
    | file | database => rfl
    | dir | link => cases hfile

/-- What could be added to leads somewhere. -/
theorem exists_leadsTo {now : Instant} {bytes : List UInt8} {u : Unit}
    (h : Disk.append now p bytes t = .ok u t') : ∃ l, LeadsTo t p l := by
  suffices hrun : ⦃fun s => ⌜s = t⌝⦄ Disk.append now p bytes
      ⦃⇓? _ _ => ⌜∃ l, LeadsTo t p l⌝⦄ by
    exact ok_of_triple hrun rfl h
  mvcgen [Disk.append, Disk.update, Disk.ask]
  case vc1 s hs _ hspot l hl _ =>
    subst hs hl
    exact ⟨l, .inl hspot⟩
  case vc2 s hs _ hspot l hl e hget he _ =>
    subst hs hl
    exact ⟨l, .inr ⟨hspot, e, hget, he⟩⟩

end Ledger

end Steward
