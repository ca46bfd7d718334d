import Steward.Proofs.Fix.Local
import Steward.Proofs.Ledger.Place

/-!
# Sweeping over files

Files are healed one after the other, and the ledger is added to in between. Each file is fixed or
left alone as a plan has it, and what is done to one does not touch what the others are about. So
every place comes out the same whatever the order is, `Sweep.content_eq`: around a file it is what
fixing that file alone leads to, and elsewhere it stays as it was.
-/

namespace Steward

open Location FileTree List

namespace Fix

/-! ## Names -/

/-- The name is not that of a copy or of a file under way. -/
def Lasting (n : String) : Prop := ¬".tmp".toList <:+ n.toList ∧ ¬".backup".toList <:+ n.toList

instance (n : String) : Decidable (Lasting n) :=
  inferInstanceAs (Decidable (¬".tmp".toList <:+ n.toList ∧ ¬".backup".toList <:+ n.toList))

theorem suffix_of_append {n s : String} : s.toList <:+ (n ++ s).toList := by
  rw [String.toList_append]
  exact suffix_append _ _

theorem backup_ne_temp {n n' : String} : n ++ ".backup" ≠ n' ++ ".tmp" := by
  intro h
  have hbackup : ".backup".toList <:+ (n' ++ ".tmp").toList := h ▸ suffix_of_append
  rcases suffix_or_suffix_of_suffix hbackup suffix_of_append with h | h
  · exact absurd h (by decide)
  · exact absurd h (by decide)

/-- What is near two lasting names is near one. -/
theorem eq_of_near {n n' m : String} (hn : Lasting n) (hn' : Lasting n') (h : Near n m)
    (h' : Near n' m) : n = n' := by
  rcases h with rfl | rfl | rfl | rfl
  · rcases h' with rfl | rfl | rfl | rfl
    · rfl
    · exact absurd suffix_of_append hn.2
    · exact absurd suffix_of_append hn.1
    · exact absurd suffix_of_append hn.1
  · rcases h' with h' | h' | h' | h'
    · exact absurd (h' ▸ suffix_of_append) hn'.2
    · exact String.append_left_inj _ |>.1 h'
    · exact absurd h' backup_ne_temp
    · exact absurd h' backup_ne_temp
  · rcases h' with h' | h' | h' | h'
    · exact absurd (h' ▸ suffix_of_append) hn'.1
    · exact absurd h'.symm backup_ne_temp
    · exact String.append_left_inj _ |>.1 h'
    · exact absurd ((String.append_left_inj _ |>.1 h') ▸ suffix_of_append) hn.2
  · rcases h' with h' | h' | h' | h'
    · exact absurd (h' ▸ suffix_of_append) hn'.1
    · exact absurd h'.symm backup_ne_temp
    · exact absurd ((String.append_left_inj _ |>.1 h').symm ▸ suffix_of_append) hn'.2
    · exact String.append_left_inj _ |>.1 (String.append_left_inj _ |>.1 h')

end Fix

open Steward.Fix

/-- The places that fixing the file at `k` is about. -/
def Nearby (k q : Location) : Prop := ∃ l n m, k = l ++ [n] ∧ q = l ++ [m] ∧ Near n m

variable {l k q : Location} {n m : String}

theorem nearby_concat : Nearby (l ++ [n]) q ↔ ∃ m, q = l ++ [m] ∧ Near n m := by
  constructor
  · rintro ⟨l', n', m, hk, hq, hm⟩
    obtain ⟨rfl, hn⟩ := append_inj' hk rfl
    cases hn
    exact ⟨m, hq, hm⟩
  · rintro ⟨m, hq, hm⟩
    exact ⟨l, n, m, rfl, hq, hm⟩

/-- A place below `r` that a path can lead to. -/
def Below (r ns : Location) : Prop := ns ≠ [] ∧ Proper (r ++ ns)

theorem Below.exists_concat {r ns : Location} (h : Below r ns) :
    ∃ (l : Location) (n : String), r ++ ns = l ++ [n] ∧ r <+: l ∧ Proper (l ++ [n]) := by
  obtain ⟨ks, n, rfl⟩ := (eq_nil_or_concat' ns).resolve_left h.1
  refine ⟨r ++ ks, n, (append_assoc r ks [n]).symm, prefix_append r ks, ?_⟩
  rw [append_assoc]
  exact h.2

theorem nearby_of_around {t : FileTree} (h : Around t l n q) : Nearby (l ++ [n]) q := by
  rw [nearby_concat]
  rcases h with rfl | ⟨rfl, -⟩ | rfl | rfl
  · exact ⟨_, rfl, near_self n⟩
  · exact ⟨_, rfl, near_backup n⟩
  · exact ⟨_, rfl, near_temp n⟩
  · exact ⟨_, rfl, near_backupTemp n⟩

/-! ## One file -/

variable {cfg : Config.Fixer} {r place ns : Location} {t t' u u' : FileTree}

/-- The file at `ns` was fixed for some violations, or it was left alone, and then the ledger was
added to. -/
inductive Mended (cfg : Config.Fixer) (r place ns : Location) :
    Option (List Violation) → FileTree → FileTree → Prop
  | left {t t' : FileTree} (h : ChangesOnly (· = place) t t') : Mended cfg r place ns none t t'
  | fixed {t' : FileTree} (now : Instant) (vs : List Violation) (b : Bench)
      (hback : b.isBackedUp (r ++ ns).path = false)
      (h : ChangesOnly (· = place) (file cfg now (r ++ ns).path (relative ns) vs b).2.tree t') :
      Mended cfg r place ns (some vs) b.tree t'

/-- The tree with the file at `ns` fixed, or left alone. -/
def mend (cfg : Config.Fixer) (r ns : Location) (x : Option (List Violation)) (t : FileTree) :
    FileTree :=
  match x with
  | none => t
  | some vs => (file cfg ⟨0, 0⟩ (r ++ ns).path (relative ns) vs { tree := t }).2.tree

/-- There is nothing to fix in the file at `ns`. -/
def Idle (x : Option (List Violation)) : Prop := ∀ vs ∈ x, vs = []

theorem mend_of_idle {x : Option (List Violation)} (h : Idle x) : mend cfg r ns x t = t := by
  cases x with
  | none => rfl
  | some vs =>
    obtain rfl := h vs rfl
    rw [mend, file_nil]

namespace Mended

variable {x : Option (List Violation)}

/-- What is added to the ledger afterwards may be counted in. -/
theorem ledger (h : Mended cfg r place ns x t t') (hl : ChangesOnly (· = place) t' u) :
    Mended cfg r place ns x t u := by
  cases h with
  | left h => exact .left (h.trans hl)
  | fixed now vs b hback h => exact .fixed now vs b hback (h.trans hl)

theorem changes (h : Mended cfg r place ns x t t') (hk : r ++ ns = l ++ [n])
    (hp : Proper (l ++ [n])) (ht : Unlinked t l n) :
    ChangesOnly (fun q ↦ q = place ∨ Nearby (r ++ ns) q) t t' := by
  cases h with
  | left h => exact h.mono fun q hq _ ↦ .inl hq
  | fixed now vs b hback h =>
    rw [hk] at h
    have hfixed := (file_fixed ht hp cfg now (relative ns) vs).changes
    rw [hk]
    exact (hfixed.mono fun q hq _ ↦ .inr (nearby_of_around hq)).trans
      (h.mono fun q hq _ ↦ .inl hq)

/-- Near the file, all comes as if it alone had been fixed. -/
theorem beside (h : Mended cfg r place ns x u u') (hk : r ++ ns = l ++ [n])
    (hp : Proper (l ++ [n])) (hplace : ¬Nearby (r ++ ns) place)
    (hb : Beside l (Near n) t u) : Beside l (Near n) (mend cfg r ns x t) u' := by
  have hl : l.Proper := hp.of_isPrefix (prefix_append l [n])
  have hledger {v v' w : FileTree} (hb : Beside l (Near n) v w)
      (h : ChangesOnly (· = place) w v') : Beside l (Near n) v v' := by
    refine hb.of_changes hl (near_self n) (.refl (· = place) v) h fun m hm ↦ ?_
    have hne : l ++ [m] ≠ place := by
      rintro rfl
      exact hplace (hk ▸ nearby_concat.2 ⟨m, rfl, hm⟩)
    rw [hb.same m hm, content, content, h.others _ hne]
  cases h with
  | left h => exact hledger hb h
  | fixed now vs b hback h =>
    rw [hk] at h hback
    rw [mend, hk]
    refine hledger (file_beside (b := { tree := t }) hb hp ?_ cfg _ now _ vs) h
    rw [hback]
    rfl

end Mended

/-! ## File by file -/

variable {plan : Location → Option (List Violation)} {nss mss places : List Location}

/-- From `t` to a tree the files at some places were mended one after the other, as the plan has
it. -/
inductive Sweep (cfg : Config.Fixer) (r place : Location) (plan : Location → Option (List Violation))
    (t : FileTree) : List Location → FileTree → Prop
  | nil {t' : FileTree} (h : ChangesOnly (· = place) t t') : Sweep cfg r place plan t [] t'
  | snoc {nss : List Location} {ns : Location} {t' t'' : FileTree}
      (h : Sweep cfg r place plan t nss t') (hm : Mended cfg r place ns (plan ns) t' t'') :
      Sweep cfg r place plan t (nss ++ [ns]) t''

/-- Files that can be fixed one by one: each stands in a directory that no link leads into, and what
fixing it is about has to do neither with the other files nor with the ledger. -/
structure Spread (t : FileTree) (r place : Location) (places : List Location) : Prop where
  links : t.NoLinks r
  below : ∀ ns ∈ places, Below r ns
  dir : ∀ ns ∈ places, t.isDir (Location.path (r ++ ns).dropLast)
  apart : ∀ ns ∈ places, ∀ ms ∈ places, ∀ q, Nearby (r ++ ns) q → Nearby (r ++ ms) q → ns = ms
  away : ∀ ns ∈ places, ¬Nearby (r ++ ns) place

namespace Sweep

theorem ledger (h : Sweep cfg r place plan t nss t') (hl : ChangesOnly (· = place) t' u) :
    Sweep cfg r place plan t nss u := by
  cases h with
  | nil h => exact .nil (h.trans hl)
  | snoc h hm => exact .snoc h (hm.ledger hl)

/-- A sweep changes the ledger and what is near the files. -/
theorem changes (h : Sweep cfg r place plan t nss t') (ht : t.NoLinks r)
    (hnss : ∀ ns ∈ nss, Below r ns) :
    ChangesOnly (fun q ↦ q = place ∨ ∃ ns ∈ nss, Nearby (r ++ ns) q) t t' := by
  induction h with
  | nil h => exact h.mono fun q hq _ ↦ .inl hq
  | @snoc nss ns t' t'' h hm ih =>
    have hbefore := ih fun ms hms ↦ hnss ms (mem_append_left _ hms)
    obtain ⟨l, n, hk, hl, hp⟩ := (hnss ns (by simp)).exists_concat
    have hunlinked : Unlinked t' l n := unlinked_of_noLinks ((hbefore.noLinks ht).mono hl)
    refine (hbefore.mono fun q hq _ ↦ ?_).trans
      ((hm.changes hk hp hunlinked).mono fun q hq _ ↦ ?_)
    · exact hq.imp_right fun ⟨ms, hms, hnear⟩ ↦ ⟨ms, mem_append_left _ hms, hnear⟩
    · exact hq.imp_right fun hnear ↦ ⟨ns, by simp, hnear⟩

/-- The tree as it is for the file at `ns`, when the files at some places were swept. -/
def outcome (cfg : Config.Fixer) (r : Location) (plan : Location → Option (List Violation))
    (t : FileTree) (nss : List Location) (ns : Location) : FileTree :=
  if ns ∈ nss then mend cfg r ns (plan ns) t else t

/-- Near each file a sweep leaves what fixing that file alone leaves. The induction is on the sweep:
one more file does not come near the others, and none of the others came near it before. -/
theorem beside (h : Sweep cfg r place plan t nss t') (hs : Spread t r place places)
    (hnss : ∀ ns ∈ nss, ns ∈ places) (hnodup : nss.Nodup) (hns : ns ∈ places)
    (hk : r ++ ns = l ++ [n]) :
    Beside l (Near n) (outcome cfg r plan t nss ns) t' := by
  have hnear {m : String} (hm : Near n m) : Nearby (r ++ ns) (l ++ [m]) :=
    hk ▸ nearby_concat.2 ⟨m, rfl, hm⟩
  obtain ⟨l', n', hk', hl, hp⟩ := (hs.below ns hns).exists_concat
  obtain ⟨rfl, -⟩ := append_inj' (hk'.symm.trans hk) rfl
  have hdir := hs.dir ns hns
  rw [← hk', hk] at hp
  rw [hk, dropLast_concat] at hdir
  have hproper : Proper l' := hp.of_isPrefix (prefix_append l' [n])
  have hclear (m : String) : t.Clear (l' ++ [m]) :=
    (hs.links.mono hl).clear (prefix_append l' [m])
  induction h with
  | nil h =>
    have hstart : Beside l' (Near n) t t :=
      ⟨hdir, hdir, fun m _ ↦ hclear m, fun m _ ↦ hclear m, fun _ _ ↦ rfl⟩
    have hleft : Mended cfg r place ns none t _ := .left h
    exact hleft.beside hk hp (hs.away ns hns) hstart
  | @snoc nss ms t' t'' h hm ih =>
    have hbefore := ih (fun ks hks ↦ hnss ks (mem_append_left _ hks))
      (nodup_append.1 hnodup).1
    have hms : ms ∈ places := hnss ms (by simp)
    have hnew : ms ∉ nss := fun hmem ↦ (nodup_append.1 hnodup).2.2 ms hmem ms (by simp) rfl
    by_cases heq : ns = ms
    · subst heq
      rw [outcome, if_neg hnew] at hbefore
      rw [outcome, if_pos (by simp)]
      exact hm.beside hk hp (hs.away ns hns) hbefore
    · have hsame : outcome cfg r plan t (nss ++ [ms]) ns = outcome cfg r plan t nss ns := by
        simp [outcome, heq]
      rw [hsame]
      have hchanges : ChangesOnly (fun q ↦ q = place ∨ Nearby (r ++ ms) q) t' t'' := by
        obtain ⟨l, n, hk, hl, hp⟩ := (hs.below ms hms).exists_concat
        have hsofar := h.changes hs.links fun ks hks ↦
          hs.below ks (hnss ks (mem_append_left _ hks))
        exact hm.changes hk hp (unlinked_of_noLinks ((hsofar.noLinks hs.links).mono hl))
      refine hbefore.of_changes hproper (near_self n) (.refl (· = place) _) hchanges fun m hm ↦ ?_
      have hfar : ¬(l' ++ [m] = place ∨ Nearby (r ++ ms) (l' ++ [m])) := by
        rintro (hplace | hnear')
        · exact hs.away ns hns (hplace ▸ hnear hm)
        · exact heq (hs.apart ns hns ms hms _ (hnear hm) hnear')
      rw [hbefore.same m hm, content, content, hchanges.others _ hfar]

/-- **Sweeps over the same files come to the same.** They may take them in different orders, and one
of them may leave out files in which there is nothing to fix. -/
theorem content_eq (h : Sweep cfg r place plan t nss t') (h' : Sweep cfg r place plan t mss u)
    (hs : Spread t r place mss) (hnss : ∀ ns ∈ nss, ns ∈ mss) (hnodup : nss.Nodup)
    (hnodup' : mss.Nodup) (hidle : ∀ ns ∈ mss, ns ∉ nss → Idle (plan ns)) (hq : q ≠ place) :
    t'.content q = u.content q := by
  by_cases hfar : ∃ ns ∈ mss, Nearby (r ++ ns) q
  · obtain ⟨ns, hns, l, n, m, hk, rfl, hm⟩ := hfar
    have hone := (h.beside hs hnss hnodup hns hk).same m hm
    have hother := (h'.beside hs (fun _ ↦ id) hnodup' hns hk).same m hm
    have houtcome : outcome cfg r plan t nss ns = outcome cfg r plan t mss ns := by
      rw [outcome, outcome, if_pos hns]
      split_ifs with hmem
      · rfl
      · exact (mend_of_idle (hidle ns hns hmem)).symm
    rw [← hone, ← hother, houtcome]
  · have hone := (h.changes hs.links fun ns hns ↦ hs.below ns (hnss ns hns)).others q
      fun hor ↦ hor.elim hq fun ⟨ns, hns, hnear⟩ ↦ hfar ⟨ns, hnss ns hns, hnear⟩
    have hother := (h'.changes hs.links hs.below).others q fun hor ↦ hor.elim hq hfar
    rw [content, content, hone, hother]

end Sweep

end Steward
