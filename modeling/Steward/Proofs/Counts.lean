import Mathlib
import Steward.Counts

/-!
# The numbers under a name

What is under a name after a change of counts, after a tally and after a merge.
-/

namespace Steward

namespace Counts

theorem lookup_cons_eq (e : String × Nat) (m : List (String × Nat)) (k : String) :
    (e :: m).lookup k = if k = e.1 then some e.2 else m.lookup k := by
  rw [List.lookup_cons]
  split
  next h => rw [if_pos (beq_iff_eq.1 h)]
  next h => rw [if_neg (beq_eq_false_iff_ne.1 h)]

theorem lookup_of_lt {m : List (String × Nat)} {name : String} (h : ∀ e ∈ m, name < e.1) :
    m.lookup name = none := by
  refine List.lookup_eq_none_iff.2 fun e he ↦ ?_
  rw [bne_iff_ne]
  exact (h e he).ne

theorem lookup_updateEntries {m : List (String × Nat)} (h : m.Pairwise fun a b ↦ a.1 < b.1)
    (name : String) (f : Option Nat → Nat) (k : String) :
    (updateEntries name f m).lookup k =
      if k = name then some (f (m.lookup name)) else m.lookup k := by
  induction m with
  | nil => simp [updateEntries, lookup_cons_eq]
  | cons e rest ih =>
    obtain ⟨hlt, hrest⟩ := List.pairwise_cons.1 h
    rcases lt_trichotomy name e.1 with hbefore | hsame | hafter
    · have hnone : (e :: rest).lookup name = none := by
        refine lookup_of_lt fun e' he' ↦ ?_
        rcases List.mem_cons.1 he' with rfl | he'
        · exact hbefore
        · exact hbefore.trans (hlt e' he')
      rw [updateEntries, if_pos hbefore, lookup_cons_eq, hnone]
    · rw [updateEntries, if_neg hsame.not_lt, if_pos hsame, lookup_cons_eq, lookup_cons_eq,
        lookup_cons_eq, ← hsame, if_pos rfl]
      split_ifs <;> rfl
    · rw [updateEntries, if_neg hafter.not_gt, if_neg hafter.ne', lookup_cons_eq, lookup_cons_eq,
        lookup_cons_eq, if_neg hafter.ne', ih hrest]
      split_ifs with hk hname
      · exact absurd (hname.symm.trans hk) hafter.ne'
      · rfl
      · rfl
      · rfl

theorem get_add (m : Counts) (name : String) (n : Nat) (k : String) :
    (m.add name n).get k = m.get k + if k = name then n else 0 := by
  simp only [get, add, update, lookup_updateEntries m.sorted]
  split_ifs with hk
  · rw [hk, Option.getD_some]
  · rfl

/-- A tally counts the occurrences. -/
theorem get_tally (names : List String) (k : String) : (tally names).get k = names.count k := by
  have hfold (m : Counts) :
      (names.foldl (fun m k ↦ m.add k 1) m).get k = m.get k + names.count k := by
    induction names generalizing m with
    | nil => rfl
    | cons name names ih =>
      rw [List.foldl_cons, ih, get_add, List.count_cons]
      simp only [beq_iff_eq, eq_comm (a := k)]
      omega
  rw [tally, hfold]
  exact Nat.zero_add _

/-- A merge adds up. -/
theorem get_merge (a b : Counts) (k : String) : (a.merge b).get k = a.get k + b.get k := by
  have hfold (es : List (String × Nat)) (h : es.Pairwise fun a b ↦ a.1 < b.1) (m : Counts) :
      (es.foldl (fun m e ↦ m.add e.1 e.2) m).get k = m.get k + (es.lookup k).getD 0 := by
    induction es generalizing m with
    | nil => rfl
    | cons e es ih =>
      obtain ⟨hlt, hes⟩ := List.pairwise_cons.1 h
      rw [List.foldl_cons, ih hes, get_add, lookup_cons_eq]
      split_ifs with hk
      · rw [lookup_of_lt (hk ▸ hlt)]
        rfl
      · rfl
  exact hfold b.entries b.sorted a

theorem mem_entries_iff {m : Counts} {k : String} {n : Nat} :
    (k, n) ∈ m.entries ↔ m.entries.lookup k = some n := by
  obtain ⟨es, h⟩ := m
  dsimp only
  induction es with
  | nil => simp
  | cons e es ih =>
    obtain ⟨hlt, hes⟩ := List.pairwise_cons.1 h
    rw [List.mem_cons, lookup_cons_eq, ih hes]
    split_ifs with hk
    · rw [lookup_of_lt (hk ▸ hlt)]
      simp [Prod.ext_iff, hk, eq_comm]
    · simp [Prod.ext_iff, hk]

theorem pos_of_mem_tally {names : List String} {e : String × Nat} (h : e ∈ (tally names).entries) :
    0 < e.2 := by
  have hadd {m : Counts} (hm : ∀ e ∈ m.entries, 0 < e.2) (k : String) :
      ∀ e ∈ (m.add k 1).entries, 0 < e.2 := by
    rintro ⟨j, n⟩ he
    rw [mem_entries_iff, add, update, lookup_updateEntries m.sorted] at he
    split_ifs at he with hj
    · cases he
      exact Nat.succ_pos _
    · exact hm _ (mem_entries_iff.2 he)
  have hfold : ∀ (m : Counts), (∀ e ∈ m.entries, 0 < e.2) →
      ∀ e ∈ (names.foldl (fun m k ↦ m.add k 1) m).entries, 0 < e.2 := by
    clear h
    induction names with
    | nil => exact fun m hm ↦ hm
    | cons name names ih => exact fun m hm ↦ ih _ (hadd hm name)
  exact hfold empty (fun e he ↦ absurd he List.not_mem_nil) e h

/-- A tally lists the names that occur, each with its occurrences. -/
theorem mem_tally_iff {names : List String} {k : String} {n : Nat} :
    (k, n) ∈ (tally names).entries ↔ 0 < n ∧ names.count k = n := by
  have hget := get_tally names k
  unfold get at hget
  refine ⟨fun h ↦ ⟨pos_of_mem_tally h, ?_⟩, fun ⟨hpos, hn⟩ ↦ ?_⟩
  · rw [← hget, mem_entries_iff.1 h, Option.getD_some]
  · rw [mem_entries_iff]
    rw [hn] at hget
    cases hl : (tally names).entries.lookup k with
    | none => simp_all
    | some l => rw [← hget, hl, Option.getD_some]

end Counts

end Steward
