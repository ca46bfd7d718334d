import Steward.Json

/-!
# Counts by name

Numbers under names, kept in the order of the names.
-/

namespace Steward

structure Counts where
  entries : List (String × Nat)
  sorted : entries.Pairwise fun a b => a.1 < b.1
deriving DecidableEq

namespace Counts

def empty : Counts := ⟨[], .nil⟩

instance : Inhabited Counts := ⟨empty⟩

/-- Puts the number that `f` makes of the old one under a name. -/
def updateEntries (name : String) (f : Option Nat → Nat) :
    List (String × Nat) → List (String × Nat)
  | [] => [(name, f none)]
  | (k, n) :: rest =>
    if name < k then (name, f none) :: (k, n) :: rest
    else if name = k then (k, f (some n)) :: rest
    else (k, n) :: updateEntries name f rest

theorem mem_updateEntries {name : String} {f : Option Nat → Nat} {m : List (String × Nat)}
    {e : String × Nat} (h : e ∈ updateEntries name f m) : e.1 = name ∨ e ∈ m := by
  induction m with
  | nil => simp_all [updateEntries]
  | cons hd tl ih =>
    unfold updateEntries at h
    split at h
    · rcases List.mem_cons.1 h with rfl | h
      · exact .inl rfl
      · exact .inr h
    · split at h
      · rename_i hk
        rcases List.mem_cons.1 h with rfl | h
        · exact .inl hk.symm
        · exact .inr (List.mem_cons_of_mem _ h)
      · rcases List.mem_cons.1 h with rfl | h
        · exact .inr List.mem_cons_self
        · exact (ih h).imp id (List.mem_cons_of_mem _)

theorem sorted_updateEntries (name : String) (f : Option Nat → Nat) {m : List (String × Nat)}
    (h : m.Pairwise fun a b => a.1 < b.1) :
    (updateEntries name f m).Pairwise fun a b => a.1 < b.1 := by
  induction m with
  | nil => simp [updateEntries]
  | cons hd tl ih =>
    obtain ⟨hlt, htl⟩ := List.pairwise_cons.1 h
    unfold updateEntries
    split
    · rename_i hk
      refine List.pairwise_cons.2 ⟨fun e he => ?_, h⟩
      rcases List.mem_cons.1 he with rfl | he
      · exact hk
      · exact String.lt_trans hk (hlt e he)
    · split
      · exact List.pairwise_cons.2 ⟨hlt, htl⟩
      · rename_i hnot hne
        refine List.pairwise_cons.2 ⟨fun e he => ?_, ih htl⟩
        rcases mem_updateEntries he with rfl | he
        · refine Decidable.byContradiction fun hge => ?_
          exact hne (String.le_antisymm (String.not_lt.1 hge) (String.not_lt.1 hnot))
        · exact hlt e he

/-- Puts the number that `f` makes of the old one under a name. -/
def update (name : String) (f : Option Nat → Nat) (m : Counts) : Counts :=
  ⟨updateEntries name f m.entries, sorted_updateEntries name f m.sorted⟩

/-- Puts a number under a name, in place of the old one. -/
def set (m : Counts) (name : String) (n : Nat) : Counts := m.update name fun _ => n

/-- Adds a number under a name. -/
def add (m : Counts) (name : String) (n : Nat) : Counts := m.update name fun old => old.getD 0 + n

/-- The numbers of a list under their names; the last one under a name counts. -/
def ofList (xs : List (String × Nat)) : Counts := xs.foldl (fun m (k, n) => m.set k n) empty

/-- How often each name occurs. -/
def tally (names : List String) : Counts := names.foldl (fun m k => m.add k 1) empty

/-- The sum of two counts, name by name. -/
def merge (a b : Counts) : Counts := b.entries.foldl (fun m (k, n) => m.add k n) a

def isEmpty (m : Counts) : Bool := m.entries.isEmpty

/-- The number under a name, zero if there is none. -/
def get (m : Counts) (name : String) : Nat := (m.entries.lookup name).getD 0

def toJson (m : Counts) : Json := .counts m.entries

end Counts

end Steward
