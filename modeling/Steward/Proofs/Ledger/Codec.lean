import Steward.Ledger.Reader
import Steward.Proofs.Json.Compact
import Steward.Proofs.Json.Trailing

/-!
# Records as lines

A record is written on one line and read back from it, `Ledger.Record.parse?_line`. The only
condition is that its counts are of the size that counts have, `Ledger.Entry.Fits`. A line that
has lost or gained a `CR` at its end reads the same.
-/

namespace Steward

open List

namespace Counts

/-- Every count is one that can be read. -/
def Fits (m : Counts) : Prop := ∀ e ∈ m.entries, e.2 ≤ Json.Reader.maxCount

theorem fits_empty : Fits empty := by simp [Fits, empty]

theorem ext_entries {a b : Counts} (h : a.entries = b.entries) : a = b := by
  cases a
  cases b
  cases h
  rfl

/-- A name behind all others goes to the end. -/
theorem updateEntries_of_lt {name : String} {g : Option Nat → Nat} {m : List (String × Nat)}
    (h : ∀ e ∈ m, e.1 < name) : updateEntries name g m = m ++ [(name, g none)] := by
  induction m with
  | nil => rfl
  | cons e m ih =>
    have he := h e mem_cons_self
    rw [updateEntries, if_neg (String.lt_asymm he), if_neg (ne_of_gt he),
      ih fun e he ↦ h e (mem_cons_of_mem _ he), cons_append]

/-- Counts are made up of their entries. -/
theorem ofList_entries (m : Counts) : ofList m.entries = m := by
  have hfold : ∀ (xs : List (String × Nat)) (a : Counts),
      (a.entries ++ xs).Pairwise (fun x y ↦ x.1 < y.1) →
      (xs.foldl (fun m (x : String × Nat) ↦ m.set x.1 x.2) a).entries = a.entries ++ xs := by
    intro xs
    induction xs with
    | nil => simp
    | cons x xs ih =>
      intro a ha
      have hx : ∀ e ∈ a.entries, e.1 < x.1 := fun e he ↦
        (pairwise_append.1 ha).2.2 e he x mem_cons_self
      have hset : (a.set x.1 x.2).entries = a.entries ++ [x] := updateEntries_of_lt hx
      rw [foldl_cons, ih _ (by rw [hset]; simpa using ha), hset]
      simp
  exact ext_entries (hfold m.entries empty m.sorted)

end Counts

namespace Ledger

open Json Json.Reader

/-- Every count of an entry is one that can be read. -/
structure Entry.Fits (e : Entry) : Prop where
  violations : e.violations.Fits
  fixes : e.fixes.Fits
  skipped : e.skipped.Fits
  filesExamined : ∀ n ∈ e.filesExamined, n ≤ maxCount

namespace Field

theorem reads_counts {m : Counts} (h : m.Fits) : Reads readCounts m.toJson.compactChars m := by
  have hobj : Reads (readObject fun name cs ↦ (readCount cs).map fun p ↦ ((name, p.1), p.2))
      m.toJson.compactChars m.entries := by
    have := Reads.object (g := fun name cs ↦ (readCount cs).map fun p ↦ ((name, p.1), p.2))
      (l := m.entries.map fun e ↦ (e.1, digits e.2, e)) (by
        intro f hf
        obtain ⟨e, he, rfl⟩ := mem_map.1 hf
        exact (reads_count (h e he)).map fun n ↦ (e.1, n))
    simpa [Counts.toJson, Json.counts, compactChars, compactFields_eq_map, Function.comp_def,
      Json.nat, intText] using this
  have := hobj.map Counts.ofList
  rwa [Counts.ofList_entries] at this

theorem reads_strings (xs : List String) :
    Reads (readArray readString) (Json.strs xs).compactChars xs := by
  have := Reads.array (l := xs.map fun x ↦ (quoted x.toList, x)) (by
    intro p hp
    obtain ⟨x, -, rfl⟩ := mem_map.1 hp
    exact reads_string x)
  simpa [Json.strs, compactChars, compactItems_eq_map, Function.comp_def] using this

/-- The one value of a kind. -/
theorem unique?_of_filterMap {α : Type} {pick : Field → Option α} {fs : List Field} {o : Option α}
    (h : fs.filterMap pick = o.toList) : unique? pick fs = some o := by
  rw [unique?, h]
  cases o <;> rfl

end Field

namespace Record

/-- The fields that a record is written with: name, value, and what is read of it. -/
def written (r : Record) : List (String × Json × Field) :=
  [("ts", Json.str r.ts, Field.ts r.ts),
    ("action", Json.str r.entry.action, Field.action r.entry.action),
    ("target", Json.str r.entry.target, Field.target r.entry.target),
    ("allowed", Json.bool r.entry.allowed, Field.allowed r.entry.allowed),
    ("denied_by", Json.strs r.entry.deniedBy, Field.deniedBy r.entry.deniedBy),
    ("violations", r.entry.violations.toJson, Field.violations r.entry.violations),
    ("fixes", r.entry.fixes.toJson, Field.fixes r.entry.fixes)] ++
    r.entry.run.toList.map (fun s ↦ ("run", Json.str s, Field.run (some s))) ++
    r.entry.status.toList.map (fun s ↦ ("status", Json.str s, Field.status (some s))) ++
    r.entry.error.toList.map (fun s ↦ ("error", Json.str s, Field.error (some s))) ++
    r.entry.filesExamined.toList.map
      (fun n ↦ ("files_examined", Json.nat n, Field.filesExamined (some n))) ++
    (if r.entry.skipped.isEmpty then [] else
      [("skipped", r.entry.skipped.toJson, Field.skipped r.entry.skipped)]) ++
    [("prev_hash", Json.str r.prevHash, Field.prevHash r.prevHash),
      ("hash", Json.str r.hash, Field.hash r.hash)]

theorem head_digits_ne (n : Nat) : (digits n).head? ≠ some 'n' := by
  intro h
  have := isDigit_of_mem_digits (mem_of_mem_head? h)
  revert this
  decide

theorem field?_eq_map {α : Type} (name : String) (g : α → Json) (o : Option α) :
    Json.field? name g o = o.toList.map fun a ↦ (name, g a) := by
  cases o <;> rfl

theorem toJson_eq_written (r : Record) :
    r.toJson = .obj (r.written.map fun f ↦ (f.1, f.2.1)) := by
  rw [toJson, written]
  simp only [field?_eq_map, map_append, map_map, map_cons, map_nil,
    apply_ite (List.map _), Function.comp_def]

/-- What holds of every kind of value, and goes over to the fields that are made of the values, holds
of each field that is written. -/
theorem forall_written {P : ∀ α : Type, (List Char → Option (α × List Char)) → List Char → α → Prop}
    (map : ∀ {α β : Type} {read : List Char → Option (α × List Char)} {text : List Char} {a : α},
      P α read text a → ∀ g : α → β,
        P β (fun cs ↦ (read cs).map fun (a, rest) ↦ (g a, rest)) text (g a))
    (string : ∀ s : String, P String readString (quoted s.toList) s)
    (bool : ∀ b, P Bool readBool (Json.bool b).compactChars b)
    (strings : ∀ xs : List String, P (List String) (readArray readString) (strs xs).compactChars xs)
    (counts : ∀ m : Counts, m.Fits → P Counts Field.readCounts m.toJson.compactChars m)
    (someString : ∀ s : String,
      P (Option String) (readOption readString) (quoted s.toList) (some s))
    (someCount : ∀ n ≤ maxCount, P (Option Nat) (readOption readCount) (digits n) (some n))
    {r : Record} (h : r.entry.Fits) :
    ∀ f ∈ r.written, P Field (Field.read f.1) f.2.1.compactChars f.2.2 := by
  have as {α : Type} {read : List Char → Option (α × List Char)} {text : List Char} {a : α}
      (kind : α → Field) (h : P α read text a) {name : String}
      (hname : Field.read name = fun cs ↦ (read cs).map fun (a, rest) ↦ (kind a, rest)) :
      P Field (Field.read name) text (kind a) := by
    rw [hname]
    exact map h kind
  have option {α : Type} {Q : String × Json × Field → Prop} {o : Option α}
      {g : α → String × Json × Field} (hg : ∀ a ∈ o, Q (g a)) : ∀ f ∈ o.toList.map g, Q f := by
    intro f hf
    obtain ⟨a, ha, rfl⟩ := mem_map.1 hf
    exact hg a (Option.mem_toList.1 ha)
  simp only [written, forall_mem_append, forall_mem_cons, not_mem_nil,
    false_imp_iff, implies_true, and_true]
  refine ⟨⟨⟨⟨⟨⟨?_, ?_⟩, ?_⟩, ?_⟩, ?_⟩, ?_⟩, ?_⟩
  · exact ⟨as .ts (string _) rfl, as .action (string _) rfl, as .target (string _) rfl,
      as .allowed (bool _) rfl, as .deniedBy (strings _) rfl,
      as .violations (counts _ h.violations) rfl, as .fixes (counts _ h.fixes) rfl⟩
  · exact option fun s _ ↦ as .run (someString s) rfl
  · exact option fun s _ ↦ as .status (someString s) rfl
  · exact option fun s _ ↦ as .error (someString s) rfl
  · exact option fun n hn ↦ as .filesExamined (someCount n (h.filesExamined n hn)) rfl
  · split_ifs
    · simp
    · simpa using as .skipped (counts _ h.skipped) rfl
  · exact ⟨as .prevHash (string _) rfl, as .hash (string _) rfl⟩

theorem reads_written {r : Record} (h : r.entry.Fits) :
    ∀ f ∈ r.written, Reads (Field.read f.1) f.2.1.compactChars f.2.2 :=
  forall_written (P := fun _ ↦ Reads) Reads.map reads_string reads_bool Field.reads_strings
    (fun _ ↦ Field.reads_counts) (fun s ↦ (reads_string s).some (by simp [quoted]))
    (fun n hn ↦ (reads_count hn).some (head_digits_ne n)) h

/-- The values of one kind, when only the fields that are always there can be of it. -/
theorem unique?_written {α : Type} {r : Record} {pick : Field → Option α} (o : Option α)
    (h : [Field.ts r.ts, .action r.entry.action, .target r.entry.target, .allowed r.entry.allowed,
        .deniedBy r.entry.deniedBy, .violations r.entry.violations,
        .fixes r.entry.fixes].filterMap pick ++
      (r.entry.run.bind fun s ↦ pick (.run (some s))).toList ++
      (r.entry.status.bind fun s ↦ pick (.status (some s))).toList ++
      (r.entry.error.bind fun s ↦ pick (.error (some s))).toList ++
      (r.entry.filesExamined.bind fun n ↦ pick (.filesExamined (some n))).toList ++
      (if r.entry.skipped.isEmpty then [] else (pick (.skipped r.entry.skipped)).toList) ++
      [Field.prevHash r.prevHash, .hash r.hash].filterMap pick = o.toList) :
    Field.unique? pick (r.written.map (·.2.2)) = some o := by
  have hoption {β : Type} (o : Option β) (g : β → String × Json × Field) :
      ((o.toList.map g).map (·.2.2)).filterMap pick =
        (o.bind fun s ↦ pick (g s).2.2).toList := by
    cases o with
    | none => rfl
    | some b => cases hp : pick (g b).2.2 <;> simp [hp]
  have hone (f : Field) : [f].filterMap pick = (pick f).toList := by
    cases hp : pick f <;> simp [hp]
  refine Field.unique?_of_filterMap (Eq.trans ?_ h)
  simp only [written, map_append, filterMap_append, hoption]
  split_ifs
  · rfl
  · rw [← hone]
    rfl

/-- The fields of a record make it up again. -/
theorem ofFields?_written (r : Record) : ofFields? (r.written.map (·.2.2)) = some r := by
  have hskipped : (if r.entry.skipped.isEmpty then none else some r.entry.skipped).getD .empty =
      r.entry.skipped := by
    split_ifs with h
    · exact Counts.ext_entries (List.isEmpty_iff.1 h).symm
    · rfl
  have hsome {α : Type} (o : Option α) : (o.bind fun a ↦ some (some a)) = o.map some := by
    cases o <;> rfl
  have hjoin {α : Type} (o : Option α) : (o.map some).join = o := by
    cases o <;> rfl
  rw [ofFields?, unique?_written (some r.ts) (by simp),
    unique?_written (some r.entry.action) (by simp),
    unique?_written (some r.entry.target) (by simp),
    unique?_written (some r.entry.allowed) (by simp),
    unique?_written (some r.entry.deniedBy) (by simp),
    unique?_written (some r.entry.violations) (by simp),
    unique?_written (some r.entry.fixes) (by simp),
    unique?_written (r.entry.run.map some) (by simp [hsome]),
    unique?_written (r.entry.status.map some) (by simp [hsome]),
    unique?_written (r.entry.error.map some) (by simp [hsome]),
    unique?_written (r.entry.filesExamined.map some) (by simp [hsome]),
    unique?_written (if r.entry.skipped.isEmpty then none else some r.entry.skipped)
      (by split_ifs <;> simp_all),
    unique?_written (some r.prevHash) (by simp), unique?_written (some r.hash) (by simp)]
  simp [hskipped, hjoin]

/-- The line is the object of what is written. -/
theorem line_eq_object (r : Record) :
    r.line = '\x7b' :: (separated [',']
      ((r.written.map fun f ↦ (f.1, f.2.1.compactChars, f.2.2)).map fun f ↦
        quoted f.1.toList ++ ':' :: f.2.1) ++ ['\x7d']) := by
  simp [line, toJson_eq_written, compactChars, compactFields_eq_map, Function.comp_def]

/-- A record is read back from its line, if its counts can be read. -/
theorem parse?_line {r : Record} (h : r.entry.Fits) : parse? r.line = some r := by
  have hfields : Reads (readObject Field.read) r.line (r.written.map (·.2.2)) := by
    have := Reads.object (g := Field.read)
      (l := r.written.map fun f ↦ (f.1, f.2.1.compactChars, f.2.2)) (by
        intro f hf
        obtain ⟨w, hw, rfl⟩ := mem_map.1 hf
        exact reads_written h w hw)
    rwa [← line_eq_object, map_map] at this
  have hobject : readFields r.line = readObject Field.read r.line := by
    rw [readFields, skipSpace_of_head (by simp [line, toJson, compactChars, isSpace])]
    rfl
  have hread : readFields r.line = some (r.written.map (·.2.2), []) := by
    simpa [hobject] using hfields.read_eq [] (by simp)
  have hall : readAll readFields r.line = some (r.written.map (·.2.2)) := by
    simp [readAll, hread, skipSpace]
  rw [parse?, hall]
  exact ofFields?_written r

theorem line_eq_cons (r : Record) : ∃ cs, r.line = '\x7b' :: cs := by
  rw [line, toJson, compactChars]
  exact ⟨_, rfl⟩

theorem printable_line (r : Record) : Printable r.line := printable_compactChars _

end Record

/-! ## A line that is cut off after a `CR` -/

namespace Field

theorem steady_readCounts : Steady readCounts :=
  ((Steady.field fun name ↦ steady_readCount.map fun n ↦ (name, n)).items _ _).map Counts.ofList

theorem read_of_not_mem {name : String} (h : name ∉ names) :
    read name = fun cs ↦ (skipValue cs).map fun rest ↦ (other, rest) := by
  funext cs
  unfold read
  split
  case h_15 => rfl
  all_goals exact absurd (by decide) h

theorem steady_read (name : String) : Steady (read name) := by
  have as {α : Type} {f : List Char → Option (α × List Char)} (kind : α → Field) (hf : Steady f)
      {name : String} (hname : read name = fun cs ↦ (f cs).map fun (a, rest) ↦ (kind a, rest)) :
      Steady (read name) := by
    rw [hname]
    exact hf.map kind
  by_cases h : name ∈ names
  · simp only [names, mem_cons, not_mem_nil, or_false] at h
    rcases h with rfl | rfl | rfl | rfl | rfl | rfl | rfl | rfl | rfl | rfl | rfl | rfl | rfl | rfl
    · exact as ts steady_readString rfl
    · exact as action steady_readString rfl
    · exact as target steady_readString rfl
    · exact as allowed steady_readBool rfl
    · exact as deniedBy (steady_readString.items _ _) rfl
    · exact as violations steady_readCounts rfl
    · exact as fixes steady_readCounts rfl
    · exact as run steady_readString.option rfl
    · exact as status steady_readString.option rfl
    · exact as error steady_readString.option rfl
    · exact as filesExamined steady_readCount.option rfl
    · exact as skipped steady_readCounts rfl
    · exact as prevHash steady_readString rfl
    · exact as hash steady_readString rfl
  · rw [read_of_not_mem h]
    exact steadySkip_skipValue.map other

theorem steady_readInOrder (names : List String) (first : Bool) :
    Steady (readInOrder names first) := by
  induction names generalizing first with
  | nil => exact (steadySkip_expect ']').map _
  | cons name names ih =>
    have hrest : Steady fun cs ↦ (read name cs).bind fun p ↦
        (readInOrder names false p.2).bind fun q ↦ some (p.1 :: q.1, q.2) := by
      refine (steady_read name).bind (g := fun f rest ↦
        (readInOrder names false rest).bind fun q ↦ some (f :: q.1, q.2)) fun f ↦ ?_
      exact (ih false).bind (g := fun fs rest ↦ some (f :: fs, rest)) fun fs cs ↦
        alike_some (Nat.lt_succ_self _)
    cases first with
    | true => exact hrest
    | false => exact (steadySkip_expect ',').bind hrest

end Field

namespace Record

theorem readFields_of_ne_bracket {cs rest : List Char} {c : Char} (hs : skipSpace cs = c :: rest)
    (hc : c ≠ '[') : readFields cs = readObject Field.read (c :: rest) := by
  rw [readFields, hs]
  split
  · exact absurd (List.cons.inj ‹_›).1 hc
  · rfl

theorem steady_readFields : Steady readFields := by
  intro cs
  obtain ⟨hs, hs'⟩ | ⟨c, rest, hlt, hs, hs'⟩ := skipSpace_cases cs
  · simp only [readFields, hs, hs']
    exact alike_none
  by_cases hc : c = '['
  · subst hc
    simp only [readFields, hs, hs']
    exact (Field.steady_readInOrder _ _ rest).mono (by omega)
  · rw [readFields_of_ne_bracket hs' hc, readFields_of_ne_bracket hs hc]
    have hitems := (Steady.field Field.steady_read).items '\x7b' '\x7d' (c :: rest)
    exact hitems.mono (Nat.succ_le_succ hlt)

theorem parse?_append_cr (l : List Char) : parse? (l ++ ['\r']) = parse? l := by
  have hall : readAll readFields (l ++ ['\r']) = readAll readFields l := by
    rw [readAll, readAll]
    obtain ⟨h, h'⟩ | ⟨fs, rest, -, h, h'⟩ := steady_readFields l <;> rw [h, h']
    obtain ⟨hs, hs'⟩ | ⟨c, tail, -, hs, hs'⟩ := skipSpace_cases rest <;> simp [hs, hs']
  rw [parse?, hall, parse?]

end Record

end Ledger

end Steward
