import Steward.Proofs.Ledger.Chain

/-!
# Records and the lines that stand for them

A record is written in one way and can be read in many: with its fields in another order or as an
array, with space between them, with fields that are left out or that are none of its own. Writing
and reading cancel all the same, `Ledger.Record.line_round_trip`. What is left to show for that is
that no record is read which could not be written and read again: every count that comes out of a
line is of the size that counts have, `Ledger.Record.fits_of_parse?`.
-/

namespace Steward

/-! ## What readers give -/

namespace Json.Reader

variable {α β : Type} {read : List Char → Option (α × List Char)} {P : α → Prop} {Q : β → Prop}

/-- Every value that a reader gives has a property. -/
def Yields (read : List Char → Option (α × List Char)) (P : α → Prop) : Prop :=
  ∀ cs a rest, read cs = some (a, rest) → P a

theorem Yields.map (h : Yields read P) {g : α → β} (hg : ∀ a, P a → Q (g a)) :
    Yields (fun cs ↦ (read cs).map fun (a, rest) ↦ (g a, rest)) Q := by
  intro cs b rest hb
  obtain ⟨⟨a, tail⟩, ha, heq⟩ := Option.map_eq_some_iff.1 hb
  cases heq
  exact hg a (h cs a rest ha)

theorem yields_count : Yields readCount (· ≤ maxCount) := by
  intro cs n rest h
  rw [readCount] at h
  split_ifs at h with hbad
  cases h
  simp only [Bool.or_eq_true, decide_eq_true_iff, not_or, not_lt] at hbad
  exact hbad.1.2

theorem Yields.option (h : Yields read P) : Yields (readOption read) fun o ↦ ∀ a ∈ o, P a := by
  intro cs o rest ho
  rw [readOption] at ho
  split at ho
  · cases ho
    rintro a ⟨⟩
  · obtain ⟨⟨a, tail⟩, ha, heq⟩ := Option.map_eq_some_iff.1 ho
    cases heq
    rintro b ⟨⟩
    exact h cs a rest ha

theorem Yields.more (h : Yields read P) {close : Char} {fuel : Nat} {done as : List α}
    {cs rest : List Char} (hdone : ∀ a ∈ done, P a)
    (has : readMore read close fuel done cs = some (as, rest)) : ∀ a ∈ as, P a := by
  fun_induction readMore read close fuel done cs with
  | case2 =>
    cases has
    intro a ha
    exact hdone a (List.mem_reverse.1 ha)
  | case3 fuel done cs tail a after hread hspace hclose ih =>
    refine ih (fun b hb ↦ ?_) has
    rcases List.mem_cons.1 hb with rfl | hb
    · exact h tail b after hread
    · exact hdone b hb
  | _ => cases has

theorem Yields.items (h : Yields read P) (opening close : Char) :
    Yields (readItems read opening close) fun as ↦ ∀ a ∈ as, P a := by
  intro cs as rest has
  obtain ⟨inside, -, has⟩ := Option.bind_eq_some_iff.1 has
  split at has
  · cases has
    rintro a ⟨⟩
  · obtain ⟨⟨a, tail⟩, ha, has⟩ := Option.bind_eq_some_iff.1 has
    refine h.more (fun b hb ↦ ?_) has
    rw [List.mem_singleton.1 hb]
    exact h inside a tail ha

theorem Yields.field {g : String → List Char → Option (α × List Char)}
    (h : ∀ name, Yields (g name) P) : Yields (readField g) P := by
  intro cs a rest ha
  obtain ⟨⟨name, tail⟩, -, ha⟩ := Option.bind_eq_some_iff.1 ha
  obtain ⟨value, -, ha⟩ := Option.bind_eq_some_iff.1 ha
  exact h name value a rest ha

end Json.Reader

namespace Counts

theorem Fits.set {m : Counts} (h : m.Fits) (name : String) {n : Nat}
    (hn : n ≤ Json.Reader.maxCount) : (m.set name n).Fits := by
  have hput (es : List (String × Nat)) (hes : ∀ e ∈ es, e.2 ≤ Json.Reader.maxCount) :
      ∀ e ∈ updateEntries name (fun _ ↦ n) es, e.2 ≤ Json.Reader.maxCount := by
    induction es with
    | nil => simpa [updateEntries] using hn
    | cons e es ih =>
      obtain ⟨he, hes⟩ := List.forall_mem_cons.1 hes
      rw [updateEntries]
      split_ifs
      · simpa only [List.forall_mem_cons] using ⟨hn, he, hes⟩
      · simpa only [List.forall_mem_cons] using ⟨hn, hes⟩
      · simpa only [List.forall_mem_cons] using ⟨he, ih hes⟩
  exact hput m.entries h

/-- Counts that are put together from counts that can be read can be read. -/
theorem fits_ofList {xs : List (String × Nat)} (h : ∀ x ∈ xs, x.2 ≤ Json.Reader.maxCount) :
    (ofList xs).Fits := by
  have hfold (m : Counts) (hm : m.Fits) :
      (xs.foldl (fun (m : Counts) x ↦ m.set x.1 x.2) m).Fits := by
    induction xs generalizing m with
    | nil => exact hm
    | cons x xs ih =>
      obtain ⟨hx, hxs⟩ := List.forall_mem_cons.1 h
      exact ih hxs _ (hm.set x.1 hx)
  exact hfold empty fits_empty

end Counts

namespace Ledger

open Json.Reader

namespace Field

/-- Every count of a field is one that can be read. -/
def Fits : Field → Prop
  | violations m | fixes m | skipped m => m.Fits
  | filesExamined o => ∀ n ∈ o, n ≤ maxCount
  | _ => True

theorem yields_readCounts : Yields readCounts Counts.Fits := by
  have hentry : Yields (readField fun name cs ↦ (readCount cs).map fun p ↦ ((name, p.1), p.2))
      fun e : String × Nat ↦ e.2 ≤ maxCount :=
    .field fun name ↦ yields_count.map (g := fun n ↦ (name, n)) fun n hn ↦ hn
  exact (hentry.items _ _).map fun xs hxs ↦ Counts.fits_ofList hxs

theorem yields_read (name : String) : Yields (read name) Fits := by
  intro cs f rest h
  unfold read at h
  -- all fields are a value under their name; those without counts ask for nothing
  split at h
  all_goals
    obtain ⟨x, hx, heq⟩ := Option.map_eq_some_iff.1 h
    cases heq
  case h_6 | h_7 | h_12 => exact yields_readCounts cs x.1 x.2 hx
  case h_11 => exact yields_count.option cs x.1 x.2 hx
  all_goals trivial

theorem yields_readInOrder (names : List String) (first : Bool) :
    Yields (readInOrder names first) fun fs ↦ ∀ f ∈ fs, f.Fits := by
  induction names generalizing first with
  | nil =>
    intro cs fs rest h
    obtain ⟨tail, -, heq⟩ := Option.map_eq_some_iff.1 h
    cases heq
    rintro f ⟨⟩
  | cons name names ih =>
    have hrest (cs : List Char) {fs : List Field} {rest : List Char}
        (h : ((read name cs).bind fun p ↦ (readInOrder names false p.2).bind fun q ↦
          some (p.1 :: q.1, q.2)) = some (fs, rest)) : ∀ f ∈ fs, f.Fits := by
      obtain ⟨p, hp, h⟩ := Option.bind_eq_some_iff.1 h
      obtain ⟨q, hq, h⟩ := Option.bind_eq_some_iff.1 h
      cases h
      exact List.forall_mem_cons.2 ⟨yields_read name cs p.1 p.2 hp, ih false p.2 q.1 q.2 hq⟩
    intro cs fs rest h
    cases first with
    | true => exact hrest cs h
    | false =>
      obtain ⟨value, -, h⟩ := Option.bind_eq_some_iff.1 h
      exact hrest value h

/-- The one value of a kind is that of a field. -/
theorem exists_of_unique? {α : Type} {pick : Field → Option α} {fs : List Field} {o : Option α}
    (h : unique? pick fs = some o) : ∀ a ∈ o, ∃ f ∈ fs, pick f = some a := by
  rintro a rfl
  rw [unique?] at h
  split at h
  · cases h
  · rename_i b hb
    cases h
    exact List.mem_filterMap.1 (hb ▸ List.mem_singleton_self a)
  · cases h

end Field

namespace Record

theorem fits_of_ofFields? {fs : List Field} {r : Record} (h : ofFields? fs = some r)
    (hfs : ∀ f ∈ fs, f.Fits) : r.entry.Fits := by
  have hcounts {pick : Field → Option Counts} {o : Option Counts}
      (ho : Field.unique? pick fs = some o) (hpick : ∀ f m, pick f = some m → f.Fits → m.Fits) :
      (o.getD .empty).Fits := by
    cases o with
    | none => exact Counts.fits_empty
    | some m =>
      obtain ⟨f, hf, hm⟩ := Field.exists_of_unique? ho m rfl
      exact hpick f m hm (hfs f hf)
  -- of the fields one after the other only those with counts matter
  iterate 9 obtain ⟨_, -, h⟩ := Option.bind_eq_some_iff.1 h
  obtain ⟨violations, hviolations, h⟩ := Option.bind_eq_some_iff.1 h
  obtain ⟨fixes, hfixes, h⟩ := Option.bind_eq_some_iff.1 h
  iterate 3 obtain ⟨_, -, h⟩ := Option.bind_eq_some_iff.1 h
  obtain ⟨files, hfiles, h⟩ := Option.bind_eq_some_iff.1 h
  obtain ⟨skipped, hskipped, h⟩ := Option.bind_eq_some_iff.1 h
  iterate 4 obtain ⟨_, -, h⟩ := Option.bind_eq_some_iff.1 h
  cases h
  refine ⟨hcounts hviolations ?_, hcounts hfixes ?_, hcounts hskipped ?_, ?_⟩
  · rintro (_ | _) m ⟨⟩ hm
    exact hm
  · rintro (_ | _) m ⟨⟩ hm
    exact hm
  · rintro (_ | _) m ⟨⟩ hm
    exact hm
  · intro n hn
    obtain ⟨f, hf, hn⟩ := Field.exists_of_unique? hfiles (some n) (Option.join_eq_some_iff.1 hn)
    have hfits := hfs f hf
    cases f with
    | filesExamined o =>
      cases hn
      exact hfits n rfl
    | _ => cases hn

theorem yields_readFields : Yields readFields fun fs ↦ ∀ f ∈ fs, f.Fits := by
  intro cs fs rest h
  rw [readFields] at h
  split at h
  · exact Field.yields_readInOrder _ _ _ fs rest h
  · exact (Yields.field Field.yields_read).items _ _ _ fs rest h

/-- A record that was read can be read again. -/
theorem fits_of_parse? {l : List Char} {r : Record} (h : parse? l = some r) : r.entry.Fits := by
  obtain ⟨fs, hall, h⟩ := Option.bind_eq_some_iff.1 h
  refine fits_of_ofFields? h ?_
  rw [readAll] at hall
  split at hall
  · rename_i gs rest hread
    split_ifs at hall
    cases hall
    exact yields_readFields l fs rest hread
  · cases hall

/-- **Writing and reading cancel.** A record is written as a single line that is not blank and has
neither `LF` nor `CR` in it, and it is read back from that line exactly if its counts are below
`2 ^ 64`. Whatever a line looks like, it is read as the record that the line written for it is read
as. -/
theorem line_round_trip (r : Record) (l : List Char) :
    (Text.lines (r.line ++ ['\n']) = [r.line] ∧ '\n' ∉ r.line ∧ '\r' ∉ r.line ∧
      Text.isAllBlank r.line = false ∧ (parse? r.line = some r ↔ r.entry.Fits)) ∧
    (parse? l).bind (fun s ↦ parse? s.line) = parse? l := by
  constructor
  · exact ⟨Text.lines_of_no_newline r.newline_not_mem_line r.cr_not_mem_line,
      r.newline_not_mem_line, r.cr_not_mem_line, r.isAllBlank_line, fits_of_parse?, parse?_line⟩
  · cases hl : parse? l with
    | none => rfl
    | some s =>
      rw [Option.bind_some]
      exact parse?_line (fits_of_parse? hl)

end Record

end Ledger

end Steward
