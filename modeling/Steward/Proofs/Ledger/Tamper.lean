import Steward.Proofs.Ledger.Chain
import Steward.Proofs.Utf8

/-!
# Tamper evidence

The last hash of a valid chain stands for all of it. A hash covers the bytes of the hash before it
and of the payload, `Record.material`, with nothing in between; since hashes have one length these
bytes tell the two apart, and the payload tells every field. So the chain can be followed backwards,
as long as the digest has no collision among what is hashed, and it starts where the previous hash
is the one that no digest gives: `Ledger.records_eq_of_last_hash_eq`.
-/

namespace Steward

namespace Json

theorem str_injective : Function.Injective str := fun _ _ h ↦ by
  cases h
  rfl

theorem nat_injective : Function.Injective nat := fun _ _ h ↦ by
  simpa [nat] using h

theorem strs_injective : Function.Injective strs := fun xs ys h ↦ by
  simpa [strs, str_injective.list_map.eq_iff] using h

theorem ofOption_injective {α : Type} {f : α → Json} (hf : Function.Injective f)
    (hnull : ∀ a, f a ≠ .null) : Function.Injective (ofOption f) := by
  intro a b h
  cases a with
  | none =>
    cases b with
    | none => rfl
    | some b => exact absurd h.symm (hnull b)
  | some a =>
    cases b with
    | none => exact absurd h (hnull a)
    | some b => rw [hf h]

end Json

theorem Counts.toJson_injective : Function.Injective Counts.toJson := by
  intro a b h
  have hpair : Function.Injective fun e : String × Nat ↦ (e.1, Json.nat e.2) := by
    rintro ⟨k, m⟩ ⟨l, n⟩ h
    simpa [Json.nat_injective.eq_iff] using h
  refine ext_entries (hpair.list_map ?_)
  simpa [toJson, Json.counts] using h

namespace Ledger

namespace Record

/-- The bytes that the hash of a record covers. -/
def material (r : Record) : List UInt8 :=
  Utf8.encode (r.prevHash.toList ++ (payload r.ts r.entry).compactChars)

theorem computeHash_eq (digest : Digest) (r : Record) :
    r.computeHash digest = digest r.material := rfl

/-- Every field is in the payload. -/
theorem payload_injective {ts ts' : String} {e e' : Entry} (h : payload ts e = payload ts' e') :
    ts = ts' ∧ e = e' := by
  simp only [payload, Json.obj.injEq, List.cons.injEq, Prod.mk.injEq, Json.str.injEq,
    Json.bool.injEq, true_and, and_true] at h
  obtain ⟨hts, haction, htarget, hallowed, hdenied, hviolations, hfixes, hrun, hstatus, herror,
    hfiles, hskipped⟩ := h
  have hstr : ∀ s, Json.str s ≠ .null := by simp
  have hnat : ∀ n, Json.nat n ≠ .null := by simp [Json.nat]
  refine ⟨hts, ?_⟩
  obtain ⟨action, target, allowed, deniedBy, violations, fixes, run, status, error, filesExamined,
    skipped⟩ := e
  simp only at *
  rw [haction, htarget, hallowed, Json.strs_injective hdenied, Counts.toJson_injective hviolations,
    Counts.toJson_injective hfixes, Json.ofOption_injective Json.str_injective hstr hrun,
    Json.ofOption_injective Json.str_injective hstr hstatus,
    Json.ofOption_injective Json.str_injective hstr herror,
    Json.ofOption_injective Json.nat_injective hnat hfiles, Counts.toJson_injective hskipped]

/-- Behind hashes of one length the material tells everything. -/
theorem material_injective {r s : Record} (hlength : r.prevHash.length = s.prevHash.length)
    (h : r.material = s.material) : r.prevHash = s.prevHash ∧ r.ts = s.ts ∧ r.entry = s.entry := by
  obtain ⟨hprev, hpayload⟩ := List.append_inj (Utf8.encode_injective h)
    (by rw [String.length_toList, String.length_toList, hlength])
  exact ⟨String.toList_inj.1 hprev, payload_injective (Json.compactChars_injective hpayload)⟩

end Record

section Chains

variable {digest : Digest}

/-- The hashes that a chain's records carry are digests, but for the first. -/
theorem length_lastHash (hlength : ∀ bytes, (digest bytes).length = 64) {rs : List Record}
    (h : Chained digest genesisHash rs) : (lastHash genesisHash rs).length = 64 := by
  induction rs using List.reverseRecOn with
  | nil => decide
  | append_singleton rs r ih =>
    obtain ⟨-, -, hhash⟩ := chained_concat.1 h
    have hlast : lastHash genesisHash (rs ++ [r]) = digest r.material := by
      simp [lastHash, ← hhash, Record.computeHash_eq]
    rw [hlast, hlength]

/-- Two chains with the same last hash are the same, since their last records are and so the hashes
before these. -/
theorem eq_of_lastHash_eq (hlength : ∀ bytes, (digest bytes).length = 64)
    (hgenesis : ∀ bytes, digest bytes ≠ genesisHash) {rs ss : List Record}
    (hrs : Chained digest genesisHash rs) (hss : Chained digest genesisHash ss)
    (hcollision : ∀ r ∈ rs, ∀ s ∈ ss,
      digest r.material = digest s.material → r.material = s.material)
    (hlast : lastHash genesisHash rs = lastHash genesisHash ss) : rs = ss := by
  have hconcat (rs : List Record) (r : Record) : lastHash genesisHash (rs ++ [r]) = r.hash := by
    simp [lastHash]
  induction rs using List.reverseRecOn generalizing ss with
  | nil =>
    rcases List.eq_nil_or_concat' ss with rfl | ⟨ss, s, rfl⟩
    · rfl
    · obtain ⟨-, -, hhash⟩ := chained_concat.1 hss
      rw [hconcat, ← hhash] at hlast
      exact absurd hlast.symm (hgenesis _)
  | append_singleton rs r ih =>
    obtain ⟨hrs', hprev, hhash⟩ := chained_concat.1 hrs
    rcases List.eq_nil_or_concat' ss with rfl | ⟨ss, s, rfl⟩
    · rw [hconcat, ← hhash] at hlast
      exact absurd hlast (hgenesis _)
    · obtain ⟨hss', hprev', hhash'⟩ := chained_concat.1 hss
      rw [hconcat, hconcat] at hlast
      have hmaterial : r.material = s.material := by
        refine hcollision r (by simp) s (by simp) ?_
        rw [← Record.computeHash_eq digest, ← Record.computeHash_eq digest, hhash, hhash', hlast]
      have hsame : r.prevHash.length = s.prevHash.length := by
        rw [hprev, hprev', length_lastHash hlength hrs', length_lastHash hlength hss']
      obtain ⟨hp, hts, he⟩ := Record.material_injective hsame hmaterial
      obtain rfl : r = s := by
        cases r
        cases s
        simp_all
      have hrest : rs = ss := ih hrs' hss'
        (fun r hr s hs ↦ hcollision r (by simp [hr]) s (by simp [hs])) (by rw [← hprev, ← hprev'])
      rw [hrest]

/-- The digest gives 64 characters, never those that stand for no record, and has no collision among
what is hashed here. Then two valid ledgers whose last records carry the same hash hold the same
records: nothing can be edited, removed, added or moved before that record and go unnoticed. -/
theorem records_eq_of_last_hash_eq (hlength : ∀ bytes, (digest bytes).length = 64)
    (hgenesis : ∀ bytes, digest bytes ≠ genesisHash) {a b : List Char}
    (ha : (check digest a).valid) (hb : (check digest b).valid)
    (hcollision : ∀ r ∈ records a, ∀ s ∈ records b,
      digest r.material = digest s.material → r.material = s.material)
    (hlast : (records a).getLast?.map (·.hash) = (records b).getLast?.map (·.hash)) :
    records a = records b :=
  eq_of_lastHash_eq hlength hgenesis (check_valid_iff.1 ha) (check_valid_iff.1 hb) hcollision
    (by rw [lastHash, lastHash, hlast])

end Chains

/-- A digest that tells bytes by how many they are. -/
@[irreducible]
def lengthDigest : Digest := fun bytes ↦
  String.ofList (List.replicate 63 'f' ++ [if bytes.length % 2 = 0 then 'a' else 'b'])

/-- The first of two records. -/
def firstRecord : Record :=
  .sealed lengthDigest genesisHash "1" { action := "heal", target := ".", allowed := true }

/-- The second, with a payload that is longer by one. -/
def secondRecord : Record :=
  .sealed lengthDigest firstRecord.hash "2" { action := "heal", target := "..", allowed := true }

theorem records_eq_of_last_hash_eq_spaced :
    records (firstRecord.line ++ '\n' :: (secondRecord.line ++ ['\n'])) =
      records (['\x7b'] ++ '\n' :: (firstRecord.line ++ '\n' ::
        ([' '] ++ '\n' :: (secondRecord.line ++ ['\n'])))) := by
  have hlength : ∀ bytes, (lengthDigest bytes).length = 64 := fun bytes ↦ by
    rw [← String.length_toList, lengthDigest, String.toList_ofList, List.length_append,
      List.length_replicate, List.length_singleton]
  have hgenesis : ∀ bytes, lengthDigest bytes ≠ genesisHash := fun bytes h ↦ by
    have hhead : (lengthDigest bytes).toList.head? = some 'f' := by
      rw [lengthDigest, String.toList_ofList]
      rfl
    rw [h] at hhead
    exact absurd hhead (by decide)
  have hfits (target : String) : Entry.Fits { action := "heal", target, allowed := true } :=
    ⟨Counts.fits_empty, Counts.fits_empty, Counts.fits_empty, by simp⟩
  have hfirst : slots (firstRecord.line ++ ['\n']) = [some firstRecord] := slots_line (hfits ".")
  have hsecond : slots (secondRecord.line ++ ['\n']) = [some secondRecord] :=
    slots_line (hfits "..")
  have ha : records (firstRecord.line ++ '\n' :: (secondRecord.line ++ ['\n'])) =
      [firstRecord, secondRecord] := by
    rw [records_eq_slots, slots_append_newline, hfirst, hsecond]
    rfl
  have hb : records (['\x7b'] ++ '\n' :: (firstRecord.line ++ '\n' ::
      ([' '] ++ '\n' :: (secondRecord.line ++ ['\n'])))) = [firstRecord, secondRecord] := by
    rw [records_eq_slots, slots_append_newline ['\x7b'], slots_append_newline firstRecord.line,
      slots_append_newline [' '], hfirst, hsecond]
    rfl
  have hchain : Chained lengthDigest genesisHash [firstRecord, secondRecord] :=
    ⟨rfl, rfl, rfl, rfl, trivial⟩
  have hne : lengthDigest firstRecord.material ≠ lengthDigest secondRecord.material := by
    decide +kernel
  refine records_eq_of_last_hash_eq hlength hgenesis ?_ ?_ ?_ ?_
  · rw [check_valid_iff, ha]
    exact hchain
  · rw [check_valid_iff, hb]
    exact hchain
  · rw [ha, hb]
    simp [hne, hne.symm]
  · rw [ha, hb]

end Ledger

end Steward
