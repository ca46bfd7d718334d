import Steward.Proofs.Index.Findings
import Steward.Proofs.Json.ReadBack
import Steward.Proofs.Utf8

/-!
# Identities of findings

Of a key that `n` open violations have, the numbers below `n` are given out, whatever their order:
so identities do not depend on where in its file a violation stands, `Finding.ids_perm_of_moved`.
The bytes behind an identity are the parts of the key with a separator between them. A file and a text
may have it too, and two keys get the same bytes just if they are the same once their file and text are
joined by it, `Finding.keyBytes_eq_iff`; then the index keeps only one of two findings,
`Index.rebuild_keeps_findings_iff`.
-/

namespace Steward

open Text (Line)
open List

theorem Hazard.name_injective : Function.Injective Hazard.name := by
  have hread (h : Hazard) : ofName? h.name = some h := by cases h <;> decide
  intro a b h
  exact Option.some.inj (by rw [← hread a, h, hread])

namespace Finding

/-! ## Numbers -/

section Occurrences

variable {α κ : Type} [BEq κ] {key : α → κ} {k : κ} {n : Nat}

theorem length_occurrences (seen : List κ) (xs : List α) :
    (occurrences key seen xs).length = xs.length := by
  induction xs generalizing seen with
  | nil => rfl
  | cons x xs ih => rw [occurrences, length_cons, length_cons, ih]

variable [LawfulBEq κ]

/-- A key is given the numbers from those seen before on, one for each item that has it. -/
theorem mem_occurrences_iff {seen : List κ} {xs : List α} :
    (k, n) ∈ (occurrences key seen xs).map (fun x ↦ (key x.2, x.1)) ↔
      seen.count k ≤ n ∧ n < seen.count k + (xs.map key).count k := by
  induction xs generalizing seen with
  | nil =>
    simp only [occurrences, map_nil, not_mem_nil, count_nil, false_iff]
    omega
  | cons x xs ih =>
    rw [occurrences, map_cons, mem_cons, ih, map_cons, Prod.mk.injEq]
    by_cases hk : k = key x
    · subst hk
      simp only [count_cons_self, true_and]
      omega
    · rw [count_cons_of_ne (Ne.symm hk), count_cons_of_ne (Ne.symm hk)]
      simp [hk]

end Occurrences

/-- The keys of the violations that are not fixed. -/
def openKeys (vs : List Violation) : List Key := (vs.filter (!·.fixed)).map keyOf

/-- The keys of the violations that are not fixed, with their numbers. -/
def numbered (vs : List Violation) : List (Key × Nat) :=
  (occurrences keyOf [] (vs.filter (!·.fixed))).map fun x => (keyOf x.2, x.1)

section Numbered

variable {digest : Digest} {root : Path} {h : History} {t : FileTree} {now : Instant}
  {vs ws : List Violation}

theorem mem_numbered_iff {k : Key} {n : Nat} : (k, n) ∈ numbered vs ↔ n < (openKeys vs).count k := by
  rw [numbered, mem_occurrences_iff, count_nil, Nat.zero_add, openKeys]
  exact and_iff_right (Nat.zero_le n)

theorem nodup_numbered (vs : List Violation) : (numbered vs).Nodup := nodup_occurrences keyOf [] _

theorem map_id_ofViolations : (ofViolations digest root h t now vs).map (·.id) =
    (numbered vs).map fun x ↦ idOf digest x.1 x.2 := by
  rw [ofViolations, numbered, map_map, map_map]
  rfl

theorem length_ofViolations :
    (ofViolations digest root h t now vs).length = vs.countP (!·.fixed) := by
  rw [ofViolations, length_map, length_occurrences, countP_eq_length_filter]

/-- Which numbers a key gets depends on how often it is there only. -/
theorem numbered_perm (hkeys : (openKeys vs).Perm (openKeys ws)) : (numbered vs).Perm (numbered ws) := by
  refine (perm_ext_iff_of_nodup (nodup_numbered vs) (nodup_numbered ws)).2 ?_
  rintro ⟨k, n⟩
  rw [mem_numbered_iff, mem_numbered_iff, hkeys.count_eq]

end Numbered

/-! ## Moves -/

/-- The key of the violation on a line. -/
def keyOfLine? (file : String) (limit : Nat) (line : Line) : Option Key :=
  (Violation.ofLine? (Language.ofPath ⟨file⟩) file limit line 0).map keyOf

theorem keyOfLine?_of_quiet {file : String} {line : Line}
    (h : Detector.first? (Language.ofPath ⟨file⟩) line = none) (limit : Nat) :
    keyOfLine? file limit line = none := by
  rw [keyOfLine?, Violation.ofLine?, h]
  rfl

/-- The keys of a text are those of its lines, wherever these stand. -/
theorem openKeys_ofText (file : String) (limit : Nat) (text : List Char) :
    openKeys (Violation.ofText file limit text) =
      (Text.lines text).filterMap (keyOfLine? file limit) := by
  have hline (line : Line) (i : Nat) :
      ((Violation.ofLine? (Language.ofPath ⟨file⟩) file limit line i).filter (!·.fixed)).map keyOf =
        keyOfLine? file limit line := by
    rw [keyOfLine?, Violation.ofLine?, Violation.ofLine?]
    cases Detector.first? (Language.ofPath ⟨file⟩) line <;> rfl
  rw [openKeys, Violation.ofText, filter_filterMap, map_filterMap]
  conv_rhs => rw [← zipIdx_map_fst 0 (Text.lines text), filterMap_map]
  exact filterMap_congr fun x _ ↦ hline x.1 (x.2 + 1)

theorem openKeys_append (vs ws : List Violation) :
    openKeys (vs ++ ws) = openKeys vs ++ openKeys ws := by
  rw [openKeys, filter_append, map_append, openKeys, openKeys]

/-- Lines may change places in a file, and lines without a violation may come in. -/
theorem openKeys_ofText_perm {file : String} {text text' : List Char} {added : List Line}
    (hlines : (Text.lines text').Perm (Text.lines text ++ added))
    (hquiet : ∀ line ∈ added, Detector.first? (Language.ofPath ⟨file⟩) line = none) (limit : Nat) :
    (openKeys (Violation.ofText file limit text')).Perm
      (openKeys (Violation.ofText file limit text)) := by
  have hnone : added.filterMap (keyOfLine? file limit) = [] :=
    filterMap_eq_nil_iff.2 fun line hline ↦ keyOfLine?_of_quiet (hquiet line hline) limit
  have hperm := hlines.filterMap (keyOfLine? file limit)
  rw [filterMap_append, hnone, append_nil] at hperm
  rwa [openKeys_ofText, openKeys_ofText]

/-- **Identities survive moves.** If the violations that are not fixed are the same but for their
lines and their order, their findings have the same identities, each as often. So it is if the lines
of a file change places and lines without a violation come in, whatever the other files hold. -/
theorem ids_perm_of_moved {digest : Digest} {root root' : Path} {h h' : History} {t t' : FileTree}
    {now now' : Instant} :
    (∀ vs ws, (openKeys vs).Perm (openKeys ws) →
      ((ofViolations digest root h t now vs).map (·.id)).Perm
        ((ofViolations digest root' h' t' now' ws).map (·.id))) ∧
    ∀ before after file limit text text' added,
      (Text.lines text').Perm (Text.lines text ++ added) →
      (∀ line ∈ added, Detector.first? (Language.ofPath ⟨file⟩) line = none) →
      ((ofViolations digest root h t now
          (before ++ Violation.ofText file limit text' ++ after)).map (·.id)).Perm
        ((ofViolations digest root' h' t' now'
          (before ++ Violation.ofText file limit text ++ after)).map (·.id)) := by
  have hids (vs ws : List Violation) (hkeys : (openKeys vs).Perm (openKeys ws)) :
      ((ofViolations digest root h t now vs).map (·.id)).Perm
        ((ofViolations digest root' h' t' now' ws).map (·.id)) := by
    rw [map_id_ofViolations, map_id_ofViolations]
    exact (numbered_perm hkeys).map _
  refine ⟨hids, fun before after file limit text text' added hlines hquiet ↦ hids _ _ ?_⟩
  simp only [openKeys_append]
  exact ((openKeys_ofText_perm hlines hquiet limit).append_left _).append_right _

/-- Two equal violations change places with another line, and one more line comes in between. -/
theorem ids_perm_of_moved_twice :
    (openKeys (Violation.ofText "a.py" 120 "eval(x)\nexcept:\n".toList)).Perm
        (openKeys (Violation.ofText "a.py" 120 "  except:\n\neval(x)".toList)) ∧
      (Text.lines "eval(x)\nz = 2\neval(x)\ny = 1\n".toList).Perm
        (Text.lines "eval(x)\ny = 1\neval(x)\n".toList ++ ["z = 2".toList]) ∧
      Detector.first? (Language.ofPath ⟨"a.py"⟩) "z = 2".toList = none ∧
      ∀ (root : Path) (h : History) (t : FileTree) (now : Instant),
        ((ofViolations .blake3 root h t now
            (Violation.ofText "a.py" 120 "eval(x)\nexcept:\n".toList)).map (·.id)).Perm
          ((ofViolations .blake3 root h t now
            (Violation.ofText "a.py" 120 "  except:\n\neval(x)".toList)).map (·.id)) ∧
        ((ofViolations .blake3 root h t now
            ([] ++ Violation.ofText "a.py" 120 "eval(x)\nz = 2\neval(x)\ny = 1\n".toList ++ [])).map
              (·.id)).Perm
          ((ofViolations .blake3 root h t now
            ([] ++ Violation.ofText "a.py" 120 "eval(x)\ny = 1\neval(x)\n".toList ++ [])).map
              (·.id)) := by
  have hkeys : (openKeys (Violation.ofText "a.py" 120 "eval(x)\nexcept:\n".toList)).Perm
      (openKeys (Violation.ofText "a.py" 120 "  except:\n\neval(x)".toList)) := by
    decide +kernel
  have hlines : (Text.lines "eval(x)\nz = 2\neval(x)\ny = 1\n".toList).Perm
      (Text.lines "eval(x)\ny = 1\neval(x)\n".toList ++ ["z = 2".toList]) := by
    decide +kernel
  have hquiet : Detector.first? (Language.ofPath ⟨"a.py"⟩) "z = 2".toList = none := by
    decide +kernel
  refine ⟨hkeys, hlines, hquiet, fun root h t now ↦ ⟨ids_perm_of_moved.1 _ _ hkeys, ?_⟩⟩
  exact ids_perm_of_moved.2 [] [] "a.py" 120 _ _ _ hlines (by simpa using hquiet)

/-! ## The bytes behind an identity -/

/-- What comes before the first separator and what comes after it. -/
theorem append_separator_inj {s : Char} {a a' b b' : List Char} (ha : s ∉ a) (ha' : s ∉ a')
    (h : a ++ s :: b = a' ++ s :: b') : a = a' ∧ b = b' := by
  rcases append_eq_append_iff.1 h with ⟨c, rfl, hc⟩ | ⟨c, rfl, hc⟩ <;> cases c <;> simp_all

/-- What is between two ends without a separator is told by them. -/
theorem append_separated_inj {s : Char} {a a' b b' c c' : List Char} (ha : s ∉ a) (ha' : s ∉ a')
    (hc : s ∉ c) (hc' : s ∉ c') (h : a ++ s :: (b ++ s :: c) = a' ++ s :: (b' ++ s :: c')) :
    a = a' ∧ b = b' ∧ c = c' := by
  obtain ⟨rfl, hrest⟩ := append_separator_inj ha ha' h
  have hreverse := congrArg List.reverse hrest
  simp only [reverse_append, reverse_cons, append_assoc, singleton_append]
    at hreverse
  obtain ⟨hc, hb⟩ := append_separator_inj (by simpa using hc) (by simpa using hc') hreverse
  exact ⟨rfl, reverse_injective hb, reverse_injective hc⟩

/-- The character between the parts of a key. -/
def separator : Char := '\x1f'

/-- A file and a text with the separator between them. -/
def Key.joint (k : Key) : List Char := k.file.toList ++ separator :: k.text.toList

theorem keyBytes_eq_encode (k : Key) (n : Nat) : keyBytes k n = Utf8.encode
    (k.hazard.name.toList ++ separator :: (k.joint ++ separator :: Json.digits n)) := by
  have hseparator (cs : List Char) : Utf8.encode (separator :: cs) = 0x1f :: Utf8.encode cs := by
    rw [Utf8.encode_cons]
    rfl
  simp only [keyBytes, Key.joint, Utf8.encode_append, hseparator, append_assoc,
    cons_append, nil_append]

theorem separator_notMem_name (h : Hazard) : separator ∉ h.name.toList := by
  cases h <;> decide

theorem separator_notMem_digits (n : Nat) : separator ∉ Json.digits n := fun h ↦
  absurd (Json.Reader.isDigit_of_mem_digits h) (by decide)

/-- The bytes tell the hazard and the number, but not where the file ends and the text starts. -/
theorem keyBytes_eq_iff {k k' : Key} {n n' : Nat} :
    keyBytes k n = keyBytes k' n' ↔ k.hazard = k'.hazard ∧ k.joint = k'.joint ∧ n = n' := by
  rw [keyBytes_eq_encode, keyBytes_eq_encode]
  constructor
  · intro h
    obtain ⟨hname, hjoint, hdigits⟩ := append_separated_inj (separator_notMem_name _)
      (separator_notMem_name _) (separator_notMem_digits _) (separator_notMem_digits _)
      (Utf8.encode_injective h)
    refine ⟨Hazard.name_injective (String.toList_injective hname), hjoint, ?_⟩
    rw [← Json.Reader.digits_value n, hdigits, Json.Reader.digits_value]
  · rintro ⟨hhazard, hjoint, rfl⟩
    rw [hhazard, hjoint]

/-- Among the violations that are not fixed, a hazard and a file with its text, once these are joined,
tell which file it is. -/
def Unambiguous (vs : List Violation) : Prop :=
  ∀ k ∈ openKeys vs, ∀ k' ∈ openKeys vs, k.hazard = k'.hazard → k.joint = k'.joint → k.file = k'.file

instance (vs : List Violation) : Decidable (Unambiguous vs) :=
  inferInstanceAs (Decidable (∀ k ∈ openKeys vs, ∀ k' ∈ openKeys vs,
    k.hazard = k'.hazard → k.joint = k'.joint → k.file = k'.file))

/-- Without a separator in the names of files there is no doubt. -/
theorem unambiguous_of_files {vs : List Violation} (h : ∀ v ∈ vs, separator ∉ v.file.toList) :
    Unambiguous vs := by
  have hfile {k : Key} (hk : k ∈ openKeys vs) : separator ∉ k.file.toList := by
    obtain ⟨v, hv, rfl⟩ := mem_map.1 hk
    exact h v (mem_of_mem_filter hv)
  intro k hk k' hk' _ hjoint
  exact String.toList_injective (append_separator_inj (hfile hk) (hfile hk') hjoint).1

/-- The first digits of the digest do not collide on the byte strings of some violations. -/
def Collisionless (digest : Digest) (vs : List Violation) : Prop :=
  ∀ x ∈ numbered vs, ∀ y ∈ numbered vs, idOf digest x.1 x.2 = idOf digest y.1 y.2 →
    keyBytes x.1 x.2 = keyBytes y.1 y.2

section Nodup

variable {digest : Digest} {root : Path} {h : History} {t : FileTree} {now : Instant}
  {vs : List Violation}

theorem mem_openKeys_of_mem_numbered {x : Key × Nat} (hx : x ∈ numbered vs) : x.1 ∈ openKeys vs :=
  count_pos_iff.1 ((Nat.zero_le _).trans_lt (mem_numbered_iff.1 hx))

theorem nodup_ids_iff (hdigest : Collisionless digest vs) :
    ((ofViolations digest root h t now vs).map (·.id)).Nodup ↔ Unambiguous vs := by
  rw [map_id_ofViolations]
  constructor
  · intro hnodup k hk k' hk' hhazard hjoint
    -- The first violations of both keys have the same identity.
    have hfirst {k : Key} (hk : k ∈ openKeys vs) : (k, 0) ∈ numbered vs :=
      mem_numbered_iff.2 (count_pos_iff.2 hk)
    have hbytes : keyBytes k 0 = keyBytes k' 0 := keyBytes_eq_iff.2 ⟨hhazard, hjoint, rfl⟩
    have heq := inj_on_of_nodup_map hnodup (hfirst hk) (hfirst hk')
      (by rw [idOf, idOf, hbytes])
    rw [(Prod.mk.inj heq).1]
  · intro hplain
    refine List.Nodup.map_on (fun x hx y hy hid ↦ ?_) (nodup_numbered vs)
    obtain ⟨hhazard, hjoint, hnumber⟩ := keyBytes_eq_iff.1 (hdigest x hx y hy hid)
    have hfile := hplain _ (mem_openKeys_of_mem_numbered hx) _ (mem_openKeys_of_mem_numbered hy)
      hhazard hjoint
    have htext : x.1.text = y.1.text := by
      rw [Key.joint, Key.joint, hfile] at hjoint
      exact String.toList_injective (List.cons.inj (append_cancel_left hjoint)).2
    refine Prod.ext ?_ hnumber
    rw [Key.mk.injEq]
    exact ⟨hhazard, hfile, htext⟩

end Nodup

end Finding

namespace Index

open Finding

section Rebuild

variable {x : Index} {fs : List Finding}

/-- What comes into the index are some of the findings, in order. -/
theorem exists_sublist_addFindings (x : Index) (fs : List Finding) :
    ∃ gs : List Finding, gs.Sublist fs ∧ (x.addFindings fs).findings = x.findings ++ gs := by
  induction fs generalizing x with
  | nil => exact ⟨[], .slnil, (append_nil _).symm⟩
  | cons f fs ih =>
    obtain ⟨gs, hgs, heq⟩ := ih (x.addFinding f)
    by_cases hf : f.id ∈ x.findings.map (·.id)
    · rw [addFinding_of_mem hf] at heq
      refine ⟨gs, hgs.cons f, ?_⟩
      rw [addFindings, foldl_cons, addFinding_of_mem hf]
      exact heq
    · rw [findings_addFinding_of_not_mem hf, append_assoc] at heq
      exact ⟨f :: gs, hgs.cons_cons f, heq⟩

theorem findings_addFindings_of_nodup (h : ((x.findings ++ fs).map (·.id)).Nodup) :
    (x.addFindings fs).findings = x.findings ++ fs := by
  induction fs generalizing x with
  | nil => exact (append_nil _).symm
  | cons f fs ih =>
    have hf : f.id ∉ x.findings.map (·.id) := by
      rw [map_append, map_cons] at h
      exact fun hmem ↦ (nodup_append.1 h).2.2 _ hmem _ mem_cons_self rfl
    have hnext := findings_addFinding_of_not_mem hf
    rw [addFindings, foldl_cons, ← addFindings, ih, hnext, append_assoc,
      singleton_append]
    rwa [hnext, append_assoc, singleton_append]

/-- A rebuilt index keeps all findings just if they have identities of their own. -/
theorem findings_rebuild_eq_iff {now : Instant} {cs : List Commit} :
    (rebuild now cs fs).findings = fs ↔ (fs.map (·.id)).Nodup := by
  constructor
  · intro h
    rw [← h]
    exact nodup_ids_rebuild now cs fs
  · intro h
    rw [findings_rebuild]
    exact findings_addFindings_of_nodup (x := {}) h

theorem sublist_findings_rebuild (now : Instant) (cs : List Commit) (fs : List Finding) :
    (rebuild now cs fs).findings.Sublist fs := by
  obtain ⟨gs, hgs, heq⟩ := exists_sublist_addFindings {} fs
  rw [findings_rebuild, heq]
  exact hgs

end Rebuild

/-- **When the index keeps every finding.** Let the digest not collide on the byte strings in use.
Then the findings of the violations that are not fixed, of which there is one for each, have
identities of their own, and a rebuilt index holds them one by one, just if no two files and texts of
one hazard come to the same once they are joined by the separator; otherwise some are dropped. There
is no such doubt if no file has the separator in its name. -/
theorem rebuild_keeps_findings_iff {digest : Digest} {root : Path} {h : History} {t : FileTree}
    {now built : Instant} {cs : List Commit} {vs : List Violation} {rows : List Finding}
    (hdigest : Collisionless digest vs) (hrows : ofViolations digest root h t now vs = rows) :
    rows.length = vs.countP (!·.fixed) ∧
      ((rows.map (·.id)).Nodup ↔ Unambiguous vs) ∧
      ((rebuild built cs rows).findings = rows ↔ Unambiguous vs) ∧
      (¬Unambiguous vs → (rebuild built cs rows).findings.length < rows.length) ∧
      ((∀ v ∈ vs, separator ∉ v.file.toList) → Unambiguous vs) := by
  subst hrows
  have hnodup : ((ofViolations digest root h t now vs).map (·.id)).Nodup ↔ Unambiguous vs :=
    nodup_ids_iff hdigest
  have hkept : (rebuild built cs (ofViolations digest root h t now vs)).findings =
      ofViolations digest root h t now vs ↔ _ := findings_rebuild_eq_iff
  refine ⟨length_ofViolations, hnodup, hkept.trans hnodup, fun hdoubt ↦ ?_, unambiguous_of_files⟩
  have hsub := sublist_findings_rebuild built cs (ofViolations digest root h t now vs)
  refine lt_of_le_of_ne hsub.length_le fun hlength ↦ hdoubt ?_
  exact hnodup.1 (hkept.1 (hsub.eq_of_length hlength))

/-- The violations of two files: what follows the separator in the name of one is in the text of the
other. -/
def separated : List Violation :=
  Violation.ofText "a.py" 120 "b.py\x1feval(x)".toList ++
    Violation.ofText "a.py\x1fb.py" 120 "eval(x)".toList

/-- Two violations have one identity, and one of them is not in the index. -/
theorem rebuild_keeps_findings_iff_separated :
    Collisionless .blake3 separated ∧ separated.countP (!·.fixed) = 2 ∧
      ∀ (root : Path) (h : History) (t : FileTree) (now built : Instant) (cs : List Commit),
        ¬((ofViolations .blake3 root h t now separated).map (·.id)).Nodup ∧
          (rebuild built cs (ofViolations .blake3 root h t now separated)).findings.length < 2 := by
  have hdigest : Collisionless .blake3 separated := by
    have hbytes : ∀ x ∈ numbered separated, ∀ y ∈ numbered separated,
        keyBytes x.1 x.2 = keyBytes y.1 y.2 := by
      decide +kernel
    exact fun x hx y hy _ ↦ hbytes x hx y hy
  have hdoubt : ¬Unambiguous separated := by decide +kernel
  have hcount : separated.countP (!·.fixed) = 2 := by decide +kernel
  refine ⟨hdigest, hcount, fun root h t now built cs ↦ ?_⟩
  obtain ⟨hlength, hnodup, -, hdropped, -⟩ :=
    @rebuild_keeps_findings_iff .blake3 root h t now built cs separated _ hdigest rfl
  refine ⟨fun hids ↦ hdoubt (hnodup.1 hids), ?_⟩
  rw [← hcount, ← hlength]
  exact hdropped hdoubt

end Index

end Steward
