import Steward.Proofs.Utf8
import Steward.Text.Encoding

/-!
# Texts have no zero

Bytes with a zero among them are read as no text, all others as UTF-8 or else byte by byte,
`Encoding.detect_eq_some_iff`. The zero character comes from a zero byte and from nothing else, so a
text that was read has none, `Encoding.zero_notMem_of_detect`, and a text without one is read back
from its bytes, `Encoding.detect_encode`.
-/

namespace Steward

namespace Utf8

theorem zero_notMem_of_decode {bytes : List UInt8} {cs : List Char} (h : decode bytes = some cs)
    (hzero : 0 ∉ bytes) : '\x00' ∉ cs := by
  intro hmem
  rw [eq_encode_of_decode h] at hzero
  exact hzero (List.mem_flatMap.2 ⟨_, hmem, List.mem_singleton_self _⟩)

theorem zero_notMem_encode {cs : List Char} (h : '\x00' ∉ cs) : 0 ∉ encode cs := by
  rw [encode, List.mem_flatMap]
  rintro ⟨c, hc, hzero⟩
  have hne : c.toNat ≠ 0 := by
    intro hnumber
    have hchar : Char.ofNat c.toNat = '\x00' := by rw [hnumber]
    rw [Char.ofNat_toNat] at hchar
    exact h (hchar ▸ hc)
  have hrange := char_range c
  have hbyte {n : Nat} (hn : n < 256) (hpos : n ≠ 0) : (0 : UInt8) ≠ UInt8.ofNat n := by
    intro heq
    have := congrArg UInt8.toNat heq
    rw [toNat_ofNat_of_lt hn] at this
    exact hpos this.symm
  rw [encodeChar_eq] at hzero
  split_ifs at hzero <;>
    simp only [List.mem_cons, List.not_mem_nil, or_false] at hzero
  · exact hbyte (by omega) hne hzero
  · rcases hzero with hzero | hzero <;> exact hbyte (by omega) (by omega) hzero
  · rcases hzero with hzero | hzero | hzero <;> exact hbyte (by omega) (by omega) hzero
  · rcases hzero with hzero | hzero | hzero | hzero <;> exact hbyte (by omega) (by omega) hzero

end Utf8

namespace Encoding

variable {bytes : List UInt8} {source : List Char} {encoding : Encoding}

theorem mapM_cp1252Char?_of_mem (h : 0 ∈ bytes) : bytes.mapM cp1252Char? = none := by
  induction bytes with
  | nil => cases h
  | cons b bs ih =>
    rw [List.mapM_cons]
    rcases List.mem_cons.1 h with rfl | h
    · rfl
    · cases cp1252Char? b with
      | none => rfl
      | some c => simp [ih h]

theorem detect_eq (bytes : List UInt8) :
    detect bytes = if 0 ∈ bytes then none else
      some (((Utf8.decode bytes).map (·, utf8)).getD (latin1Chars bytes, latin1)) := by
  split_ifs with hzero
  · simp [detect, chain, decode, hzero, mapM_cp1252Char?_of_mem]
  · cases hdecode : Utf8.decode bytes <;> simp [detect, chain, decode, hzero, hdecode]

theorem detect_eq_none_iff : detect bytes = none ↔ 0 ∈ bytes := by
  rw [detect_eq, ite_eq_left_iff]
  simp

theorem map_fst_detect (bytes : List UInt8) :
    (detect bytes).map (·.1) =
      if 0 ∈ bytes then none else some ((Utf8.decode bytes).getD (latin1Chars bytes)) := by
  rw [detect_eq]
  split_ifs with hzero
  · rfl
  · cases Utf8.decode bytes <;> rfl

theorem eq_latin1Chars_iff :
    source = latin1Chars bytes ↔ source.map Char.toNat = bytes.map UInt8.toNat := by
  have hnumbers : (latin1Chars bytes).map Char.toNat = bytes.map UInt8.toNat := by
    rw [latin1Chars, List.map_map]
    refine List.map_congr_left fun b _ ↦ Utf8.toNat_ofNat_of_isValid (.inl ?_)
    have hlt := b.toNat_lt
    omega
  rw [← hnumbers]
  exact (List.map_injective_iff.2 fun _ _ ↦ Char.toNat_inj.1).eq_iff.symm

theorem zero_notMem_latin1Chars (h : 0 ∉ bytes) : '\x00' ∉ latin1Chars bytes := by
  intro hmem
  have hnumbers := eq_latin1Chars_iff.1 (rfl : latin1Chars bytes = latin1Chars bytes)
  have hzero : 0 ∈ bytes.map UInt8.toNat := hnumbers ▸ List.mem_map_of_mem hmem
  obtain ⟨b, hb, hzero⟩ := List.mem_map.1 hzero
  exact h ((UInt8.toNat_inj.1 hzero : b = 0) ▸ hb)

/-- Which encoding bytes are read in, and as what. -/
theorem detect_eq_some_iff :
    detect bytes = some (source, encoding) ↔ 0 ∉ bytes ∧
      (encoding = utf8 ∧ bytes = Utf8.encode source ∨
        encoding = latin1 ∧ (∀ cs, bytes ≠ Utf8.encode cs) ∧
          source.map Char.toNat = bytes.map UInt8.toNat) := by
  rw [← Utf8.decode_eq_some_iff, ← Utf8.decode_eq_none_iff, ← eq_latin1Chars_iff, detect_eq]
  cases Utf8.decode bytes <;> simp [eq_comm, and_comm]

theorem of_detect (h : detect bytes = some (source, encoding)) :
    0 ∉ bytes ∧ source = (Utf8.decode bytes).getD (latin1Chars bytes) := by
  have hfst := map_fst_detect bytes
  rw [h] at hfst
  split_ifs at hfst with hzero
  · cases hfst
  · exact ⟨hzero, Option.some.inj hfst⟩

/-- A text that was read has no zero. -/
theorem zero_notMem_of_detect (h : detect bytes = some (source, encoding)) : '\x00' ∉ source := by
  obtain ⟨hzero, rfl⟩ := of_detect h
  cases hdecode : Utf8.decode bytes with
  | none => exact zero_notMem_latin1Chars hzero
  | some cs => exact Utf8.zero_notMem_of_decode hdecode hzero

/-- A text without a zero is read back from its bytes. -/
theorem detect_encode (h : '\x00' ∉ source) :
    detect (Utf8.encode source) = some (source, .utf8) := by
  simp [detect, chain, decode, Utf8.zero_notMem_encode h, Utf8.decode_encode]

end Encoding

end Steward
