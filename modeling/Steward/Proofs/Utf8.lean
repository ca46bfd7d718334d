import Mathlib
import Steward.Text.Utf8

/-!
# Decoding gives back what was encoded

`Utf8.decode_encode` is the round trip, and no other bytes are read as a text,
`Utf8.eq_encode_of_decode`. What the ledger needs is the form `Utf8.decode_append`: bytes that are a
text stay one when the encoding of a further text is added to them, and the two texts are read one
after the other. Bytes are in the order of the texts, `Utf8.encode_lt_encode`.
-/

namespace Steward.Utf8

open List

variable {n fuel : Nat} {a b : UInt8} {bs rest : List UInt8} {c : Char} {done cs : List Char}

/-! ## One character -/

theorem toNat_ofNat_of_lt (h : n < 256) : (UInt8.ofNat n).toNat = n := by
  simp [Nat.mod_eq_of_lt h]

theorem isContinuation_iff (b : UInt8) :
    isContinuation b ↔ 0x80 ≤ b.toNat ∧ b.toNat ≤ 0xBF := by
  simp [isContinuation, UInt8.le_iff_toNat_le]

/-- The second byte of a character, whatever its lead byte is. -/
theorem mayFollow_iff (lead b : UInt8) :
    mayFollow lead b ↔ 0x80 ≤ b.toNat ∧ b.toNat ≤ 0xBF ∧
      (lead.toNat = 0xE0 → 0xA0 ≤ b.toNat) ∧ (lead.toNat = 0xED → b.toNat ≤ 0x9F) ∧
      (lead.toNat = 0xF0 → 0x90 ≤ b.toNat) ∧ (lead.toNat = 0xF4 → b.toNat ≤ 0x8F) := by
  unfold mayFollow isContinuation
  simp only [← UInt8.toNat_inj, UInt8.reduceToNat]
  split_ifs <;> simp [UInt8.le_iff_toNat_le] <;> omega

/-- The values of a character: none is a surrogate. -/
theorem char_range (c : Char) : c.toNat < 0xD800 ∨ 0xDFFF < c.toNat ∧ c.toNat < 0x110000 :=
  c.valid

theorem next_one (rest : List UInt8) (ha : a.toNat < 0x80) :
    next a rest = (some (Char.ofNat a.toNat), rest) := by
  simp [next, UInt8.lt_iff_toNat_lt, ha]

theorem next_two (rest : List UInt8) (ha : 0xC2 ≤ a.toNat ∧ a.toNat < 0xE0) (hb : mayFollow a b) :
    next a (b :: rest) = (some (Char.ofNat (a.toNat % 32 * 64 + payload b)), rest) := by
  have h₀ : ¬ a.toNat < 0x80 := by omega
  have h₁ : ¬ (a.toNat < 0xC2 ∨ 0xF4 < a.toNat) := by omega
  simp [next, UInt8.lt_iff_toNat_lt, hb, h₀, h₁, ha.2]

theorem next_three {c : UInt8} (rest : List UInt8) (ha : 0xE0 ≤ a.toNat ∧ a.toNat < 0xF0)
    (hb : mayFollow a b) (hc : isContinuation c) :
    next a (b :: c :: rest) =
      (some (Char.ofNat (a.toNat % 16 * 4096 + payload b * 64 + payload c)), rest) := by
  have h₀ : ¬ a.toNat < 0x80 := by omega
  have h₁ : ¬ (a.toNat < 0xC2 ∨ 0xF4 < a.toNat) := by omega
  have h₂ : ¬ a.toNat < 0xE0 := by omega
  simp [next, UInt8.lt_iff_toNat_lt, hb, hc, h₀, h₁, h₂, ha.2]

theorem next_four {c d : UInt8} (rest : List UInt8) (ha : 0xF0 ≤ a.toNat ∧ a.toNat < 0xF5)
    (hb : mayFollow a b) (hc : isContinuation c) (hd : isContinuation d) :
    next a (b :: c :: d :: rest) =
      (some (Char.ofNat
        (a.toNat % 8 * 262144 + payload b * 4096 + payload c * 64 + payload d)), rest) := by
  have h₀ : ¬ a.toNat < 0x80 := by omega
  have h₁ : ¬ (a.toNat < 0xC2 ∨ 0xF4 < a.toNat) := by omega
  have h₂ : ¬ a.toNat < 0xE0 := by omega
  have h₃ : ¬ a.toNat < 0xF0 := by omega
  simp [next, UInt8.lt_iff_toNat_lt, hb, hc, hd, h₀, h₁, h₂, h₃]

theorem encodeChar_eq (c : Char) : String.utf8EncodeChar c =
    if c.toNat ≤ 127 then [UInt8.ofNat c.toNat]
    else if c.toNat ≤ 2047 then
      [UInt8.ofNat (c.toNat / 64 % 32 + 192), UInt8.ofNat (c.toNat % 64 + 128)]
    else if c.toNat ≤ 65535 then
      [UInt8.ofNat (c.toNat / 4096 % 16 + 224), UInt8.ofNat (c.toNat / 64 % 64 + 128),
        UInt8.ofNat (c.toNat % 64 + 128)]
    else
      [UInt8.ofNat (c.toNat / 262144 % 8 + 240), UInt8.ofNat (c.toNat / 4096 % 64 + 128),
        UInt8.ofNat (c.toNat / 64 % 64 + 128), UInt8.ofNat (c.toNat % 64 + 128)] := rfl

/-- The first character of an encoding is read back, and nothing of what follows it is touched. -/
theorem next_encodeChar (c : Char) (more : List UInt8) :
    ∃ b bs, String.utf8EncodeChar c = b :: bs ∧ next b (bs ++ more) = (some c, more) := by
  have hc := char_range c
  have hback {n : Nat} (h : n = c.toNat) : Char.ofNat n = c := by rw [h, Char.ofNat_toNat]
  -- Continuation bytes carry six bits each, so their payloads are what is left modulo 64.
  have htail (n : Nat) : (UInt8.ofNat (n % 64 + 128)).toNat = n % 64 + 128 :=
    toNat_ofNat_of_lt (by omega)
  have hpay (n : Nat) : payload (UInt8.ofNat (n % 64 + 128)) = n % 64 := by
    rw [payload, htail]
    omega
  have hcont (n : Nat) : isContinuation (UInt8.ofNat (n % 64 + 128)) := by
    rw [isContinuation_iff, htail]
    omega
  rw [encodeChar_eq]
  split_ifs with h₁ h₂ h₃
  · have ha : (UInt8.ofNat c.toNat).toNat = c.toNat := toNat_ofNat_of_lt (by omega)
    refine ⟨_, _, rfl, ?_⟩
    rw [nil_append, next_one _ (by omega), hback ha]
  · have ha : (UInt8.ofNat (c.toNat / 64 % 32 + 192)).toNat = c.toNat / 64 % 32 + 192 :=
      toNat_ofNat_of_lt (by omega)
    refine ⟨_, _, rfl, ?_⟩
    rw [singleton_append, next_two _ (by omega) (by rw [mayFollow_iff, ha, htail]; omega),
      ha, hpay, hback (by omega)]
  · have ha : (UInt8.ofNat (c.toNat / 4096 % 16 + 224)).toNat = c.toNat / 4096 % 16 + 224 :=
      toNat_ofNat_of_lt (by omega)
    refine ⟨_, _, rfl, ?_⟩
    rw [cons_append, singleton_append,
      next_three _ (by omega) (by rw [mayFollow_iff, ha, htail]; omega) (hcont _),
      ha, hpay, hpay, hback (by omega)]
  · have ha : (UInt8.ofNat (c.toNat / 262144 % 8 + 240)).toNat = c.toNat / 262144 % 8 + 240 :=
      toNat_ofNat_of_lt (by omega)
    refine ⟨_, _, rfl, ?_⟩
    rw [cons_append, cons_append, singleton_append,
      next_four _ (by omega) (by rw [mayFollow_iff, ha, htail]; omega) (hcont _) (hcont _),
      ha, hpay, hpay, hpay, hback (by omega)]

theorem toNat_ofNat_of_isValid (h : n.isValidChar) : (Char.ofNat n).toNat = n := by
  rw [Char.ofNat, dif_pos h]
  rfl

/-- Only the bytes of a character are read as it. -/
theorem eq_encodeChar_of_next {lead : UInt8} (h : next lead bs = (some c, rest)) :
    lead :: bs = String.utf8EncodeChar c ++ rest := by
  have hbyte {n : Nat} {b : UInt8} (h : n = b.toNat) : UInt8.ofNat n = b := by
    rw [h, UInt8.ofNat_toNat]
  have hlead := lead.toNat_lt
  revert h
  fun_cases next lead bs with
  | case1 =>
    rintro ⟨⟩
    have hlt : lead.toNat < 0x80 := UInt8.lt_iff_toNat_lt.1 ‹lead < 0x80›
    rw [encodeChar_eq, toNat_ofNat_of_isValid (.inl (by omega)), if_pos (by omega), hbyte rfl]
    rfl
  | case5 h₁ h₂ b rest₁ h₃ h₄ =>
    rintro ⟨⟩
    simp only [Bool.not_eq_true', Bool.not_eq_false, mayFollow_iff, Bool.or_eq_true,
      decide_eq_true_eq, not_or, UInt8.lt_iff_toNat_lt, UInt8.reduceToNat, payload] at *
    rw [encodeChar_eq, toNat_ofNat_of_isValid (.inl (by omega)), if_neg (by omega),
      if_pos (by omega), hbyte (b := lead) (by omega), hbyte (b := b) (by omega)]
    rfl
  | case8 h₁ h₂ b h₃ h₄ c rest₂ h₅ h₆ =>
    rintro ⟨⟩
    simp only [Bool.not_eq_true', Bool.not_eq_false, mayFollow_iff, isContinuation_iff,
      Bool.or_eq_true, decide_eq_true_eq, not_or, UInt8.lt_iff_toNat_lt, UInt8.reduceToNat,
      payload] at *
    rw [encodeChar_eq, toNat_ofNat_of_isValid (by rw [Nat.isValidChar]; omega), if_neg (by omega),
      if_neg (by omega), if_pos (by omega), hbyte (b := lead) (by omega), hbyte (b := b) (by omega),
      hbyte (b := c) (by omega)]
    rfl
  | case11 h₁ h₂ b h₃ h₄ c h₅ h₆ d rest₃ h₇ =>
    rintro ⟨⟩
    simp only [Bool.not_eq_true', Bool.not_eq_false, mayFollow_iff, isContinuation_iff,
      Bool.or_eq_true, decide_eq_true_eq, not_or, UInt8.lt_iff_toNat_lt, UInt8.reduceToNat,
      payload] at *
    rw [encodeChar_eq, toNat_ofNat_of_isValid (by rw [Nat.isValidChar]; omega), if_neg (by omega),
      if_neg (by omega), if_neg (by omega), hbyte (b := lead) (by omega), hbyte (b := b) (by omega),
      hbyte (b := c) (by omega), hbyte (b := d) (by omega)]
    rfl
  | _ => rintro ⟨⟩

/-! ## Texts -/

theorem length_next_le {lead : UInt8} (h : next lead bs = (some c, rest)) :
    rest.length ≤ bs.length := by
  have hlength := congrArg List.length (eq_encodeChar_of_next h)
  have hpos := c.utf8Size_pos
  rw [length_append, length_cons, String.length_utf8EncodeChar] at hlength
  omega

theorem decodeFrom_cons_some (h : next b bs = (some c, rest)) :
    decodeFrom (fuel + 1) done (b :: bs) = decodeFrom fuel (c :: done) rest := by
  rw [decodeFrom, h]

theorem decodeFrom_cons_none (h : next b bs = (none, rest)) :
    decodeFrom (fuel + 1) done (b :: bs) = none := by
  rw [decodeFrom, h]

/-- What is decoded so far only stands in front. -/
theorem decodeFrom_done (fuel : Nat) (done : List Char) (bs : List UInt8) :
    decodeFrom fuel done bs = (decodeFrom fuel [] bs).map (done.reverse ++ ·) := by
  induction fuel generalizing done bs with
  | zero => cases bs <;> simp [decodeFrom]
  | succ fuel ih =>
    cases bs with
    | nil => simp [decodeFrom]
    | cons b bs =>
      rcases hn : next b bs with ⟨_ | c, rest⟩
      · rw [decodeFrom_cons_none hn, decodeFrom_cons_none hn]
        rfl
      · rw [decodeFrom_cons_some hn, decodeFrom_cons_some hn, ih (c :: done), ih [c],
          Option.map_map]
        congr 1
        funext cs
        simp

/-- Fuel beyond the number of bytes makes no difference. -/
theorem decodeFrom_fuel (h : bs.length ≤ fuel) :
    decodeFrom fuel done bs = decodeFrom bs.length done bs := by
  induction fuel using Nat.strong_induction_on generalizing done bs with
  | _ fuel ih =>
    cases bs with
    | nil => cases fuel <;> rfl
    | cons b bs =>
      obtain ⟨fuel, rfl⟩ : ∃ k, fuel = k + 1 := ⟨fuel - 1, by simp at h; omega⟩
      rw [length_cons, Nat.add_le_add_iff_right] at h
      rw [length_cons]
      rcases hn : next b bs with ⟨_ | c, rest⟩
      · rw [decodeFrom_cons_none hn, decodeFrom_cons_none hn]
      · have hlen := length_next_le hn
        rw [decodeFrom_cons_some hn, decodeFrom_cons_some hn, ih fuel (by omega) (by omega)]
        exact (ih bs.length (by omega) hlen).symm

theorem decode_cons (h : next b bs = (some c, rest)) :
    decode (b :: bs) = (decode rest).map (c :: ·) := by
  rw [decode, length_cons, decodeFrom_cons_some h, decodeFrom_done,
    decodeFrom_fuel (length_next_le h)]
  rfl

theorem decode_cons_none (h : next b bs = (none, rest)) : decode (b :: bs) = none :=
  decodeFrom_cons_none h

@[simp]
theorem decode_nil : decode [] = some [] := rfl

theorem encode_cons (c : Char) (cs : List Char) :
    encode (c :: cs) = String.utf8EncodeChar c ++ encode cs := flatMap_cons

/-- A text is read, and then what comes behind it. -/
theorem decode_encode_append (cs : List Char) (more : List UInt8) :
    decode (encode cs ++ more) = (decode more).map (cs ++ ·) := by
  induction cs with
  | nil => simp [encode]
  | cons c cs ih =>
    obtain ⟨b, bs, hb, hn⟩ := next_encodeChar c (encode cs ++ more)
    rw [encode_cons, hb, cons_append, cons_append, append_assoc, decode_cons hn, ih,
      Option.map_map]
    rfl

/-- **Round trip.** -/
theorem decode_encode (cs : List Char) : decode (encode cs) = some cs := by
  simpa using decode_encode_append cs []

/-- Only the bytes of a text are read as it. -/
theorem eq_encode_of_decode (h : decode bs = some cs) : bs = encode cs := by
  induction hn : bs.length using Nat.strong_induction_on generalizing bs cs with
  | _ n ih =>
    cases bs with
    | nil =>
      obtain rfl : [] = cs := by simpa using h
      rfl
    | cons b bs =>
      rcases hx : next b bs with ⟨_ | c, rest⟩
      · rw [decode_cons_none hx] at h
        cases h
      · rw [decode_cons hx] at h
        obtain ⟨ds, hds, rfl⟩ := Option.map_eq_some_iff.1 h
        have hlength := length_next_le hx
        rw [length_cons] at hn
        rw [eq_encodeChar_of_next hx, encode_cons, ih rest.length (by omega) hds rfl]

theorem decode_eq_some_iff : decode bs = some cs ↔ bs = encode cs :=
  ⟨eq_encode_of_decode, fun h ↦ h ▸ decode_encode cs⟩

theorem decode_eq_none_iff : decode bs = none ↔ ∀ cs, bs ≠ encode cs := by
  simp only [Option.eq_none_iff_forall_ne_some, ne_eq, decode_eq_some_iff]

/-- Bytes that are a text lose nothing. -/
theorem decodeLossyFrom_of_decodeFrom (h : decodeFrom fuel done bs = some cs) :
    decodeLossyFrom fuel done bs = cs := by
  induction fuel generalizing done bs with
  | zero =>
    cases bs with
    | nil => exact Option.some.inj h
    | cons b bs => cases h
  | succ fuel ih =>
    cases bs with
    | nil => exact Option.some.inj h
    | cons b bs =>
      rcases hn : next b bs with ⟨_ | c, rest⟩
      · rw [decodeFrom_cons_none hn] at h
        cases h
      · rw [decodeFrom_cons_some hn] at h
        rw [decodeLossyFrom, hn]
        exact ih h

theorem decodeLossy_encode (cs : List Char) : decodeLossy (encode cs) = cs :=
  decodeLossyFrom_of_decodeFrom (decode_encode cs)

/-- A text is determined by its bytes. -/
theorem encode_injective : Function.Injective encode := by
  intro cs ds h
  have : some cs = some ds := by rw [← decode_encode cs, ← decode_encode ds, h]
  exact Option.some.inj this

/-- Bytes that are a text can be continued by any other. -/
theorem decode_append (h : decode bs = some cs) (more : List UInt8) :
    decode (bs ++ more) = (decode more).map (cs ++ ·) := by
  rw [eq_encode_of_decode h, decode_encode_append]

/-! ## Texts that are cut off -/

theorem encode_append (cs ds : List Char) : encode (cs ++ ds) = encode cs ++ encode ds :=
  flatMap_append

/-- A text goes on with another if its bytes do. -/
theorem encode_isPrefix_iff {ds : List Char} : encode cs <+: encode ds ↔ cs <+: ds := by
  constructor
  · rintro ⟨more, hmore⟩
    have h := decode_append (decode_encode cs) more
    rw [hmore, decode_encode] at h
    obtain ⟨es, -, hes⟩ := Option.map_eq_some_iff.1 h.symm
    exact ⟨es, hes⟩
  · rintro ⟨es, rfl⟩
    exact ⟨encode es, (encode_append cs es).symm⟩

/-- The bytes up to a cut are those of the characters before it, or a character was cut in two and
they are no text. -/
theorem decode_take_encode (cs : List Char) (k : Nat) :
    (∃ n, (encode cs).take k = encode (cs.take n)) ∨ decode ((encode cs).take k) = none := by
  cases hdecode : decode ((encode cs).take k) with
  | none => exact .inr rfl
  | some ds =>
    have htake := eq_encode_of_decode hdecode
    have hprefix : ds <+: cs := encode_isPrefix_iff.1 (htake ▸ take_prefix k _)
    exact .inl ⟨ds.length, by rw [htake, ← prefix_iff_eq_take.1 hprefix]⟩

/-! ## Order -/

theorem ofNat_lt_ofNat_iff {m : Nat} (hm : m < 256) (hn : n < 256) :
    UInt8.ofNat m < UInt8.ofNat n ↔ m < n := by
  rw [UInt8.lt_iff_toNat_lt, toNat_ofNat_of_lt hm, toNat_ofNat_of_lt hn]

theorem ofNat_eq_ofNat_iff {m : Nat} (hm : m < 256) (hn : n < 256) :
    UInt8.ofNat m = UInt8.ofNat n ↔ m = n := by
  rw [← UInt8.toNat_inj, toNat_ofNat_of_lt hm, toNat_ofNat_of_lt hn]

/-- The bytes of a character are smaller than those of a later one, whatever follows them. -/
theorem encodeChar_append_lt {d : Char} (h : c < d) (cs ds : List UInt8) :
    String.utf8EncodeChar c ++ cs < String.utf8EncodeChar d ++ ds := by
  have hlt : c.toNat < d.toNat := h
  have hc := char_range c
  have hd := char_range d
  -- the payloads of the bytes are digits to the base 64
  have hdiv {n : Nat} (hn : n < 0x110000) :
      n / 4096 = n / 64 / 64 ∧ n / 262144 % 8 = n / 64 / 64 / 64 := by omega
  obtain ⟨hc₂, hc₃⟩ := hdiv (n := c.toNat) (by omega)
  obtain ⟨hd₂, hd₃⟩ := hdiv (n := d.toNat) (by omega)
  rw [encodeChar_eq, encodeChar_eq, hc₂, hc₃, hd₂, hd₃]
  split_ifs
  all_goals
    simp (disch := omega) only [cons_append, nil_append, cons_lt_cons_iff,
      ofNat_lt_ofNat_iff, ofNat_eq_ofNat_iff]
    omega

/-- **Byte order is the order of characters.** -/
theorem encode_lt_encode {ds : List Char} (h : cs < ds) : encode cs < encode ds := by
  induction cs generalizing ds with
  | nil =>
    cases ds with
    | nil => exact absurd h (lt_irrefl _)
    | cons d ds =>
      obtain ⟨b, bs, hb, -⟩ := next_encodeChar d []
      rw [encode_cons, hb]
      exact nil_lt_cons _ _
  | cons c cs ih =>
    cases ds with
    | nil => exact absurd h (not_lt_nil _)
    | cons d ds =>
      rw [encode_cons, encode_cons]
      rcases cons_lt_cons_iff.1 h with hlt | ⟨rfl, hlt⟩
      · exact encodeChar_append_lt hlt _ _
      · exact append_left_lt (ih hlt)

end Steward.Utf8
