import Steward.Proofs.Comment
import Steward.Proofs.Utf8

/-!
# The grammar of the text before a comment

The bytes before a comment are tokens: string literals, character literals, and single bytes at
which neither a literal nor a comment starts. A byte may be part of a character, so a token need not
be a text. `Language.scan` looks for the comment byte by byte, and cuts the line at a single quote
to see if it opens a character literal. It finds what the grammar says, `Language.scan_of_tokens`
and `Language.exists_tokens_of_scan`. On a text it finds the same comment as the lexer of characters
and never cuts a character in two, `Language.follows`.
-/

namespace Steward.Language

open Text Utf8 List

/-! ## Grammar -/

/-- The byte of an ASCII character. -/
abbrev byte (c : Char) : UInt8 := UInt8.ofNat c.toNat

/-- A comment starts at the front: `#`, unless it is the `#[` of PHP, or `//`. -/
def Marker (l : Language) (bs : List UInt8) : Prop :=
  (l.commentSyntax.hash ∧ [byte '#'] <+: bs ∧ ¬ (l = php ∧ [byte '#', byte '['] <+: bs)) ∨
    (l.commentSyntax.slash ∧ [byte '/', byte '/'] <+: bs)

instance (l : Language) : DecidablePred l.Marker := fun _ ↦ inferInstanceAs (Decidable (_ ∨ _))

/-- The bytes that open a string literal. -/
def quoteBytes (l : Language) : List UInt8 := l.commentSyntax.quotes.map byte

/-- What a string literal holds: every `q` in it is hidden by a backslash. -/
inductive Body (q : UInt8) : List UInt8 → Prop
  | nil : Body q []
  | plain {b : UInt8} {bs : List UInt8} (hback : b ≠ byte '\\') (hq : b ≠ q) (h : Body q bs) :
    Body q (b :: bs)
  | escaped (b : UInt8) {bs : List UInt8} (h : Body q bs) : Body q (byte '\\' :: b :: bs)

/-- A character literal: one character in single quotes, or a backslash, an ASCII character and
everything up to the next single quote. -/
inductive CharLiteral : List Char → Prop
  | plain {c : Char} (hc : c ≠ '\\') : CharLiteral ['\'', c, '\'']
  | escaped {c : Char} {body : List Char} (hc : c.toNat < 0x80) (hbody : '\'' ∉ body) :
    CharLiteral ('\'' :: '\\' :: c :: (body ++ ['\'']))

/-- A token, given the bytes behind it. -/
inductive Token (l : Language) : List UInt8 → List UInt8 → Prop
  | string {q : UInt8} {body : List UInt8} (hq : q ∈ l.quoteBytes) (hbody : Body q body)
    (after : List UInt8) : Token l (q :: (body ++ [q])) after
  | literal {w : List Char} (hl : l.commentSyntax.charLiterals) (hw : CharLiteral w)
    (after : List UInt8) : Token l (encode w) after
  | other {b : UInt8} {after : List UInt8} (hquote : b ∉ l.quoteBytes)
    (hliteral : l.commentSyntax.charLiterals → ∀ w, CharLiteral w → ¬ encode w <+: b :: after)
    (hmarker : ¬ l.Marker (b :: after)) : Token l [b] after

/-- A sequence of tokens, given the bytes behind it. -/
inductive Tokens (l : Language) (after : List UInt8) : List UInt8 → Prop
  | nil : Tokens l after []
  | cons {token more : List UInt8} (h : Token l token (more ++ after))
    (hmore : Tokens l after more) : Tokens l after (token ++ more)

/-- A comment starts at byte `i`: there is a marker behind tokens of `i` bytes. -/
def CommentAt (l : Language) (bs : List UInt8) (i : Nat) : Prop :=
  ∃ before after, before ++ after = bs ∧ before.length = i ∧ Tokens l after before ∧ l.Marker after

/-! ## The loop over bytes -/

/-- The bytes of a character literal behind its opening quote, if there is one before `cs`. -/
def literalSize (cs : List Char) : Nat := (encode (cs.take ((charLiteralTail? cs).getD 0))).length

/-- Where a comment starts in the bytes from `i` on, with the byte that closes the string literal
under way. There is no answer if a character literal is looked for inside of a character. -/
def scan (l : Language) (i : Nat) : Option UInt8 → List UInt8 → Option (Option Nat)
  | _, [] => some none
  | some q, b :: bs =>
    if b = byte '\\' then scan l (i + 2) (some q) (bs.drop 1)
    else if b = q then scan l (i + 1) none bs
    else scan l (i + 1) (some q) bs
  | none, b :: bs =>
    if b = byte '\'' ∧ l.commentSyntax.charLiterals then
      (decode (b :: bs)).bind fun text ↦
        scan l (i + 1 + literalSize text.tail) none (bs.drop (literalSize text.tail))
    else if b ∈ l.quoteBytes then scan l (i + 1) (some b) bs
    else if l.Marker (b :: bs) then some (some i)
    else scan l (i + 1) none bs
termination_by _ bs => bs.length
decreasing_by all_goals simp; try omega

variable {l : Language} {b q : UInt8} {bs w body before after token : List UInt8} {i n : Nat}
variable {r : Option Nat} {c d : Char} {cs : List Char}

theorem Marker.head (h : l.Marker (b :: bs)) : b ∈ [byte '#', byte '/'] := by
  rcases h with ⟨-, h, -⟩ | ⟨-, h⟩
  all_goals
    rw [← (cons_prefix_cons.1 h).1]
    decide

theorem mem_quoteBytes (h : q ∈ l.quoteBytes) : q ∈ ['"', '\'', '\x60'].map byte := by
  obtain ⟨c, hc, rfl⟩ := mem_map.1 h
  exact mem_map_of_mem (mem_quotes hc)

theorem ne_backslash_of_mem (h : q ∈ l.quoteBytes) : q ≠ byte '\\' := by
  have hmem := mem_quoteBytes h
  fin_cases hmem <;> decide

theorem quote_notMem_quoteBytes (hl : l.commentSyntax.charLiterals) :
    byte '\'' ∉ l.quoteBytes := by
  revert hl
  cases l <;> decide

/-! ## Character literals -/

theorem encode_nil : encode [] = [] := rfl

theorem encode_quote_cons (cs : List Char) : encode ('\'' :: cs) = byte '\'' :: encode cs := rfl

theorem idxOf?_quote {cs : List Char} (h : '\'' ∉ cs) (more : List Char) :
    (cs ++ '\'' :: more).idxOf? '\'' = some cs.length := by
  have hnone : cs.findIdx? (· == '\'') = none := idxOf?_eq_none_iff.2 h
  simp [List.idxOf?, findIdx?_append, hnone, findIdx?_cons]

/-- A character literal is found from its opening quote. -/
theorem CharLiteral.tail?_eq {w : List Char} (hw : CharLiteral w) (h : w <+: '\'' :: cs) :
    charLiteralTail? cs = some (w.length - 1) := by
  obtain ⟨more, hmore⟩ := h
  cases hw with
  | @plain c hc =>
    obtain rfl : c :: '\'' :: more = cs := by simpa using hmore
    simp [charLiteralTail?_plain hc]
  | @escaped c body hc hbody =>
    obtain rfl : '\\' :: c :: (body ++ '\'' :: more) = cs := by simpa using hmore
    simp [charLiteralTail?_escape, hc, idxOf?_quote hbody]

theorem exists_charLiteral (h : charLiteralTail? cs = some n) :
    ∃ w, CharLiteral w ∧ w <+: '\'' :: cs := by
  rcases cs with _ | ⟨x, _ | ⟨y, rest⟩⟩
  · cases h
  · by_cases hx : x = '\\' <;> simp [charLiteralTail?, hx] at h
  · by_cases hx : x = '\\'
    · subst hx
      rw [charLiteralTail?_escape] at h
      split_ifs at h with hy
      have hmem : '\'' ∈ rest := by
        by_contra hnot
        rw [idxOf?_eq_none_iff.2 hnot] at h
        cases h
      obtain ⟨body, more, rfl, hbody⟩ := eq_append_cons_of_mem hmem
      exact ⟨_, .escaped hy hbody, more, by simp⟩
    · rw [charLiteralTail?_plain hx] at h
      split_ifs at h with hy
      subst hy
      exact ⟨_, .plain hx, rest, rfl⟩

theorem CharLiteral.exists_cons {w : List Char} (hw : CharLiteral w) : ∃ v, w = '\'' :: v := by
  cases hw <;> exact ⟨_, rfl⟩

theorem charLiteralTail?_eq_none (h : ∀ w, CharLiteral w → ¬ w <+: '\'' :: cs) :
    charLiteralTail? cs = none := by
  rw [Option.eq_none_iff_forall_ne_some]
  intro n hn
  obtain ⟨w, hw, hcs⟩ := exists_charLiteral hn
  exact h w hw hcs

/-! ## The loop over tokens -/

/-- A text that starts with a single quote is cut behind it or behind the literal it opens. -/
theorem scan_quote (hl : l.commentSyntax.charLiterals) :
    scan l i none (encode ('\'' :: cs)) =
      scan l (i + 1 + literalSize cs) none ((encode cs).drop (literalSize cs)) := by
  rw [encode_quote_cons, scan, if_pos ⟨rfl, hl⟩, ← encode_quote_cons, decode_encode]
  rfl

theorem scan_literal {v post : List Char} (hl : l.commentSyntax.charLiterals)
    (hv : CharLiteral ('\'' :: v)) : scan l i none (encode ('\'' :: v ++ post)) =
      scan l (i + (encode ('\'' :: v)).length) none (encode post) := by
  have hsize : literalSize (v ++ post) = (encode v).length := by
    have htail : charLiteralTail? (v ++ post) = _ := hv.tail?_eq (prefix_append _ post)
    simp [literalSize, htail]
  rw [cons_append, scan_quote hl, hsize, encode_append, drop_left, encode_quote_cons,
    length_cons, Nat.add_assoc, Nat.add_comm 1]

theorem scan_no_literal (hl : l.commentSyntax.charLiterals)
    (h : ∀ w, CharLiteral w → ¬ w <+: '\'' :: cs) :
    scan l i none (encode ('\'' :: cs)) = scan l (i + 1) none (encode cs) := by
  have hsize : literalSize cs = 0 := by simp [literalSize, charLiteralTail?_eq_none h, encode]
  rw [scan_quote hl, hsize, drop_zero, Nat.add_zero]

/-- Where there is an answer, a single quote is followed by a text. -/
theorem exists_encode_of_scan (hl : l.commentSyntax.charLiterals)
    (h : scan l i none (byte '\'' :: bs) = some r) : ∃ cs, bs = encode cs := by
  rw [scan, if_pos ⟨rfl, hl⟩] at h
  obtain ⟨text, htext, -⟩ := Option.bind_eq_some_iff.1 h
  have hencode := eq_encode_of_decode htext
  obtain ⟨cs, rfl⟩ := (@encode_isPrefix_iff ['\''] text).1 ⟨bs, hencode⟩
  exact ⟨cs, (List.cons.inj hencode).2⟩

theorem scan_string (hq : q ∈ l.quoteBytes) :
    scan l i none (q :: bs) = scan l (i + 1) (some q) bs := by
  have hnot : ¬ (q = byte '\'' ∧ l.commentSyntax.charLiterals) := by
    rintro ⟨rfl, hl⟩
    exact quote_notMem_quoteBytes hl hq
  rw [scan, if_neg hnot, if_pos hq]

theorem Body.scan_eq (hbody : Body q body) (hq : q ≠ byte '\\') :
    scan l i (some q) (body ++ q :: after) = scan l (i + (body.length + 1)) none after := by
  induction hbody generalizing i with
  | nil => rw [nil_append, scan, if_neg hq, if_pos rfl]; rfl
  | plain hback hne _ ih =>
    rw [cons_append, scan, if_neg hback, if_neg hne, ih, length_cons, Nat.add_assoc,
      Nat.add_comm 1]
  | escaped b _ ih =>
    rw [cons_append, scan, if_pos rfl, cons_append, drop_one, tail_cons, ih]
    congr 1
    simp; omega

/-- A string literal is closed, or the line ends in it. -/
theorem exists_body_or_open (q : UInt8) (bs : List UInt8) :
    (∃ body after, body ++ q :: after = bs ∧ Body q body) ∨
      ∀ (l : Language) (i : Nat), scan l i (some q) bs = some none := by
  induction hlength : bs.length using Nat.strong_induction_on generalizing bs with
  | _ m ih =>
    subst hlength
    cases bs with
    | nil => exact .inr fun l i ↦ by rw [scan]
    | cons b bs =>
      by_cases hback : b = byte '\\'
      · have hdrop : (bs.drop 1).length < (b :: bs).length := by simp
        obtain ⟨body, after, hbs, hbody⟩ | hopen := ih _ hdrop _ rfl
        · cases bs with
          | nil => simp at hbs
          | cons d bs => exact .inl ⟨_, after, by simp at hbs; simp [hback, ← hbs], hbody.escaped d⟩
        · exact .inr fun l i ↦ by rw [scan, if_pos hback, hopen]
      · by_cases hq : b = q
        · exact .inl ⟨[], bs, by rw [hq]; rfl, .nil⟩
        · obtain ⟨body, after, rfl, hbody⟩ | hopen := ih bs.length (by simp) bs rfl
          · exact .inl ⟨_, after, rfl, hbody.plain hback hq⟩
          · exact .inr fun l i ↦ by rw [scan, if_neg hback, if_neg hq, hopen]

/-- The loop passes over a token. -/
theorem Token.scan_eq (ht : Token l token after) (h : scan l i none (token ++ after) = some r) :
    scan l (i + token.length) none after = some r := by
  cases ht with
  | @string q body hq hbody =>
    rw [cons_append, append_assoc, scan_string hq, singleton_append,
      hbody.scan_eq (ne_backslash_of_mem hq)] at h
    rw [← h]
    congr 1
    simp; omega
  | @literal w hl hw =>
    obtain ⟨v, rfl⟩ := hw.exists_cons
    obtain ⟨cs, hcs⟩ := exists_encode_of_scan hl h
    obtain ⟨post, rfl⟩ : v <+: cs := encode_isPrefix_iff.1 ⟨after, hcs⟩
    obtain rfl : after = encode post := append_cancel_left (hcs.trans (encode_append v post))
    rwa [← encode_append, scan_literal hl hw] at h
  | @other b _ hquote hliteral hmarker =>
    by_cases hb : b = byte '\'' ∧ l.commentSyntax.charLiterals
    · obtain ⟨rfl, hl⟩ := hb
      obtain ⟨cs, rfl⟩ := exists_encode_of_scan hl h
      have hnot : ∀ w, CharLiteral w → ¬ w <+: '\'' :: cs := fun w hw hcs ↦
        hliteral hl w hw (encode_isPrefix_iff.2 hcs)
      rwa [singleton_append, ← encode_quote_cons, scan_no_literal hl hnot] at h
    · rwa [singleton_append, scan, if_neg hb, if_neg hquote, if_neg hmarker] at h

/-- A marker, a token or a string literal that is left open comes next. -/
theorem exists_token (l : Language) (b : UInt8) (bs : List UInt8) : l.Marker (b :: bs) ∨
    (∃ token after, token ++ after = b :: bs ∧ after.length < (b :: bs).length ∧
      Token l token after) ∨ ∀ i, scan l i none (b :: bs) = some none := by
  by_cases hquote : b ∈ l.quoteBytes
  · obtain ⟨body, after, rfl, hbody⟩ | hopen := exists_body_or_open b bs
    · exact .inr (.inl ⟨_, after, by simp, by simp; omega, .string hquote hbody after⟩)
    · exact .inr (.inr fun i ↦ by rw [scan_string hquote, hopen])
  · by_cases hmarker : l.Marker (b :: bs)
    · exact .inl hmarker
    · refine .inr (.inl ?_)
      by_cases hliteral : l.commentSyntax.charLiterals ∧ ∃ w, CharLiteral w ∧ encode w <+: b :: bs
      · obtain ⟨hl, w, hw, after, hafter⟩ := hliteral
        obtain ⟨v, rfl⟩ := hw.exists_cons
        refine ⟨_, after, hafter, ?_, .literal hl hw after⟩
        rw [← hafter, encode_quote_cons]
        simp
      · refine ⟨[b], bs, rfl, by simp, .other hquote ?_ hmarker⟩
        exact fun hl w hw h ↦ hliteral ⟨hl, w, hw, h⟩

theorem scan_marker (h : l.Marker bs) : scan l i none bs = some (some i) := by
  cases bs with
  | nil => rcases h with ⟨-, h, -⟩ | ⟨-, h⟩ <;> simp at h
  | cons b bs =>
    have hhead := h.head
    have hb : b ≠ byte '\'' := by fin_cases hhead <;> decide
    have hquote : b ∉ l.quoteBytes := by fin_cases hhead <;> cases l <;> decide
    rw [scan, if_neg fun h ↦ hb h.1, if_neg hquote, if_pos h]

/-- The loop stops at the marker behind any tokens. -/
theorem scan_of_tokens (ht : Tokens l after before) (hmarker : l.Marker after)
    (h : scan l i none (before ++ after) = some r) : r = some (i + before.length) := by
  induction ht generalizing i with
  | nil =>
    rw [nil_append, scan_marker hmarker] at h
    exact (Option.some.inj h).symm
  | cons ht _ ih =>
    rw [append_assoc] at h
    rw [ih (ht.scan_eq h), length_append, Nat.add_assoc]

/-- The loop stops only at a marker behind tokens. -/
theorem exists_tokens_of_scan (h : scan l i none bs = some (some n)) : ∃ before after,
    before ++ after = bs ∧ i + before.length = n ∧ Tokens l after before ∧ l.Marker after := by
  induction hlength : bs.length using Nat.strong_induction_on generalizing i bs with
  | _ m ih =>
    subst hlength
    cases bs with
    | nil => simp [scan] at h
    | cons b bs =>
      obtain hmarker | ⟨token, rest, hrest, hlt, ht⟩ | hopen := exists_token l b bs
      · rw [scan_marker hmarker] at h
        exact ⟨[], b :: bs, rfl, Option.some.inj (Option.some.inj h), .nil, hmarker⟩
      · rw [← hrest] at h ⊢
        obtain ⟨before, after, rfl, rfl, hbefore, hmarker⟩ := ih _ hlt (ht.scan_eq h) rfl
        refine ⟨token ++ before, after, append_assoc .., ?_, hbefore.cons ht, hmarker⟩
        rw [length_append, Nat.add_assoc]
      · rw [hopen] at h
        cases h

theorem commentAt_iff_of_scan (h : scan l 0 none bs = some r) : CommentAt l bs n ↔ r = some n := by
  constructor
  · rintro ⟨before, after, rfl, rfl, ht, hmarker⟩
    rw [scan_of_tokens ht hmarker h, Nat.zero_add]
  · rintro rfl
    obtain ⟨before, after, hbs, hn, ht, hmarker⟩ := exists_tokens_of_scan h
    exact ⟨before, after, hbs, by omega, ht, hmarker⟩

/-! ## The loop on a text -/

theorem encodeChar_of_lt (h : c.toNat < 0x80) : String.utf8EncodeChar c = [byte c] := by
  rw [encodeChar_eq, if_pos (by omega)]

/-- Behind its first byte, and in all of it if it is no ASCII character, the bytes of a character
are no ASCII. -/
theorem exists_encodeChar (c : Char) : ∃ b bs, String.utf8EncodeChar c = b :: bs ∧
    (∀ x ∈ bs, 0x80 ≤ x.toNat) ∧ (0x80 ≤ c.toNat → 0x80 ≤ b.toNat) := by
  rw [encodeChar_eq]
  split_ifs with h₁ h₂ h₃
  · exact ⟨_, _, rfl, by simp, by omega⟩
  all_goals
    refine ⟨_, _, rfl, by simp; omega, fun _ ↦ ?_⟩
    rw [toNat_ofNat_of_lt (by omega)]
    omega

theorem byte_eq_iff (hc : c.toNat < 0x80) (hd : d.toNat < 0x80) : byte c = byte d ↔ c = d := by
  rw [ofNat_eq_ofNat_iff (by omega) (by omega), Char.toNat_inj]

theorem lt_of_mem_quotes (h : c ∈ ['"', '\'', '\x60']) : c.toNat < 0x80 := by
  fin_cases h <;> decide

theorem length_encode_snoc (hc : c.toNat < 0x80) (pre : List Char) :
    (encode (pre ++ [c])).length = (encode pre).length + 1 := by
  simp [encode, encodeChar_of_lt hc]

theorem byte_mem_quoteBytes (hc : c.toNat < 0x80) :
    byte c ∈ l.quoteBytes ↔ c ∈ l.commentSyntax.quotes := by
  rw [quoteBytes, mem_map]
  constructor
  · rintro ⟨q, hq, h⟩
    rwa [← (byte_eq_iff (lt_of_mem_quotes (mem_quotes hq)) hc).1 h]
  · intro h
    exact ⟨c, h, rfl⟩

theorem marker_encode_iff : l.Marker (encode (c :: cs)) ↔ l.opensComment c cs := by
  have hfront (w : List Char) : encode w <+: encode (c :: cs) ↔ w <+: c :: cs := encode_isPrefix_iff
  have hone := hfront ['#']
  have htwo := hfront ['#', '[']
  have hslash := hfront ['/', '/']
  have hhead (x : Char) : [x] <+: cs ↔ cs.head? = some x := by cases cs <;> simp [eq_comm]
  simp only [cons_prefix_cons, hhead, nil_prefix, and_true] at hone htwo hslash
  change _ ∧ encode ['#'] <+: _ ∧ ¬ (_ ∧ encode ['#', '['] <+: _) ∨ _ ∧ encode ['/', '/'] <+: _ ↔ _
  rw [hone, htwo, hslash]
  simp [opensComment]
  grind

theorem scan_append_high {quote : Option UInt8} (hw : ∀ b ∈ w, 0x80 ≤ b.toNat)
    (hquote : ∀ q ∈ quote, q.toNat < 0x80) :
    scan l i quote (w ++ bs) = scan l (i + w.length) quote bs := by
  induction w generalizing i with
  | nil => rfl
  | cons b w ih =>
    obtain ⟨hb, hw⟩ := forall_mem_cons.1 hw
    have hne {x : UInt8} (hx : x.toNat < 0x80) : b ≠ x := by
      rintro rfl
      omega
    have hstep : scan l i quote (b :: (w ++ bs)) = scan l (i + 1) quote (w ++ bs) := by
      cases quote with
      | none =>
        have hquotes : b ∉ l.quoteBytes := by
          intro h
          have hmem := mem_quoteBytes h
          fin_cases hmem <;> exact hne (by decide) rfl
        have hmarker : ¬ l.Marker (b :: (w ++ bs)) := by
          intro h
          have hmem := h.head
          fin_cases hmem <;> exact hne (by decide) rfl
        rw [scan, if_neg fun h ↦ hne (by decide) h.1, if_neg hquotes, if_neg hmarker]
      | some q => rw [scan, if_neg (hne (by decide)), if_neg (hne (hquote q rfl))]
    rw [cons_append, hstep, ih hw, length_cons, Nat.add_assoc, Nat.add_comm 1]

theorem byteOffset_eq (line : Line) (k : Nat) :
    byteOffset line k = (encode (line.take k)).length := by
  rw [byteOffset, encode, length_flatMap]
  simp only [String.length_utf8EncodeChar, sum_eq_foldl, foldl_map]

/-- The loop finds what the lexer finds in the text `cs` behind any other, in code and in a string
literal. -/
structure Follows (l : Language) (cs : List Char) : Prop where
  code : ∀ pre, l.scan (encode pre).length none (encode cs) =
    some ((l.commentFrom pre.length (.code 0) cs).map (byteOffset (pre ++ cs)))
  quoted : ∀ pre, ∀ q ∈ ['"', '\'', '\x60'],
    l.scan (encode pre).length (some (byte q)) (encode cs) =
      some ((l.commentFrom pre.length (.quoted q) cs).map (byteOffset (pre ++ cs)))

theorem neutral_of_high (hc : ¬ c.toNat < 0x80) : ∀ x ∈ [c], Neutral x := by
  intro x hx hmem
  rw [mem_singleton.1 hx] at hmem
  fin_cases hmem <;> exact hc (by decide)

/-- Bytes of a character that is no ASCII are passed over. -/
theorem scan_high {quote : Option UInt8} (hc : ¬ c.toNat < 0x80)
    (hquote : ∀ q ∈ quote, q.toNat < 0x80) (pre : List Char) :
    l.scan (encode pre).length quote (encode (c :: cs)) =
      l.scan (encode (pre ++ [c])).length quote (encode cs) := by
  obtain ⟨b, w, hb, hw, hhigh⟩ := exists_encodeChar c
  have hall : ∀ x ∈ String.utf8EncodeChar c, 0x80 ≤ x.toNat := by
    rw [hb]
    exact forall_mem_cons.2 ⟨hhigh (Nat.le_of_not_lt hc), hw⟩
  rw [encode_cons, scan_append_high hall hquote]
  simp [encode]

theorem Follows.code_cons (ih : ∀ post, post <:+ cs → Follows l post) (pre : List Char) :
    l.scan (encode pre).length none (encode (c :: cs)) =
      some ((l.commentFrom pre.length (.code 0) (c :: cs)).map (byteOffset (pre ++ c :: cs))) := by
  have hfollows := ih cs suffix_rfl
  have hcode := hfollows.code (pre ++ [c])
  have hquoted := hfollows.quoted (pre ++ [c]) c
  rw [append_assoc, singleton_append, length_append] at hcode hquoted
  by_cases hc : c.toNat < 0x80
  · rw [length_encode_snoc hc] at hcode hquoted
    rw [commentFrom]
    by_cases hquote : c = '\'' ∧ l.commentSyntax.charLiterals
    · obtain ⟨rfl, hl⟩ := hquote
      rw [if_pos (by simp [hl])]
      by_cases hliteral : ∃ w, CharLiteral w ∧ w <+: '\'' :: cs
      · obtain ⟨w, hw, post, hpost⟩ := hliteral
        obtain ⟨v, rfl⟩ := hw.exists_cons
        obtain rfl : v ++ post = cs := (List.cons.inj hpost).2
        have hpre := (ih post (suffix_append v post)).code (pre ++ '\'' :: v)
        have htail : charLiteralTail? (v ++ post) = some (v.length + 0) :=
          hw.tail?_eq (prefix_append _ post)
        rw [encode_append, length_append] at hpre
        rw [← cons_append, scan_literal hl hw, hpre, htail, Option.getD_some, commentFrom_skip,
          append_assoc, length_append, length_cons, Nat.add_assoc, Nat.add_comm 1]
      · have hnot : ∀ w, CharLiteral w → ¬ w <+: '\'' :: cs := fun w hw h ↦ hliteral ⟨w, hw, h⟩
        rw [scan_no_literal hl hnot, charLiteralTail?_eq_none hnot]
        exact hcode
    · have hmarker := @marker_encode_iff l c cs
      rw [encode_cons, encodeChar_of_lt hc, singleton_append] at hmarker ⊢
      rw [scan]
      simp only [byte_eq_iff hc (show '\''.toNat < 0x80 by decide), byte_mem_quoteBytes hc, hmarker,
        Bool.and_eq_true, decide_eq_true_eq, contains_eq_mem, if_neg hquote]
      split_ifs with hmem hopens
      · exact hquoted (mem_quotes hmem)
      · simp [byteOffset_eq]
      · exact hcode
  · have hlex : l.commentFrom pre.length (.code 0) (c :: cs) = _ :=
      commentFrom_code (neutral_of_high hc) cs
    rw [scan_high hc (by simp), hcode, hlex]

theorem Follows.quoted_cons {q : Char} (hq : q ∈ ['"', '\'', '\x60'])
    (ih : ∀ post, post <:+ cs → Follows l post) (pre : List Char) :
    l.scan (encode pre).length (some (byte q)) (encode (c :: cs)) = some
      ((l.commentFrom pre.length (.quoted q) (c :: cs)).map (byteOffset (pre ++ c :: cs))) := by
  have hfollows := ih cs suffix_rfl
  have hcode := hfollows.code (pre ++ [c])
  have hquoted := hfollows.quoted (pre ++ [c]) q hq
  rw [append_assoc, singleton_append, length_append] at hcode hquoted
  have hqlow := lt_of_mem_quotes hq
  have hlow : ∀ x ∈ some (byte q), x.toNat < 0x80 := by
    rintro _ ⟨⟩
    rwa [toNat_ofNat_of_lt (by omega)]
  by_cases hc : c.toNat < 0x80
  · rw [length_encode_snoc hc] at hcode hquoted
    rw [encode_cons, encodeChar_of_lt hc, singleton_append, scan, commentFrom]
    simp only [byte_eq_iff hc (show '\\'.toNat < 0x80 by decide), byte_eq_iff hc hqlow]
    split_ifs with hback hclose
    · subst hback
      cases cs with
      | nil =>
        rw [encode_nil, drop_nil, scan]
        rfl
      | cons d cs =>
        obtain ⟨b, w, hb, hw, -⟩ := exists_encodeChar d
        have hpre := (ih cs (suffix_cons d cs)).quoted (pre ++ ['\\', d]) q hq
        have hsize : (encode (pre ++ ['\\', d])).length = (encode pre).length + 2 + w.length := by
          simp [encode, hb, show '\\'.utf8Size = 1 from rfl]; omega
        rw [hsize, append_assoc, length_append] at hpre
        rw [encode_cons, hb, cons_append, drop_one, tail_cons,
          scan_append_high hw hlow, hpre]
        rfl
    · exact hcode
    · exact hquoted
  · have hlex : l.commentFrom pre.length (.quoted q) (c :: cs) = _ :=
      commentFrom_quoted hq (neutral_of_high hc) cs
    rw [scan_high hc hlow, hquoted, hlex]

theorem follows (l : Language) (cs : List Char) : Follows l cs := by
  induction hlength : cs.length using Nat.strong_induction_on generalizing cs with
  | _ m ih =>
    subst hlength
    cases cs with
    | nil => constructor <;> intros <;> rw [encode_nil, scan] <;> rfl
    | cons c cs =>
      have hfollows : ∀ post, post <:+ cs → Follows l post := fun post hpost ↦
        ih post.length (Nat.lt_succ_of_le hpost.length_le) post rfl
      exact ⟨Follows.code_cons hfollows, fun pre q hq ↦ Follows.quoted_cons hq hfollows pre⟩

/-- **The comment lexer accepts exactly its token grammar.** For every language and line, the loop
over bytes gives an answer, so it never cuts a character in two, and the answer is the byte at which
the lexer of characters finds the comment. A comment is found at byte `i` exactly if a marker stands
there behind a sequence of tokens. There is at most one such byte, it is the first of a character,
and if there is none then no comment is found. -/
theorem commentStart_iff_tokens (l : Language) (line : Line) :
    l.scan 0 none (encode line) = some ((l.commentStart line).map (byteOffset line)) ∧
      (∀ i, (l.commentStart line).map (byteOffset line) = some i ↔ CommentAt l (encode line) i) ∧
      (∀ i j, CommentAt l (encode line) i → CommentAt l (encode line) j → i = j) ∧
      (∀ i, CommentAt l (encode line) i →
        ∃ pre post, pre ++ post = line ∧ (encode pre).length = i) ∧
      (l.commentStart line = none ↔ ∀ i, ¬ CommentAt l (encode line) i) := by
  have hscan : l.scan 0 none (encode line) = some ((l.commentStart line).map (byteOffset line)) :=
    (follows l line).code []
  have hiff (i : Nat) := @commentAt_iff_of_scan l _ i _ hscan
  refine ⟨hscan, fun i ↦ (hiff i).symm, ?_, ?_, ?_⟩
  · intro i j hi hj
    rw [hiff] at hi hj
    exact Option.some.inj (hi.symm.trans hj)
  · intro i hi
    obtain ⟨k, -, rfl⟩ := Option.map_eq_some_iff.1 ((hiff i).1 hi)
    exact ⟨line.take k, line.drop k, List.take_append_drop k line, (byteOffset_eq line k).symm⟩
  · simp only [hiff]
    rw [← Option.eq_none_iff_forall_ne_some, Option.map_eq_none_iff]

/-- A quote in a character literal opens no string, and `//` in a string that holds an escaped
quote, with characters of two bytes around it, starts no comment. -/
theorem commentStart_iff_tokens_quoted :
    CommentAt rust (encode "'\"' \"é\\é\\\"//\" 'a // é".toList) 19 :=
  ((commentStart_iff_tokens rust "'\"' \"é\\é\\\"//\" 'a // é".toList).2.1 19).1 (by decide)

end Steward.Language
