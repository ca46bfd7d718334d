import Mathlib
import Steward.Language
import Steward.Text.Blank

/-!
# Comments in lines that change

Where the comment of a line starts, after a part of the line was replaced. A part without quotes,
backslashes and comment marks is passed over whatever the state of the lexer is. So the comment
starts at the same place if that is before the part, and as far behind the part otherwise:
`Language.shifted_commentStart`. If it starts before the part, it does so whatever the part becomes,
`Language.commentStart_of_before`.
-/

namespace Steward

open Text (Line)
open List

namespace Language

/-- A character that neither opens nor closes a literal and belongs to no comment mark. -/
def Neutral (c : Char) : Prop := c ∉ ['"', '\'', '\x60', '\\', '#', '/']

instance : DecidablePred Neutral := fun _ ↦ inferInstanceAs (Decidable (_ ∉ _))

/-- A part of a line that is passed over as a whole and makes no difference to the character before
it. One character alone might stand between two single quotes. -/
structure Part (w : List Char) : Prop where
  neutral : ∀ c ∈ w, Neutral c
  long : 2 ≤ w.length
  head : ∀ c ∈ w.head?, c ≠ '['

/-- The first character may come after a backslash in a character literal. -/
def Ascii (w : List Char) : Prop := ∀ c ∈ w.head?, c.toNat < 0x80

theorem head?_all_iff {w : List Char} {p : Char → Bool} : w.head?.all p ↔ ∀ c ∈ w.head?, p c := by
  cases w <;> simp

instance (w : List Char) : Decidable (Part w) :=
  decidable_of_iff (w.all (decide <| Neutral ·) ∧ 2 ≤ w.length ∧ w.head?.all (· ≠ '['))
    ⟨fun h ↦ ⟨by simpa using h.1, h.2.1, by simpa using head?_all_iff.1 h.2.2⟩,
      fun h ↦ ⟨by simpa using h.neutral, h.long, head?_all_iff.2 (by simpa using h.head)⟩⟩

instance (w : List Char) : Decidable (Ascii w) :=
  decidable_of_iff (w.head?.all (·.toNat < 0x80)) (by simp [Ascii, head?_all_iff])

variable {l : Language} {pre w w' post : List Char} {c : Char} {index i : Nat} {st st' : LexState}
variable {q : Char} {cs : List Char}

theorem Part.ne_nil (hw : Part w) : w ≠ [] := by
  rintro rfl
  exact absurd hw.long (by decide)

theorem neutral_of_isBlank (hc : Text.isBlank c) : Neutral c := by
  intro hmem
  fin_cases hmem <;> exact absurd hc (by decide)

theorem mem_quotes (h : q ∈ l.commentSyntax.quotes) : q ∈ ['"', '\'', '\x60'] := by
  cases l <;> simp_all [commentSyntax]

/-- Quotes are no neutral characters. -/
theorem Neutral.ne_of_mem (hc : Neutral c) (hq : q ∈ ['"', '\'', '\x60', '\\', '#', '/']) :
    c ≠ q := by
  rintro rfl
  exact hc hq

theorem Neutral.not_opensComment (hc : Neutral c) (rest : List Char) :
    l.opensComment c rest = false := by
  simp [opensComment, hc.ne_of_mem (q := '#') (by decide), hc.ne_of_mem (q := '/') (by decide)]

theorem Neutral.not_mem_quotes (hc : Neutral c) : c ∉ l.commentSyntax.quotes := fun h ↦
  hc (mem_append_left ['\\', '#', '/'] (mem_quotes h))

/-! ## Passing over a part -/

/-- Counting may start anywhere. -/
theorem commentFrom_eq_map (l : Language) (index : Nat) (st : LexState) (cs : List Char) :
    l.commentFrom index st cs = (l.commentFrom 0 st cs).map (index + ·) := by
  induction cs generalizing index st with
  | nil => cases st <;> rfl
  | cons c cs ih =>
    have hnext (st : LexState) : l.commentFrom (index + 1) st cs =
        (l.commentFrom 1 st cs).map (index + ·) := by
      rw [ih (index + 1), ih 1, Option.map_map]
      exact congrFun (congrArg Option.map (funext fun i ↦ by simp; omega)) _
    cases st with
    | code n =>
      cases n with
      | zero =>
        simp only [commentFrom, hnext]
        split_ifs <;> simp
      | succ n => simpa only [commentFrom] using hnext _
    | quoted q =>
      simp only [commentFrom, hnext]
      split_ifs <;> rfl
    | escaped q => simpa only [commentFrom] using hnext _

theorem le_of_commentFrom (h : l.commentFrom index st cs = some i) : index ≤ i := by
  rw [commentFrom_eq_map] at h
  obtain ⟨j, -, rfl⟩ := Option.map_eq_some_iff.1 h
  exact Nat.le_add_right index j

theorem commentFrom_skip (w post : List Char) (k : Nat) :
    l.commentFrom index (.code (w.length + k)) (w ++ post) =
      l.commentFrom (index + w.length) (.code k) post := by
  induction w generalizing index with
  | nil => simp
  | cons c w ih =>
    have hlen : (c :: w).length + k = (w.length + k) + 1 := by simp; omega
    rw [hlen, cons_append, commentFrom, ih]
    congr 1
    simp; omega

/-- While characters are passed over, no comment starts. -/
theorem le_of_commentFrom_code {n : Nat} (h : l.commentFrom index (.code n) cs = some i) :
    index + n ≤ i := by
  induction cs generalizing index n with
  | nil => cases h
  | cons c cs ih =>
    cases n with
    | zero => exact le_of_commentFrom h
    | succ n =>
      have hle := ih h
      omega

theorem commentFrom_code (hw : ∀ c ∈ w, Neutral c) (post : List Char) :
    l.commentFrom index (.code 0) (w ++ post) =
      l.commentFrom (index + w.length) (.code 0) post := by
  induction w generalizing index with
  | nil => simp
  | cons c w ih =>
    have hc := hw c mem_cons_self
    have hrest := @ih (index + 1) fun x hx ↦ hw x (mem_cons_of_mem _ hx)
    have hchar : c ≠ '\'' := hc.ne_of_mem (by decide)
    simp only [cons_append, commentFrom, hchar, hc.not_opensComment, contains_eq_mem,
      hc.not_mem_quotes, decide_false, Bool.false_and, Bool.false_eq_true, if_false, hrest]
    congr 1
    simp; omega

theorem commentFrom_quoted (hq : q ∈ ['"', '\'', '\x60']) (hw : ∀ c ∈ w, Neutral c)
    (post : List Char) :
    l.commentFrom index (.quoted q) (w ++ post) =
      l.commentFrom (index + w.length) (.quoted q) post := by
  induction w generalizing index with
  | nil => simp
  | cons c w ih =>
    have hc := hw c mem_cons_self
    have hrest := @ih (index + 1) fun x hx ↦ hw x (mem_cons_of_mem _ hx)
    have hback : c ≠ '\\' := hc.ne_of_mem (by decide)
    have hclose : c ≠ q := hc.ne_of_mem (mem_append_left ['\\', '#', '/'] hq)
    simp only [cons_append, commentFrom, if_neg hback, if_neg hclose, hrest]
    congr 1
    simp; omega

/-! ## Two lines that differ in a part -/

/-- Where a comment starts in two lines that have parts of lengths `b` and `b'` at the index `a`, and
are the same otherwise. -/
inductive Shifted (a b b' : Nat) : Option Nat → Option Nat → Prop where
  | none : Shifted a b b' none none
  | before {i : Nat} (h : i < a) : Shifted a b b' (some i) (some i)
  | behind (k : Nat) : Shifted a b b' (some (a + b + k)) (some (a + b' + k))

theorem Shifted.eq_of_before {a b b' : Nat} {o : Option Nat} (h : Shifted a b b' (some i) o)
    (hi : i < a) : o = some i := by
  generalize hs : some i = s at h
  cases h with
  | none => cases hs
  | before => rfl
  | behind k =>
    cases hs
    omega

theorem shifted_of_same (a b b' : Nat) (st : LexState) (cs : List Char) :
    Shifted a b b' (l.commentFrom (a + b) st cs) (l.commentFrom (a + b') st cs) := by
  rw [commentFrom_eq_map l (a + b), commentFrom_eq_map l (a + b')]
  cases l.commentFrom 0 st cs with
  | none => exact .none
  | some k => exact .behind k

/-- States of the lexer `n` characters before parts of lengths `b` and `b'`: they are the same, and
if characters are passed over then they end before the parts, or both go on behind the parts. -/
inductive Sync (n b b' : Nat) : LexState → LexState → Prop where
  | code {k : Nat} (h : k ≤ n) : Sync n b b' (.code k) (.code k)
  | quoted {q : Char} (hq : q ∈ ['"', '\'', '\x60']) : Sync n b b' (.quoted q) (.quoted q)
  | escaped {q : Char} (hq : q ∈ ['"', '\'', '\x60']) : Sync n b b' (.escaped q) (.escaped q)
  | beyond (k : Nat) : Sync n b b' (.code (n + b + k)) (.code (n + b' + k))

theorem Part.exists_cons (hw : Part w) : ∃ x y ws, w = x :: y :: ws ∧ Neutral x ∧ Neutral y := by
  obtain ⟨x, w, rfl⟩ := exists_cons_of_length_pos (Nat.zero_lt_two.trans_le hw.long)
  obtain ⟨y, w, rfl⟩ := exists_cons_of_length_pos (Nat.le_of_succ_le_succ hw.long)
  exact ⟨x, y, w, rfl, hw.neutral x (by simp), hw.neutral y (by simp)⟩

theorem shifted_of_sync (hw : Part w) (hw' : Part w') (h : Sync 0 w.length w'.length st st') :
    Shifted index w.length w'.length (l.commentFrom index st (w ++ post))
      (l.commentFrom index st' (w' ++ post)) := by
  cases h with
  | code h =>
    rw [Nat.le_zero.1 h, commentFrom_code hw.neutral, commentFrom_code hw'.neutral]
    exact shifted_of_same ..
  | quoted hq =>
    rw [commentFrom_quoted hq hw.neutral, commentFrom_quoted hq hw'.neutral]
    exact shifted_of_same ..
  | @escaped q hq =>
    have hpast {v : List Char} (hv : Part v) : l.commentFrom index (.escaped q) (v ++ post) =
        l.commentFrom (index + v.length) (.quoted q) post := by
      obtain ⟨x, y, vs, rfl, -⟩ := hv.exists_cons
      rw [cons_append, commentFrom,
        commentFrom_quoted hq fun c hc ↦ hv.neutral c (mem_cons_of_mem _ hc)]
      congr 1
      simp; omega
    rw [hpast hw, hpast hw']
    exact shifted_of_same ..
  | beyond k =>
    rw [Nat.zero_add, Nat.zero_add, commentFrom_skip, commentFrom_skip]
    exact shifted_of_same ..

theorem quote_notMem (hw : ∀ c ∈ w, Neutral c) : '\'' ∉ w := fun h ↦ hw _ h (by decide)

theorem idxOf?_append_quote (hw : ∀ c ∈ w, Neutral c) (r : List Char) :
    (r ++ (w ++ post)).idxOf? '\'' =
      (r.idxOf? '\'').or ((post.idxOf? '\'').map (· + w.length + r.length)) := by
  have hnone : w.findIdx? (· == '\'') = none := idxOf?_eq_none_iff.2 (quote_notMem hw)
  rw [List.idxOf?, findIdx?_append, findIdx?_append, hnone, Option.none_or,
    Option.map_map]
  rfl

theorem charLiteralTail?_escape (c : Char) (rest : List Char) : charLiteralTail? ('\\' :: c :: rest) =
    if c.toNat < 0x80 then (rest.idxOf? '\'').map (· + 3) else none := rfl

theorem charLiteralTail?_plain {x : Char} (hx : x ≠ '\\') (y : Char) (rest : List Char) :
    charLiteralTail? (x :: y :: rest) = if y = '\'' then some 2 else none := by
  by_cases hy : y = '\'' <;> simp [charLiteralTail?, hx, hy]

/-- How many characters after a single quote, and `r` behind it, belong to a character literal. -/
abbrev literalEnd (r v post : List Char) : Nat := (charLiteralTail? (r ++ (v ++ post))).getD 0

/-- A character literal ends before a part, whatever the part is, or as far behind it. -/
theorem literalEnd_cases (r post : List Char) :
    (∃ n ≤ r.length, ∀ v, Part v → literalEnd r v post = n) ∨
      ∃ k, ∀ v, Part v → Ascii v → literalEnd r v post = r.length + v.length + k := by
  rcases r with _ | ⟨a, _ | ⟨b, r⟩⟩
  · refine .inl ⟨0, Nat.zero_le _, fun v hv ↦ ?_⟩
    obtain ⟨x, y, vs, rfl, hx, hy⟩ := hv.exists_cons
    simp only [literalEnd, nil_append, cons_append]
    rw [charLiteralTail?_plain (hx.ne_of_mem (by decide)), if_neg (hy.ne_of_mem (by decide))]
    rfl
  · by_cases ha : a = '\\'
    · subst ha
      have htail {v : List Char} (hv : Part v) : ∃ x ∈ v.head?,
          literalEnd ['\\'] v post = if x.toNat < 0x80 then
            ((post.idxOf? '\'').map fun k ↦ 1 + v.length + (k + 1)).getD 0 else 0 := by
        obtain ⟨x, y, vs, rfl, -, -⟩ := hv.exists_cons
        have hrest := @idxOf?_append_quote (y :: vs) post
          (fun c hc ↦ hv.neutral c (mem_cons_of_mem _ hc)) []
        refine ⟨x, rfl, ?_⟩
        simp only [literalEnd, nil_append, cons_append] at hrest ⊢
        rw [charLiteralTail?_escape, hrest]
        split_ifs
        · cases post.idxOf? '\'' with
          | none => rfl
          | some k => simp [List.idxOf?]; omega
        · rfl
      cases hpost : post.idxOf? '\'' with
      | none =>
        refine .inl ⟨0, Nat.zero_le _, fun v hv ↦ ?_⟩
        obtain ⟨x, -, hend⟩ := htail hv
        simpa [hpost] using hend
      | some k =>
        refine .inr ⟨k + 1, fun v hv hascii ↦ ?_⟩
        obtain ⟨x, hx, hend⟩ := htail hv
        rw [hend, if_pos (hascii x hx), hpost]
        rfl
    · refine .inl ⟨0, Nat.zero_le _, fun v hv ↦ ?_⟩
      obtain ⟨x, y, vs, rfl, hx, -⟩ := hv.exists_cons
      simp only [literalEnd, cons_append, nil_append]
      rw [charLiteralTail?_plain ha, if_neg (hx.ne_of_mem (by decide))]
      rfl
  · by_cases ha : a = '\\'
    · subst ha
      have htail {v : List Char} (hv : Part v) : literalEnd ('\\' :: b :: r) v post =
          if b.toNat < 0x80 then (((r.idxOf? '\'').or
            ((post.idxOf? '\'').map (· + v.length + r.length))).map (· + 3)).getD 0 else 0 := by
        simp only [literalEnd, cons_append]
        rw [charLiteralTail?_escape, idxOf?_append_quote hv.neutral]
        split_ifs <;> rfl
      cases hr : r.idxOf? '\'' with
      | some k =>
        obtain ⟨hk, -⟩ := findIdx?_eq_some_iff_getElem.1 hr
        refine .inl ⟨if b.toNat < 0x80 then k + 3 else 0, ?_, fun v hv ↦ ?_⟩
        · split_ifs
          · exact Nat.add_le_add_right hk 2
          · exact Nat.zero_le _
        · rw [htail hv, hr]
          rfl
      | none =>
        cases hpost : post.idxOf? '\'' with
        | none =>
          refine .inl ⟨0, Nat.zero_le _, fun v hv ↦ ?_⟩
          rw [htail hv, hr, hpost]
          split_ifs <;> rfl
        | some k =>
          by_cases hb : b.toNat < 0x80
          · refine .inr ⟨k + 1, fun v hv _ ↦ ?_⟩
            rw [htail hv, hr, hpost, if_pos hb]
            simp; omega
          · refine .inl ⟨0, Nat.zero_le _, fun v hv ↦ ?_⟩
            rw [htail hv, if_neg hb]
    · refine .inl ⟨if b = '\'' then 2 else 0, ?_, fun v hv ↦ ?_⟩
      · split_ifs <;> simp
      · simp only [literalEnd, cons_append]
        rw [charLiteralTail?_plain ha]
        split_ifs <;> rfl

theorem sync_literalEnd (hw : Part w) (hw' : Part w') (hascii : Ascii w) (hascii' : Ascii w')
    (r post : List Char) : Sync r.length w.length w'.length (.code (literalEnd r w post))
      (.code (literalEnd r w' post)) := by
  obtain ⟨n, hn, hsame⟩ | ⟨k, hbeyond⟩ := literalEnd_cases r post
  · rw [hsame w hw, hsame w' hw']
    exact .code hn
  · rw [hbeyond w hw hascii, hbeyond w' hw' hascii']
    exact .beyond k

theorem opensComment_append (hw : Part w) (hw' : Part w') (c : Char) (r : List Char) :
    l.opensComment c (r ++ (w ++ post)) = l.opensComment c (r ++ (w' ++ post)) := by
  cases r with
  | cons x r => rfl
  | nil =>
    have hplain {v : List Char} (hv : Part v) : l.opensComment c ([] ++ (v ++ post)) =
        (c = '#' && l.commentSyntax.hash) := by
      obtain ⟨x, y, vs, rfl, hx, -⟩ := hv.exists_cons
      have hbracket : x ≠ '[' := hv.head x rfl
      have hslash : x ≠ '/' := hx.ne_of_mem (by decide)
      simp [opensComment, hbracket, hslash]
    rw [hplain hw, hplain hw']

/-- The comment moves along with what is behind the part. The induction is on the text before the
part; the states of the lexer stay in step up to there. -/
theorem shifted_commentFrom (hw : Part w) (hw' : Part w') (hascii : Ascii w) (hascii' : Ascii w')
    (h : Sync pre.length w.length w'.length st st') :
    Shifted (index + pre.length) w.length w'.length (l.commentFrom index st (pre ++ (w ++ post)))
      (l.commentFrom index st' (pre ++ (w' ++ post))) := by
  induction pre generalizing index st st' with
  | nil => exact shifted_of_sync hw hw' h
  | cons c pre ih =>
    have hnext {st st' : LexState} (h : Sync pre.length w.length w'.length st st') :
        Shifted (index + (c :: pre).length) w.length w'.length
          (l.commentFrom (index + 1) st (pre ++ (w ++ post)))
          (l.commentFrom (index + 1) st' (pre ++ (w' ++ post))) := by
      have hlen : index + (c :: pre).length = index + 1 + pre.length := by simp; omega
      rw [hlen]
      exact ih h
    rw [cons_append, cons_append]
    cases h with
    | @code k hk =>
      cases k with
      | succ k => exact hnext (.code (Nat.le_of_succ_le_succ hk))
      | zero =>
        simp only [commentFrom, opensComment_append hw hw']
        split_ifs with hchar hquote hopens
        · exact hnext (sync_literalEnd hw hw' hascii hascii' pre post)
        · exact hnext (.quoted (mem_quotes (contains_iff_mem.1 hquote)))
        · exact .before (by simp)
        · exact hnext (.code (Nat.zero_le _))
    | quoted hq =>
      simp only [commentFrom]
      split_ifs
      · exact hnext (.escaped hq)
      · exact hnext (.code (Nat.zero_le _))
      · exact hnext (.quoted hq)
    | escaped hq => exact hnext (.quoted hq)
    | beyond k =>
      have hlen (b : Nat) : (c :: pre).length + b + k = pre.length + b + k + 1 := by simp; omega
      rw [hlen, hlen]
      exact hnext (.beyond k)

/-- **The comment moves along.** If a neutral part of a line is replaced by another, the comment
starts where it did, or as far behind the part as it did. -/
theorem shifted_commentStart (hw : Part w) (hw' : Part w') (hascii : Ascii w) (hascii' : Ascii w')
    (l : Language) (pre post : List Char) :
    Shifted pre.length w.length w'.length (l.commentStart (pre ++ w ++ post))
      (l.commentStart (pre ++ w' ++ post)) := by
  have hsync : Sync pre.length w.length w'.length (.code 0) (.code 0) := .code (Nat.zero_le _)
  rw [append_assoc, append_assoc, ← Nat.zero_add pre.length]
  exact shifted_commentFrom hw hw' hascii hascii' hsync

/-! ## Parts of a comment -/

theorem commentFrom_of_before (hw : Part w) (hw' : Part w') (hascii : Ascii w)
    (h : l.commentFrom index st (pre ++ (w ++ post)) = some i) (hi : i < index + pre.length) :
    l.commentFrom index st (pre ++ (w' ++ post)) = some i := by
  induction pre generalizing index st with
  | nil => exact absurd (le_of_commentFrom h) (by simpa using hi)
  | cons c pre ih =>
    have hnext {st : LexState} (h : l.commentFrom (index + 1) st (pre ++ (w ++ post)) = some i) :
        l.commentFrom (index + 1) st (pre ++ (w' ++ post)) = some i := by
      refine ih h ?_
      rw [length_cons] at hi
      omega
    rw [cons_append] at h ⊢
    cases st with
    | code k =>
      cases k with
      | succ k => exact hnext h
      | zero =>
        simp only [commentFrom, ← opensComment_append hw hw'] at h ⊢
        split_ifs at h ⊢ with hchar hquote hopens
        · obtain ⟨n, -, hsame⟩ | ⟨k, hbeyond⟩ := literalEnd_cases pre post
          · have heq : literalEnd pre w' post = literalEnd pre w post :=
              (hsame w' hw').trans (hsame w hw).symm
            rw [show (charLiteralTail? _).getD 0 = _ from heq]
            exact hnext h
          · -- the literal would reach beyond the comment
            have hle : index + 1 + literalEnd pre w post ≤ i := le_of_commentFrom_code h
            rw [hbeyond w hw hascii] at hle
            rw [length_cons] at hi
            omega
        · exact hnext h
        · exact h
        · exact hnext h
    | quoted q =>
      simp only [commentFrom] at h ⊢
      split_ifs at h ⊢
      · exact hnext h
      · exact hnext h
      · exact hnext h
    | escaped q => exact hnext h

/-- A comment that starts before a part starts there whatever the part becomes. -/
theorem commentStart_of_before (hw : Part w) (hw' : Part w') (hascii : Ascii w)
    (h : l.commentStart (pre ++ w ++ post) = some i) (hi : i < pre.length) :
    l.commentStart (pre ++ w' ++ post) = some i := by
  rw [commentStart, append_assoc] at h ⊢
  exact commentFrom_of_before hw hw' hascii h (by rwa [Nat.zero_add])

/-- A comment starts with its mark. -/
theorem opensComment_of_commentFrom (h : l.commentFrom index st cs = some i) :
    ∃ u c v, cs = u ++ c :: v ∧ i = index + u.length ∧ l.opensComment c v := by
  induction cs generalizing index st with
  | nil => cases st <;> cases h
  | cons c cs ih =>
    have hnext {st : LexState} (h : l.commentFrom (index + 1) st cs = some i) :
        ∃ u d v, c :: cs = u ++ d :: v ∧ i = index + u.length ∧ l.opensComment d v := by
      obtain ⟨u, d, v, rfl, rfl, hopens⟩ := ih h
      exact ⟨c :: u, d, v, rfl, by simp; omega, hopens⟩
    cases st with
    | code k =>
      cases k with
      | succ k => exact hnext h
      | zero =>
        simp only [commentFrom] at h
        split_ifs at h with hchar hquote hopens
        · exact hnext h
        · exact hnext h
        · cases h
          exact ⟨[], c, cs, rfl, rfl, hopens⟩
        · exact hnext h
    | quoted q =>
      simp only [commentFrom] at h
      split_ifs at h
      · exact hnext h
      · exact hnext h
      · exact hnext h
    | escaped q => exact hnext h

theorem opensComment_of_commentStart {line : Line} (h : l.commentStart line = some i) :
    ∃ u c v, line = u ++ c :: v ∧ u.length = i ∧ l.opensComment c v := by
  obtain ⟨u, c, v, hline, hi, hopens⟩ := opensComment_of_commentFrom h
  exact ⟨u, c, v, hline, by simpa using hi.symm, hopens⟩

end Language

end Steward
