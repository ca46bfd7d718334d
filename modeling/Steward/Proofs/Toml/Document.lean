import Steward.Proofs.Json.ReadBack
import Steward.Proofs.Toml.Text
import Steward.Toml.Reader

/-!
# Documents are read back

A document of blank lines, headers and settings, `Toml.Line`, is read line by line, and each line does
to the draft what it says: `Toml.parse?_lines`. A setting's value is a count, a text or a list of
texts, written so that its reader gives it back and leaves what follows, `Toml.Reads`.
-/

namespace Steward.Toml

open Json (digits)
open Json.Reader (isDigit_of_mem_digits digits_ne_nil digits_value head?_digits_ne_zero)
open List

variable {rest : List Char}

/-- A text before which a value has ended. -/
def Ends (rest : List Char) : Prop := ∀ c ∈ rest.head?, c = '\n' ∨ c = ',' ∨ c = ']'

theorem ends_cons {c : Char} (h : c = '\n' ∨ c = ',' ∨ c = ']') (cs : List Char) : Ends (c :: cs) := by
  simpa [Ends] using h

theorem Ends.unquoted (h : Ends rest) : Unquoted rest := by
  intro c hc
  obtain rfl | rfl | rfl := h c hc <;> decide

theorem Ends.not_isDigit (h : Ends rest) : ∀ c ∈ rest.head?, c.isDigit = false := by
  intro c hc
  obtain rfl | rfl | rfl := h c hc <;> decide

/-- A character that is neither space nor the start of a comment. -/
def Solid (c : Char) : Prop := c ∉ [' ', '\t', '#', '\n', '\r']

instance : DecidablePred Solid := fun _ ↦ inferInstanceAs (Decidable (_ ∉ _))

theorem skipWs_solid {c : Char} (h : Solid c) (cs : List Char) : skipWs (c :: cs) = c :: cs := by
  simp only [Solid, mem_cons, not_mem_nil, or_false, not_or] at h
  simp [skipWs, isWs, h]

theorem newline?_skipComment_solid {c : Char} (h : Solid c) (cs : List Char) :
    newline? (skipComment (c :: cs)) = none := by
  simp only [Solid, mem_cons, not_mem_nil, or_false, not_or] at h
  simp [skipComment, newline?, h]

theorem skipTrivia_solid {c : Char} (h : Solid c) (fuel : Nat) (cs : List Char) :
    skipTrivia fuel (c :: cs) = c :: cs := by
  cases fuel with
  | zero => rfl
  | succ fuel => rw [skipTrivia, skipWs_solid h, newline?_skipComment_solid h]

/-- A line break and the blanks behind it. -/
theorem skipTrivia_break {c : Char} (h : Solid c) (blanks fuel : Nat) (cs : List Char) :
    skipTrivia (fuel + 2) ('\n' :: (List.replicate blanks ' ' ++ c :: cs)) = c :: cs := by
  have hblanks : skipWs (List.replicate blanks ' ' ++ c :: cs) = c :: cs := by
    rw [skipWs, dropWhile_append_of_pos (by simp [mem_replicate, isWs])]
    exact skipWs_solid h cs
  have hbreak : newline? (skipComment (skipWs ('\n' :: (List.replicate blanks ' ' ++ c :: cs)))) =
      some (List.replicate blanks ' ' ++ c :: cs) := rfl
  rw [skipTrivia, hbreak]
  dsimp only
  rw [skipTrivia, hblanks, newline?_skipComment_solid h]

/-! ## Values -/

/-- A text that is read as a value with at most `depth` arrays around what is inside, wherever a value
has ended after it. -/
structure Reads (depth : Nat) (text : List Char) (v : Toml) : Prop where
  read_eq : ∀ rest, Ends rest → readValue depth (text ++ rest) = some (v, rest)
  start : ∃ c cs, text = c :: cs ∧ Solid c ∧ c ≠ ']'

theorem exists_stringText_cons (cs : List Char) :
    ∃ q more, stringText cs = q :: more ∧ (q = '"' ∨ q = '\x27') := by
  rw [stringText]
  cases formOf (demands cs) with
  | basic | multiBasic => exact ⟨'"', _, rfl, .inl rfl⟩
  | literal | multiLiteral => exact ⟨'\x27', _, rfl, .inr rfl⟩

theorem reads_string (depth : Nat) (s : String) : Reads depth (stringText s.toList) (.string s) where
  read_eq rest hrest := by
    obtain ⟨q, more, htext, hq⟩ := exists_stringText_cons s.toList
    have hstring := readString_stringText s.toList hrest.unquoted
    rw [htext, cons_append] at hstring ⊢
    rw [readValue.eq_def]
    dsimp only
    rw [if_pos (by simpa using hq), hstring]
    simp
  start := by
    obtain ⟨q, more, htext, hq⟩ := exists_stringText_cons s.toList
    refine ⟨q, more, htext, ?_⟩
    obtain rfl | rfl := hq <;> decide

/-! ## Counts -/

theorem ne_of_isDigit {c d : Char} (hd : d.isDigit) (hc : c.isDigit = false) : d ≠ c := by
  rintro rfl
  rw [hd] at hc
  cases hc

theorem readFixed_digits {n acc m : Nat} {ds more : List Char}
    (hrest : ∀ c ∈ rest.head?, c.isDigit = false)
    (h : readFixed n acc (ds ++ rest) = some (m, more)) : ∃ ds', ds' <:+ ds ∧ more = ds' ++ rest := by
  induction n generalizing acc ds with
  | zero =>
    cases h
    exact ⟨ds, suffix_rfl, rfl⟩
  | succ n ih =>
    cases ds with
    | nil =>
      cases rest with
      | nil => cases h
      | cons c rest => simp [readFixed, hrest c rfl] at h
    | cons d ds =>
      rw [cons_append, readFixed] at h
      split_ifs at h
      obtain ⟨ds', hsuffix, hmore⟩ := ih h
      exact ⟨ds', hsuffix.trans (suffix_cons d ds), hmore⟩

theorem skipChar_digits {c : Char} {ds : List Char} (hds : ∀ d ∈ ds, d.isDigit)
    (hc : c = '-' ∨ c = ':') (hrest : Ends rest) : skipChar c (ds ++ rest) = none := by
  cases ds with
  | nil =>
    cases rest with
    | nil => rfl
    | cons d rest =>
      have hne : d ≠ c := by
        obtain rfl | rfl := hc <;> obtain rfl | rfl | rfl := hrest d rfl <;> decide
      simp [skipChar, hne]
  | cons d ds =>
    have hne : d ≠ c :=
      ne_of_isDigit (hds d mem_cons_self) (by obtain rfl | rfl := hc <;> decide)
    simp [skipChar, hne]

/-- After some digits comes neither what parts a date nor what parts a time. -/
theorem skipDateTime_digits {ds : List Char} (hds : ∀ d ∈ ds, d.isDigit) (hrest : Ends rest) :
    skipDateTime (ds ++ rest) = none := by
  have hchar {n m : Nat} {more : List Char} {c : Char} (hc : c = '-' ∨ c = ':')
      (h : readFixed n 0 (ds ++ rest) = some (m, more)) : skipChar c more = none := by
    obtain ⟨ds', hsuffix, rfl⟩ := readFixed_digits hrest.not_isDigit h
    exact skipChar_digits (fun d hd ↦ hds d (hsuffix.subset hd)) hc hrest
  have hdate : skipDate (ds ++ rest) = none := by
    rw [skipDate]
    cases h : readFixed 4 0 (ds ++ rest) with
    | none => rfl
    | some x => simp [hchar (.inl rfl) h]
  have htime : skipTime (ds ++ rest) = none := by
    rw [skipTime]
    cases h : readFixed 2 0 (ds ++ rest) with
    | none => rfl
    | some x => simp [hchar (.inr rfl) h]
  rw [skipDateTime, hdate, htime]

theorem readDigits_go_append {ds : List Char} (hds : ∀ d ∈ ds, d.isDigit) (hrest : Ends rest)
    (done : List Char) :
    readDigits.go Char.isDigit done (ds ++ rest) = some (done.reverse ++ ds, rest) := by
  induction ds generalizing done with
  | nil =>
    cases rest with
    | nil => simp [readDigits.go]
    | cons c rest =>
      have hdigit := hrest.not_isDigit c rfl
      have hc : c ≠ '_' := by obtain rfl | rfl | rfl := hrest c rfl <;> decide
      simp [readDigits.go, hc, hdigit]
  | cons d ds ih =>
    have hd := hds d mem_cons_self
    have hne : d ≠ '_' := ne_of_isDigit hd (by decide)
    rw [cons_append, readDigits.go]
    · rw [if_pos hd, ih fun x hx ↦ hds x (mem_cons_of_mem _ hx)]
      simp
    · exact fun _ _ h _ ↦ hne h

theorem exists_digits_cons (n : Nat) : ∃ d ds, digits n = d :: ds ∧ d.isDigit ∧
    (∀ x ∈ ds, x.isDigit) ∧ (d = '0' → ds = []) := by
  obtain ⟨d, ds, hds⟩ := exists_cons_of_ne_nil (digits_ne_nil n)
  have hdigit : ∀ x ∈ d :: ds, x.isDigit := fun x hx ↦ isDigit_of_mem_digits (hds ▸ hx)
  refine ⟨d, ds, hds, hdigit d mem_cons_self,
    fun x hx ↦ hdigit x (mem_cons_of_mem _ hx), fun hzero ↦ ?_⟩
  rcases Nat.eq_zero_or_pos n with rfl | hn
  · exact (List.cons.inj hds).2.symm
  · exact absurd (by rw [hds, hzero]; rfl) (head?_digits_ne_zero hn)

theorem readDecimal_digits (n : Nat) (hrest : Ends rest) :
    readDecimal (digits n ++ rest) = some ((false, digits n), rest) := by
  obtain ⟨d, ds, hds, hd, htail, hzero⟩ := exists_digits_cons n
  have hminus : d ≠ '-' := ne_of_isDigit hd (by decide)
  have hplus : d ≠ '+' := ne_of_isDigit hd (by decide)
  rw [hds, cons_append]
  by_cases hlead : d = '0'
  · obtain rfl := hzero hlead
    subst hlead
    rfl
  · have hread : readDigits Char.isDigit (d :: (ds ++ rest)) = some (d :: ds, rest) := by
      rw [readDigits, if_pos hd, readDigits_go_append htail hrest]
      rfl
    simp [readDecimal, hminus, hplus, hlead, hread]

theorem skipFloat_digits (n : Nat) (hrest : Ends rest) : skipFloat (digits n ++ rest) = none := by
  rw [skipFloat, readDecimal_digits n hrest]
  cases rest with
  | nil => rfl
  | cons c rest => obtain rfl | rfl | rfl := hrest c rfl <;> rfl

theorem skipSpecial_digits (n : Nat) : skipSpecial (digits n ++ rest) = none := by
  obtain ⟨d, ds, hds, hd, -⟩ := exists_digits_cons n
  have hword {w : String} {c : Char} {cs : List Char} (hw : w.toList = c :: cs)
      (hc : c.isDigit = false) : skipWord w (d :: (ds ++ rest)) = none := by
    simp [skipWord, hw, (ne_of_isDigit hd hc).symm]
  have hinf := hword (w := "inf") rfl (by decide)
  have hnan := hword (w := "nan") rfl (by decide)
  have hminus : d ≠ '-' := ne_of_isDigit hd (by decide)
  have hplus : d ≠ '+' := ne_of_isDigit hd (by decide)
  rw [hds, cons_append]
  simp [skipSpecial, hminus, hplus, hinf, hnan]

theorem digitsValue_digits (n : Nat) : digitsValue 10 (digits n) = n := by
  conv_rhs => rw [← digits_value n]
  refine foldl_ext _ _ _ fun m c hc ↦ ?_
  rw [digitValue, if_pos (isDigit_of_mem_digits hc)]

theorem readInteger_digits {n : Nat} (h : (n : Int) ≤ maxInteger) (hrest : Ends rest) :
    readInteger (digits n ++ rest) = some ((n : Int), rest) := by
  have hrange : inRange? (n : Int) = some (n : Int) := by
    have hlow : -maxInteger - 1 ≤ (n : Int) := le_trans (by decide) (Int.natCast_nonneg n)
    rw [inRange?, if_pos (by simp [hlow, h])]
  have hdecimal := readDecimal_digits n hrest
  have hvalue := digitsValue_digits n
  obtain ⟨d, ds, hds, -, -, hzero⟩ := exists_digits_cons n
  rw [hds] at hdecimal hvalue ⊢
  by_cases hlead : d = '0'
  · -- No letter for a base comes behind a zero.
    obtain rfl := hzero hlead
    subst hlead
    obtain rfl : 0 = n := hvalue
    cases rest with
    | nil => rfl
    | cons c rest => obtain rfl | rfl | rfl := hrest c rfl <;> rfl
  · rw [cons_append] at hdecimal ⊢
    simp [readInteger, hlead, hdecimal, hvalue, hrange]

theorem readNumber_digits {n : Nat} (h : (n : Int) ≤ maxInteger) (hrest : Ends rest) :
    readNumber (digits n ++ rest) = some (.integer n, rest) := by
  rw [readNumber, skipDateTime_digits (fun d hd ↦ isDigit_of_mem_digits hd) hrest,
    skipFloat_digits n hrest, skipSpecial_digits n, readInteger_digits h hrest]
  rfl

theorem reads_count (depth : Nat) {n : Nat} (h : (n : Int) ≤ maxInteger) :
    Reads depth (digits n) (.integer n) where
  read_eq rest hrest := by
    have hread := readNumber_digits h hrest
    obtain ⟨d, ds, hds, hd, -⟩ := exists_digits_cons n
    have hne : ∀ c ∈ ['"', '\x27', '[', '\x7b', 't', 'f'], d ≠ c := by
      intro c hc
      refine ne_of_isDigit hd ?_
      fin_cases hc <;> rfl
    rw [hds, cons_append] at hread ⊢
    rw [readValue.eq_def]
    simp only [forall_mem_cons] at hne
    simp [hne, hread]
  start := by
    obtain ⟨d, ds, hds, hd, -⟩ := exists_digits_cons n
    refine ⟨d, ds, hds, fun hmem ↦ ?_, ne_of_isDigit hd (by decide)⟩
    fin_cases hmem <;> cases hd

/-! ## Arrays -/

section Items

variable {depth : Nat} {items : List (List Char × Toml)}

/-- An item on a line of its own. -/
def itemLine (text : List Char) : List Char := List.replicate 4 ' ' ++ text ++ [',', '\n']

theorem length_le_items (items : List (List Char × Toml)) :
    items.length ≤ (items.flatMap (itemLine ·.1)).length := by
  induction items with
  | nil => exact le_rfl
  | cons x items ih =>
    have hpos : 0 < (itemLine x.1).length := by simp [itemLine]
    rw [flatMap_cons, length_append, length_cons]
    omega

variable {cs more : List Char} {v : Toml}

theorem readItems_close (h : skipTrivia cs.length cs = ']' :: rest) (fuel : Nat) (done : List Toml) :
    readItems (readValue depth) (fuel + 1) done cs = some (done.reverse, rest) := by
  simp [readItems, h]

theorem readItems_comma (h : Reads depth more v)
    (hcs : skipTrivia cs.length cs = more ++ ',' :: rest) (fuel : Nat) (done : List Toml) :
    readItems (readValue depth) (fuel + 1) done cs =
      readItems (readValue depth) fuel (v :: done) rest := by
  have hread := h.read_eq (',' :: rest) (ends_cons (.inr (.inl rfl)) rest)
  obtain ⟨c, more, rfl, -, hclose⟩ := h.start
  have hcomma := skipTrivia_solid (c := ',') (by decide) (rest.length + 1) rest
  rw [cons_append] at hread hcs
  simp [readItems, hcs, hclose, hread, hcomma]

theorem readItems_lines (h : ∀ x ∈ items, Reads depth x.1 x.2) {fuel : Nat}
    (hf : items.length < fuel) (done : List Toml) (rest : List Char) :
    readItems (readValue depth) fuel done ('\n' :: (items.flatMap (itemLine ·.1) ++ ']' :: rest)) =
      some (done.reverse ++ items.map (·.2), rest) := by
  induction items generalizing fuel done with
  | nil =>
    obtain ⟨fuel, rfl⟩ := Nat.exists_eq_add_one_of_ne_zero (Nat.ne_zero_of_lt hf)
    rw [readItems_close (skipTrivia_break (by decide) 0 _ rest)]
    simp
  | cons x items ih =>
    obtain ⟨fuel, rfl⟩ := Nat.exists_eq_add_one_of_ne_zero (Nat.ne_zero_of_lt hf)
    have hx := h x mem_cons_self
    obtain ⟨c, cs, htext, hsolid, -⟩ := hx.start
    have hskip (tail : List Char) :
        skipTrivia ('\n' :: (itemLine x.1 ++ tail)).length ('\n' :: (itemLine x.1 ++ tail)) =
          x.1 ++ ',' :: '\n' :: tail := by
      rw [itemLine, htext]
      simpa using skipTrivia_break hsolid 4 _ (cs ++ ',' :: '\n' :: tail)
    rw [flatMap_cons, append_assoc, readItems_comma hx (hskip _)]
    rw [ih (fun y hy ↦ h y (mem_cons_of_mem _ hy)) (by simpa using hf)]
    simp

theorem readValue_bracket {vs : List Toml}
    (h : readItems (readValue depth) (cs.length + 1) [] cs = some (vs, rest)) :
    readValue (depth + 1) ('[' :: cs) = some (.array vs, rest) := by
  rw [readValue]
  simp [h]

theorem reads_array_nil : Reads (depth + 1) ['[', ']'] (.array []) where
  read_eq rest _ := by
    have hskip : skipTrivia (']' :: rest).length (']' :: rest) = ']' :: rest :=
      skipTrivia_solid (by decide) _ rest
    exact readValue_bracket (readItems_close hskip _ [])
  start := ⟨_, _, rfl, by decide, by decide⟩

theorem Reads.array_one (h : Reads depth more v) :
    Reads (depth + 1) ('[' :: (more ++ [']'])) (.array [v]) where
  read_eq rest _ := by
    have hread := h.read_eq (']' :: rest) (ends_cons (.inr (.inr rfl)) rest)
    obtain ⟨c, more, rfl, hsolid, hclose⟩ := h.start
    have hskip := skipTrivia_solid (c := ']') (by decide) (rest.length + 1) rest
    rw [cons_append, append_assoc]
    refine readValue_bracket ?_
    simp only [cons_append, nil_append] at hread ⊢
    simp [readItems, skipTrivia_solid hsolid, hclose, hread, hskip]
  start := ⟨_, _, rfl, by decide, by decide⟩

theorem reads_array_lines (h : ∀ x ∈ items, Reads depth x.1 x.2) :
    Reads (depth + 1) ('[' :: '\n' :: (items.flatMap (itemLine ·.1) ++ [']']))
      (.array (items.map (·.2))) where
  read_eq rest _ := by
    have hlength := length_le_items items
    simp only [cons_append, append_assoc, nil_append]
    refine readValue_bracket (readItems_lines h ?_ [] rest)
    rw [length_cons, length_append]
    omega
  start := ⟨_, _, rfl, by decide, by decide⟩

end Items

/-! ## Lines -/

/-- A line of a document. A setting has its value as it is written and as it is read. -/
inductive Line where
  | blank
  | header (key : String)
  | setting (key : String) (text : List Char) (value : Toml)

namespace Line

/-- The line as it is written. -/
def text : Line → List Char
  | blank => ['\n']
  | header key => '[' :: (key.toList ++ [']', '\n'])
  | setting key text _ => key.toList ++ " = ".toList ++ text ++ ['\n']

/-- What the line does to a draft. -/
def addTo (d : Draft) : Line → Option Draft
  | blank => some d
  | header key => d.openTable [] key
  | setting key _ v => d.add [] key v

end Line

/-- A key that needs no quotes. -/
structure BareKey (key : String) : Prop where
  nonempty : key.toList ≠ []
  bare : ∀ c ∈ key.toList, isBareChar c

/-- A line with a key that needs no quotes and a value that is read back. -/
def Line.Proper : Line → Prop
  | blank => True
  | header key => BareKey key
  | setting key text v => BareKey key ∧ Reads (maxDepth - 1) text v

theorem isBareChar_ne {c d : Char} (hc : isBareChar c) (hd : isBareChar d = false) : c ≠ d := by
  rintro rfl
  rw [hc] at hd
  cases hd

theorem solid_of_isBareChar {c : Char} (hc : isBareChar c) : Solid c := by
  intro hmem
  fin_cases hmem <;> exact absurd hc (by decide)

namespace BareKey

variable {key : String}

theorem exists_cons (h : BareKey key) :
    ∃ c cs, key.toList = c :: cs ∧ isBareChar c := by
  obtain ⟨c, cs, hkey⟩ := exists_cons_of_ne_nil h.nonempty
  exact ⟨c, cs, hkey, h.bare c (hkey ▸ mem_cons_self)⟩

theorem readSimpleKey (h : BareKey key) {d : Char} (hd : isBareChar d = false) (cs : List Char) :
    readSimpleKey (key.toList ++ d :: cs) = some (key, d :: cs) := by
  have htake : (key.toList ++ d :: cs).takeWhile isBareChar = key.toList := by
    rw [takeWhile_append_of_pos h.bare]
    simp [hd]
  have hdrop : (key.toList ++ d :: cs).dropWhile isBareChar = d :: cs := by
    rw [dropWhile_append_of_pos h.bare]
    simp [hd]
  obtain ⟨c, more, hkey, hc⟩ := h.exists_cons
  have hquote : c ≠ '"' := isBareChar_ne hc (by decide)
  have hsingle : c ≠ '\x27' := isBareChar_ne hc (by decide)
  rw [hkey, cons_append] at htake hdrop ⊢
  have hback : String.ofList (c :: more) = key := by rw [← hkey, String.ofList_toList]
  simp [Toml.readSimpleKey, hquote, hsingle, htake, hdrop, hback]

/-- A key up to a character that is no part of it. -/
theorem readKey (h : BareKey key) {d : Char} (hd : isBareChar d = false) {cs cs' : List Char}
    {d' : Char} (hskip : skipWs (d :: cs) = d' :: cs') (hdot : d' ≠ '.') :
    readKey (key.toList ++ d :: cs) = some (([], key), d' :: cs') := by
  have hsimple := h.readSimpleKey hd cs
  obtain ⟨c, more, hkey, hc⟩ := h.exists_cons
  have hstart : skipWs (key.toList ++ d :: cs) = key.toList ++ d :: cs := by
    rw [hkey, cons_append, skipWs_solid (solid_of_isBareChar hc)]
  have hparts : readKeyParts (maxDepth - 1) (key.toList ++ d :: cs) = some ([key], d' :: cs') := by
    rw [show maxDepth - 1 = 78 + 1 from rfl, readKeyParts, hstart, hsimple]
    simp [hskip, hdot]
  simp [Toml.readKey, hparts]

end BareKey

theorem endLine_newline (rest : List Char) : endLine ('\n' :: rest) = some rest := rfl

theorem readSetting_text {key : String} {text : List Char} {v : Toml} (hkey : BareKey key)
    (hv : Reads (maxDepth - 1) text v) (d : Draft) (rest : List Char) :
    readSetting d ((Line.setting key text v).text ++ rest) = (d.add [] key v).map (·, rest) := by
  have hread := hv.read_eq ('\n' :: rest) (ends_cons (.inl rfl) rest)
  obtain ⟨c, cs, htext, hsolid, -⟩ := hv.start
  have hline : (Line.setting key text v).text ++ rest =
      key.toList ++ ' ' :: '=' :: ' ' :: (text ++ '\n' :: rest) := by
    simp [Line.text]
  have hparts : readKey (key.toList ++ ' ' :: '=' :: ' ' :: (text ++ '\n' :: rest)) =
      some (([], key), '=' :: ' ' :: (text ++ '\n' :: rest)) :=
    hkey.readKey (by decide) rfl (by decide)
  have hskip : skipWs (' ' :: (text ++ '\n' :: rest)) = text ++ '\n' :: rest := by
    rw [htext, cons_append]
    exact skipWs_solid hsolid _
  have hpair : readPair (readValue (maxDepth - 1)) ((Line.setting key text v).text ++ rest) =
      some ((([], key), v), '\n' :: rest) := by
    rw [hline]
    simp [readPair, hparts, skipChar, hskip, hread]
  simp only [readSetting, hpair, Option.bind_eq_bind, Option.bind_some, endLine_newline]
  cases d.add [] key v <;> rfl

theorem readHeader_text {key : String} (hkey : BareKey key) (d : Draft) (rest : List Char) :
    readHeader d ((Line.header key).text ++ rest) = (d.openTable [] key).map (·, rest) := by
  have hread : readKey (key.toList ++ ']' :: '\n' :: rest) = some (([], key), ']' :: '\n' :: rest) :=
    hkey.readKey (by decide) rfl (by decide)
  obtain ⟨c, cs, hcs, hc⟩ := hkey.exists_cons
  have hbracket : c ≠ '[' := isBareChar_ne hc (by decide)
  have hline : (Line.header key).text ++ rest = '[' :: (key.toList ++ ']' :: '\n' :: rest) := by
    simp [Line.text]
  rw [hline]
  rw [hcs, cons_append] at hread ⊢
  rw [readHeader]
  · rw [hread]
    cases hopen : d.openTable [] key <;> simp [skipChar, endLine_newline, hopen]
  · exact fun _ h ↦ hbracket (List.cons.inj h).1

/-- A line is read, and what it says is done to the draft. -/
theorem readLines_text {line : Line} (h : line.Proper) (fuel : Nat) (d : Draft) (rest : List Char) :
    readLines (fuel + 1) d (line.text ++ rest) = (line.addTo d).bind (readLines fuel · rest) := by
  cases line with
  | blank => rfl
  | header key =>
    have hread := readHeader_text h d rest
    have hline : (Line.header key).text ++ rest = '[' :: (key.toList ++ [']', '\n'] ++ rest) := rfl
    rw [hline] at hread ⊢
    rw [readLines, skipWs_solid (by decide)]
    simp only [hread, Line.addTo]
    cases d.openTable [] key <;> rfl
  | setting key text v =>
    obtain ⟨hkey, hv⟩ := h
    have hread := readSetting_text hkey hv d rest
    obtain ⟨c, cs, hcs, hc⟩ := hkey.exists_cons
    obtain ⟨more, hline⟩ : ∃ more, (Line.setting key text v).text ++ rest = c :: more := by
      rw [Line.text, hcs]
      exact ⟨_, rfl⟩
    have hne : ∀ x ∈ ['[', '#', '\n', '\r'], c ≠ x := by
      intro x hx
      refine isBareChar_ne hc ?_
      fin_cases hx <;> rfl
    simp only [forall_mem_cons] at hne
    rw [hline] at hread ⊢
    rw [readLines, skipWs_solid (solid_of_isBareChar hc)]
    cases hadd : d.add [] key v <;> simp [hne, hread, hadd, Line.addTo]

theorem Line.Proper.head?_ne {line : Line} (h : line.Proper) (rest : List Char) :
    (line.text ++ rest).head? ≠ some '\ufeff' := by
  cases line with
  | blank | header => simp [Line.text]
  | setting key text v =>
    obtain ⟨c, cs, hcs, hc⟩ := h.1.exists_cons
    have hne : c ≠ '\ufeff' := isBareChar_ne hc (by decide)
    simpa [Line.text, hcs] using hne

theorem Line.length_text_pos (line : Line) : 0 < line.text.length := by
  cases line <;> simp [Line.text]

/-- **A document is read back** as what its lines make of an empty one. -/
theorem parse?_lines {lines : List Line} (h : ∀ line ∈ lines, line.Proper) :
    parse? (lines.flatMap Line.text) = (lines.foldlM Line.addTo {}).map (·.doc) := by
  have hread {fuel : Nat} {d : Draft} (hf : (lines.flatMap Line.text).length < fuel) :
      readLines fuel d (lines.flatMap Line.text) = (lines.foldlM Line.addTo d).map (·.doc) := by
    induction lines generalizing fuel d with
    | nil =>
      obtain ⟨fuel, rfl⟩ := Nat.exists_eq_add_one_of_ne_zero (Nat.ne_zero_of_lt hf)
      rfl
    | cons line lines ih =>
      obtain ⟨fuel, rfl⟩ := Nat.exists_eq_add_one_of_ne_zero (Nat.ne_zero_of_lt hf)
      have hpos := line.length_text_pos
      rw [flatMap_cons, length_append] at hf
      rw [forall_mem_cons] at h
      rw [flatMap_cons, readLines_text h.1, foldlM_cons]
      cases line.addTo d with
      | none => rfl
      | some d => exact ih h.2 (by omega)
  have hmark : (lines.flatMap Line.text).head? ≠ some '\ufeff' := by
    cases lines with
    | nil => simp
    | cons line lines =>
      rw [flatMap_cons]
      exact (h line mem_cons_self).head?_ne _
  rw [parse?, if_neg hmark]
  exact hread (Nat.lt_succ_self _)

end Steward.Toml
