import Steward.Proofs.Fix.Change

/-!
# The burden of a line

A fix may uncover another hazard on its line, so hazards are no measure of how far healing has come.
What does go down is the number of places where something that a fix replaces may start, seen
without regard to what surrounds it: `Fix.alarms` counts them over the words and marks of a line.
-/

namespace Steward

open List

/-! ## Words and marks -/

namespace Text

/-- A word, or a single character that belongs to none. -/
abbrev Token := List Char

/-- The words and marks of a text, left to right, without the space between them. -/
def tokens (cs : List Char) : List Token :=
  (cs.splitBy fun a b => isWord a && isWord b).filter fun t => !isAllBlank t

variable {xs ys : List Char}

theorem tokens_append (h : Apart xs ys) : tokens (xs ++ ys) = tokens xs ++ tokens ys := by
  rw [tokens, splitBy_append, filter_append]
  · rfl
  · intro x hx y hy
    rw [Option.mem_def] at hx hy
    refine eq_false_of_ne_true fun hword ↦ ?_
    rw [Bool.and_eq_true] at hword
    exact h (by simpa [hx] using hword.1) (by simpa [hy] using hword.2)

theorem mem_of_mem_tokens {t : Token} {c : Char} (ht : t ∈ tokens xs) (hc : c ∈ t) : c ∈ xs := by
  rw [← flatten_splitBy (fun a b => isWord a && isWord b) xs]
  exact mem_flatten_of_mem (mem_of_mem_filter ht) hc

theorem tokens_of_blanks (h : Blanks xs) : tokens xs = [] := by
  refine filter_eq_nil_iff.2 fun t ht hblank ↦ ?_
  rw [Bool.not_eq_true', isAllBlank, all_eq_false] at hblank
  obtain ⟨c, hc, hblank⟩ := hblank
  refine hblank (h c ?_)
  rw [← flatten_splitBy (fun a b => isWord a && isWord b) xs]
  exact mem_flatten_of_mem ht hc

/-- Space belongs to no word. -/
theorem isWord_of_isBlank {c : Char} (h : isBlank c) : isWord c = false := by
  have hmem : c.toNat ∈ [9, 10, 11, 12, 13, 0x20, 0x85, 0xA0, 0x1680, 0x2000, 0x2001, 0x2002, 0x2003,
      0x2004, 0x2005, 0x2006, 0x2007, 0x2008, 0x2009, 0x200A, 0x2028, 0x2029, 0x202F, 0x205F,
      0x3000] := by
    simp only [isBlank, Bool.or_eq_true, Bool.and_eq_true, decide_eq_true_eq, beq_iff_eq] at h
    simp only [mem_cons, not_mem_nil, or_false]
    omega
  rw [← Char.ofNat_toNat c]
  generalize c.toNat = n at hmem
  fin_cases hmem <;> decide +kernel

end Text

open Text (Line Apart Blanks Token tokens tokens_append tokens_of_blanks)

namespace Fix

open Detector

variable {l : Language} {debug : Bool}
variable {t : Token} {ts ys ys' : List Token} {name : String} {b : List Char} {c : Char}
  {code : Snippet}

/-! ## Alarms -/

/-- Whether a variable comes next, up to the end of an argument. -/
def closes : List Token → Bool
  | [] => false
  | t :: ts => t = [','] || t = [')'] || t.all isVariable && closes ts

/-- Words that are replaced wherever they stand. -/
def loudWords : List Token := ["eval", "any", "TODO", "FIXME", "XXX"].map String.toList

def commandWords : List Token := ["execSync", "exec", "spawn"].map String.toList

/-- Whether something that a fix replaces may start with the first token. The word of debug output
counts only if `debug` is set. -/
def alarm (debug : Bool) : List Token → Bool
  | [] => false
  | t :: ts =>
    loudWords.contains t || debug && t = "console".toList ||
      t = ['='] && (ts.head? = some ['"'] || ts.head? = some ['\'']) ||
      t = "except".toList && ts.head? = some [':'] ||
      commandWords.contains t && ts.head? = some ['('] && closes ts.tail

/-- The number of places with an alarm. -/
def alarms (debug : Bool) : List Token → Nat
  | [] => 0
  | t :: ts => (alarm debug (t :: ts)).toNat + alarms debug ts

/-- A token that starts nothing that is replaced. -/
def quiet (t : Token) : Bool :=
  !(loudWords ++ commandWords ++ [['=']] ++ ["console", "except"].map String.toList).contains t

theorem alarm_of_quiet (h : quiet t) (ts : List Token) : alarm debug (t :: ts) = false := by
  simp [quiet] at h
  simp [alarm, h]

theorem alarms_cons_of_not (h : alarm debug (t :: ts) = false) :
    alarms debug (t :: ts) = alarms debug ts := by
  rw [alarms, h]
  exact Nat.zero_add _

theorem alarms_of_quiet {xs : List Token} (h : ∀ t ∈ xs, quiet t) (ys : List Token) :
    alarms debug (xs ++ ys) = alarms debug ys := by
  induction xs with
  | nil => rfl
  | cons x xs ih =>
    rw [cons_append, alarms_cons_of_not (alarm_of_quiet (h x (by simp)) _),
      ih fun t ht ↦ h t (by simp [ht])]

theorem alarms_le_append (xs ys : List Token) : alarms debug ys ≤ alarms debug (xs ++ ys) := by
  induction xs with
  | nil => exact le_refl _
  | cons x xs ih => exact ih.trans (Nat.le_add_left _ _)

/-- Tokens in front have no more reason for alarm before `ys'` than before `ys`. -/
structure Milder (ys' ys : List Token) : Prop where
  noQuote : ys'.head? ≠ some ['"'] ∧ ys'.head? ≠ some ['\'']
  noCall : ys'.head? ≠ some ['(']
  colon : ys'.head? = some [':'] → ys.head? = some [':']
  closes : closes ys' → closes ys

theorem closes_append (h : closes ys' → closes ys) (xs : List Token) :
    closes (xs ++ ys') → closes (xs ++ ys) := by
  induction xs with
  | nil => exact h
  | cons x xs ih =>
    simp only [cons_append, closes, Bool.or_eq_true, Bool.and_eq_true]
    exact Or.imp_right fun hx ↦ ⟨hx.1, ih hx.2⟩

theorem Milder.alarm (h : Milder ys' ys) (debug : Bool) (x : Token) (xs : List Token) :
    alarm debug (x :: xs ++ ys') → alarm debug (x :: xs ++ ys) := by
  simp only [Fix.alarm, cons_append, Bool.or_eq_true, Bool.and_eq_true, decide_eq_true_eq]
  cases xs with
  | nil =>
    rintro (((hword | ⟨hx, hquote⟩) | ⟨hx, hcolon⟩) | ⟨⟨-, hcall⟩, -⟩)
    · exact .inl (.inl (.inl hword))
    · exact (hquote.elim h.noQuote.1 h.noQuote.2).elim
    · exact .inl (.inr ⟨hx, h.colon hcolon⟩)
    · exact (h.noCall hcall).elim
  | cons y xs => exact Or.imp_right fun hx ↦ ⟨hx.1, closes_append h.closes xs hx.2⟩

/-- What comes before adds no more to the milder side. -/
theorem Milder.alarms_append (h : Milder ys' ys) (debug : Bool) (xs : List Token) :
    alarms debug (xs ++ ys') + alarms debug ys ≤ alarms debug (xs ++ ys) + alarms debug ys' := by
  induction xs with
  | nil => exact (Nat.add_comm _ _).le
  | cons x xs ih =>
    have hx := Bool.toNat_le_toNat (Bool.le_iff_imp.2 (h.alarm debug x xs))
    rw [cons_append, cons_append, alarms, alarms]
    rw [cons_append, cons_append] at hx
    omega

/-! ## Replacements -/

/-- The tokens `ts'`, in front of any others, are milder than `ts` and have fewer alarms. -/
def Relief (ts ts' : List Token) : Prop :=
  ∀ debug us, Milder (ts' ++ us) (ts ++ us) ∧ alarms debug (ts' ++ us) < alarms debug (ts ++ us)

theorem relief_of_calm {t : Token} {ts ts' : List Token} (hhead : t ∉ [['"'], ['\''], ['(']])
    (hcolon : t = [':'] → ts.head? = some [':']) (hcloses : ∀ us, closes (t :: ts' ++ us) = false)
    (hcalm : ∀ debug us, alarms debug (t :: ts' ++ us) = alarms debug us)
    (hloud : ∀ debug us, alarms debug us < alarms debug (ts ++ us)) : Relief ts (t :: ts') := by
  intro debug us
  simp only [mem_cons, not_mem_nil, or_false, not_or] at hhead
  obtain ⟨hdouble, hsingle, hcall⟩ := hhead
  refine ⟨⟨⟨by simpa, by simpa⟩, by simpa, fun h ↦ ?_, fun h ↦ ?_⟩, ?_⟩
  · have hts := hcolon (Option.some.inj h)
    cases ts with
    | nil => cases hts
    | cons _ _ => exact hts
  · rw [hcloses us] at h
    cases h
  · rw [hcalm]
    exact hloud debug us

theorem alarms_lt_of_alarm {us : List Token} (h : alarm debug (t :: (ts ++ us)) = true) :
    alarms debug us < alarms debug (t :: (ts ++ us)) := by
  rw [alarms, h]
  exact (alarms_le_append ts us).trans_lt (Nat.lt_add_of_pos_left Nat.one_pos)

theorem alarm_of_loud (h : t ∈ loudWords) (debug : Bool) (us : List Token) :
    alarm debug (t :: us) = true := by
  simp only [alarm, contains_iff_mem.2 h, Bool.true_or]

theorem alarms_lt_of_loud (h : t ∈ loudWords) (debug : Bool) (us : List Token) :
    alarms debug us < alarms debug (t :: us) := by
  rw [alarms, alarm_of_loud h]
  exact Nat.lt_add_of_pos_left Nat.one_pos

theorem alarm_sign (us : List Token) :
    alarm debug (['='] :: us) = (us.head? = some ['"'] || us.head? = some ['\'']) := by
  simp [alarm, loudWords, commandWords]

theorem alarms_command (hname : name ∈ ["execSync", "exec", "spawn"]) (us : List Token) :
    alarms debug (name.toList :: ['('] :: us) = (closes us).toNat + alarms debug us := by
  have halarm : alarm debug (name.toList :: ['('] :: us) = closes us := by
    fin_cases hname <;> simp [alarm, loudWords, commandWords]
  rw [alarms, halarm, alarms_cons_of_not (alarm_of_quiet (by decide) us)]

theorem isWord_getLast_blanks {b : List Char} (hb : Blanks b) :
    b.getLast?.any Text.isWord = false := by
  cases hlast : b.getLast? with
  | none => rfl
  | some c => exact Text.isWord_of_isBlank (hb c (mem_of_getLast? hlast))

theorem isWord_head_blanks {b : List Char} (hb : Blanks b) : b.head?.any Text.isWord = false := by
  cases hhead : b.head? with
  | none => rfl
  | some c => exact Text.isWord_of_isBlank (hb c (mem_of_mem_head? hhead))

theorem tokens_blanks_append {b : List Char} (hb : Blanks b) (cs : List Char) :
    tokens (b ++ cs) = tokens cs := by
  rw [tokens_append (Text.apart_of_last (isWord_getLast_blanks hb)), tokens_of_blanks hb,
    nil_append]

theorem tokens_append_blanks {b : List Char} (hb : Blanks b) (cs : List Char) :
    tokens (cs ++ b) = tokens cs := by
  rw [tokens_append (Text.apart_of_head (isWord_head_blanks hb)), tokens_of_blanks hb,
    append_nil]

/-- A character that belongs to no word stands for itself. -/
theorem tokens_mark {c : Char} (hc : Text.isWord c = false) (hblank : Text.isBlank c = false)
    (cs : List Char) : tokens (c :: cs) = [c] :: tokens cs := by
  rw [← singleton_append, tokens_append (Text.apart_of_last (by simpa using hc))]
  simp [tokens, List.splitBy, List.splitBy.loop, Text.isAllBlank, hblank]

/-- Characters that belong to no word end the text before them. -/
theorem tokens_append_mark {c : Char} (hc : Text.isWord c = false) (hblank : Text.isBlank c = false)
    (cs ds : List Char) : tokens (cs ++ c :: ds) = tokens cs ++ [c] :: tokens ds := by
  rw [tokens_append (Text.apart_of_head (by simpa using hc)), tokens_mark hc hblank]

theorem tokens_assignment {name : String} (hname : name ∈ secretNames) {sign : List Char}
    (hsign : Sign sign) (cs : List Char) :
    tokens (name.toList ++ sign ++ cs) = name.toList :: ['='] :: tokens cs := by
  have hword : tokens name.toList = [name.toList] := by
    fin_cases hname <;> decide
  obtain ⟨a, b, rfl, ha, hb⟩ := hsign
  rw [append_assoc, append_assoc, cons_append, ← append_assoc,
    tokens_append_mark rfl rfl, tokens_append_blanks ha, tokens_blanks_append hb, hword]
  rfl

theorem tokens_quoted {literal : List Char} (h : Quoted literal) :
    ∃ ts, tokens literal = ['"'] :: ts ∨ tokens literal = ['\''] :: ts := by
  obtain ⟨q, body, rfl, rfl | rfl⟩ := h
  · exact ⟨_, .inl (tokens_mark rfl rfl _)⟩
  · exact ⟨_, .inr (tokens_mark rfl rfl _)⟩

/-- What stands around a variable's name where it is read from the environment. -/
def lookupAround? : Language → Option (String × String)
  | .python => some ("os.environ.get(\"", "\", \"\")")
  | .script => some ("process.env.", " ?? \"\"")
  | .ruby => some ("ENV.fetch(\"", "\", \"\")")
  | .php => some ("(getenv(\"", "\") ?: \"\")")
  | .go => some ("os.Getenv(\"", "\")")
  | .shell => some ("$\x7b", ":-\x7d")
  | .rust => some ("std::env::var(\"", "\").unwrap_or_default()")
  | .cFamily => some ("getenv(\"", "\")")
  | .jvm => some ("System.getenv().getOrDefault(\"", "\", \"\")")
  | .cSharp => some ("(System.Environment.GetEnvironmentVariable(\"", "\") ?? \"\")")
  | .swift => some ("(ProcessInfo.processInfo.environment[\"", "\"] ?? \"\")")
  | .other => none

/-- What stands around an argument that is quoted for the shell. -/
def quoteAround? : Language → Option (String × String)
  | .python => some ("shlex.quote(", ")")
  | .script => some ("quote([", "])")
  | .ruby => some ("Shellwords.escape(", ")")
  | .php => some ("escapeshellarg(", ")")
  | _ => none

theorem envLookup?_cases {env : String} {code : Snippet} (h : envLookup? l env = some code) :
    ∃ q ∈ lookupAround? l, code.1.toList = q.1.toList ++ env.toList ++ q.2.toList := by
  cases l <;> cases h <;>
    exact ⟨_, rfl, (String.toList_append ..).trans (congrArg (· ++ _) (String.toList_append ..))⟩

theorem shellQuote?_cases {var : List Char} {code : Snippet}
    (h : shellQuote? l (String.ofList var) = some code) :
    ∃ q ∈ quoteAround? l, code.1.toList = q.1.toList ++ var ++ q.2.toList := by
  have htext (q : String × String) : (q.1 ++ String.ofList var ++ q.2).toList =
      q.1.toList ++ var ++ q.2.toList := by
    rw [String.toList_append, String.toList_append, String.toList_ofList]
  cases l <;> cases h <;> exact ⟨_, rfl, htext (_, _)⟩

/-- Texts in front of and behind a name that go on with no word of it. -/
def Encloses (q : String × String) : Prop :=
  q.1.toList.getLast?.any Text.isWord = false ∧ q.2.toList.head?.any Text.isWord = false

theorem tokens_enclosed {q : String × String} (hq : Encloses q) (cs : List Char) :
    tokens (q.1.toList ++ cs ++ q.2.toList) =
      tokens q.1.toList ++ tokens cs ++ tokens q.2.toList := by
  rw [tokens_append (Text.apart_of_head hq.2), tokens_append (Text.apart_of_last hq.1)]

/-- A value that is looked up raises no alarm where a literal stood. -/
theorem tokens_lookupAround? {q : String × String} (hq : q ∈ lookupAround? l) :
    Encloses q ∧ (tokens q.1.toList).head? ∉ [none, some ['"'], some ['\'']] ∧
      (∀ t ∈ tokens q.1.toList, quiet t) ∧ ∀ t ∈ tokens q.2.toList, quiet t := by
  cases l <;> cases hq <;> exact ⟨⟨by decide, by decide⟩, by decide, by decide, by decide⟩

theorem tokens_envName {name : String} (hname : name ∈ secretNames) :
    ∃ t, tokens (envName name).toList = [t] ∧ quiet t := by
  fin_cases hname
  · exact ⟨"PASSWORD".toList, by decide, by decide⟩
  · exact ⟨"API_KEY".toList, by decide, by decide⟩
  · exact ⟨"API_KEY".toList, by decide, by decide⟩
  · exact ⟨"SECRET_KEY".toList, by decide, by decide⟩
  · exact ⟨"SECRET_KEY".toList, by decide, by decide⟩

theorem tokens_envLookup? {name : String} (hname : name ∈ secretNames) {code : Snippet}
    (hcode : envLookup? l (envName name) = some code) :
    (tokens code.1.toList).head? ∉ [none, some ['"'], some ['\'']] ∧
      ∀ t ∈ tokens code.1.toList, quiet t := by
  obtain ⟨q, hq, hcode⟩ := envLookup?_cases hcode
  obtain ⟨env, henv, hquiet⟩ := tokens_envName hname
  obtain ⟨hencloses, hhead, hopen, hclose⟩ := tokens_lookupAround? hq
  rw [hcode, tokens_enclosed hencloses, henv]
  constructor
  · cases hfirst : tokens q.1.toList with
    | nil => simp [hfirst] at hhead
    | cons t ts => simpa [hfirst] using hhead
  · intro t ht
    simp only [mem_append, mem_singleton] at ht
    obtain (ht | rfl) | ht := ht
    · exact hopen t ht
    · exact hquiet
    · exact hclose t ht

theorem relief_secret {name : String} (hname : name ∈ secretNames) {q : Token} {ts code : List Token}
    (hq : q = ['"'] ∨ q = ['\'']) (hcode : code.head? ∉ [none, some ['"'], some ['\'']])
    (hquiet : ∀ t ∈ code, quiet t) :
    Relief (name.toList :: ['='] :: q :: ts) (name.toList :: ['='] :: code) := by
  have hname' : quiet name.toList := by
    fin_cases hname <;> decide
  have hhead : name.toList ∉ [['"'], ['\''], ['(']] := by
    fin_cases hname <;> decide
  have hcolon : name.toList ≠ [':'] := by
    fin_cases hname <;> decide
  refine relief_of_calm hhead (fun h ↦ absurd h hcolon) (fun us ↦ ?_) (fun debug us ↦ ?_)
    (fun debug us ↦ ?_)
  · fin_cases hname <;> rfl
  · obtain ⟨t, code, rfl⟩ : ∃ t ts, code = t :: ts := by
      cases code with
      | nil => simp at hcode
      | cons t ts => exact ⟨t, ts, rfl⟩
    have hsign : alarm debug (['='] :: t :: (code ++ us)) = false := by
      simpa [alarm_sign] using hcode
    simp only [cons_append]
    rw [alarms_cons_of_not (alarm_of_quiet hname' _), alarms_cons_of_not hsign]
    exact alarms_of_quiet hquiet us
  · have hsign : alarm debug (['='] :: (q :: ts ++ us)) = true := by
      rcases hq with rfl | rfl <;> cases debug <;> rfl
    rw [cons_append, alarms_cons_of_not (alarm_of_quiet hname' _)]
    exact alarms_lt_of_alarm hsign

/-- Tokens that together may name a variable lead on to the end of the argument. -/
theorem closes_of_variable {vs us : List Token} (hvs : ∀ t ∈ vs, t.all isVariable)
    (hus : closes us) : closes (vs ++ us) := by
  induction vs with
  | nil => exact hus
  | cons v vs ih =>
    rw [cons_append, closes, hvs v (by simp), ih fun t ht ↦ hvs t (by simp [ht])]
    simp

theorem relief_command {name : String} (hname : name ∈ ["execSync", "exec", "spawn"])
    {q : String × String} (hq : q ∈ quoteAround? l) {c : Char} (hc : c = ',' ∨ c = ')') {vs : List Token}
    (hvs : ∀ t ∈ vs, t.all isVariable) :
    Relief (name.toList :: ['('] :: (vs ++ [[c]]))
      (name.toList :: ['('] :: (tokens q.1.toList ++ vs ++ tokens q.2.toList ++ [[c]])) := by
  intro debug us
  have hend : closes ([c] :: us) := by
    rcases hc with rfl | rfl <;> rfl
  -- what follows the variable by then ends the argument, or nothing at all
  have hmilder : Milder (tokens q.2.toList ++ [c] :: us) ([c] :: us) := by
    have hhead : ∃ t ts, tokens q.2.toList = t :: ts ∧ t ∉ [['"'], ['\''], ['('], [':']] := by
      cases l <;> cases hq <;> exact ⟨_, _, rfl, by decide⟩
    obtain ⟨t, ts, hts, ht⟩ := hhead
    simp only [mem_cons, not_mem_nil, or_false, not_or] at ht
    rw [hts]
    exact ⟨⟨by simpa using ht.1, by simpa using ht.2.1⟩, by simpa using ht.2.2.1,
      fun h ↦ absurd (Option.some.inj h) ht.2.2.2, fun _ ↦ hend⟩
  have hopen : (∀ t ∈ tokens q.1.toList, quiet t) ∧ ∀ us, closes (tokens q.1.toList ++ us) = false := by
    cases l <;> cases hq <;> exact ⟨by decide, fun _ ↦ rfl⟩
  have hclose : ∀ t ∈ tokens q.2.toList, quiet t := by
    cases l <;> cases hq <;> decide
  have hblocked (us : List Token) : closes (name.toList :: ['('] :: us) = false := by
    fin_cases hname <;> rfl
  have hle := hmilder.alarms_append debug vs
  rw [alarms_of_quiet hclose] at hle
  simp only [cons_append, append_assoc, nil_append]
  refine ⟨⟨?_, ?_, fun h ↦ ?_, fun h ↦ ?_⟩, ?_⟩
  · fin_cases hname <;> simp
  · fin_cases hname <;> simp
  · exact absurd h (by fin_cases hname <;> simp)
  · rw [hblocked] at h
    cases h
  · rw [alarms_command hname, alarms_command hname, hopen.2, closes_of_variable hvs hend,
      alarms_of_quiet hopen.1, Bool.toNat_false, Bool.toNat_true]
    omega

theorem tokens_call {name : String} (hname : name ∈ ["execSync", "exec", "spawn"])
    {b b' : List Char} {c : Char} (hb : Blanks b) (hb' : Blanks b') (hc : c = ',' ∨ c = ')')
    (arg : List Char) : tokens (name.toList ++ '(' :: b ++ arg ++ (b' ++ [c])) =
      name.toList :: ['('] :: (tokens arg ++ [[c]]) := by
  have hword : tokens name.toList = [name.toList] := by
    fin_cases hname <;> decide
  have harg : tokens (arg ++ b' ++ [c]) = tokens arg ++ [[c]] := by
    rw [← tokens_append_blanks hb' arg]
    rcases hc with rfl | rfl <;> exact tokens_append_mark rfl rfl _ []
  have htext : name.toList ++ '(' :: b ++ arg ++ (b' ++ [c]) =
      name.toList ++ '(' :: (b ++ (arg ++ b' ++ [c])) := by simp
  rw [htext, tokens_append_mark rfl rfl, tokens_blanks_append hb, harg, hword]
  rfl

theorem encloses_of_mem_quoteAround? {q : String × String} (hq : q ∈ quoteAround? l) :
    Encloses q := by
  cases l <;> cases hq <;> exact ⟨by decide, by decide⟩

theorem relief_of_change {w w' : List Char} (h : Change l w w') : Relief (tokens w) (tokens w') := by
  cases h with
  | secret hname hsign hliteral hcode =>
    obtain ⟨ts, hts⟩ := tokens_quoted hliteral
    obtain ⟨hhead, hquiet⟩ := tokens_envLookup? hname hcode
    rw [tokens_assignment hname hsign, tokens_assignment hname hsign]
    rcases hts with hts | hts
    · rw [hts]
      exact relief_secret hname (.inl rfl) hhead hquiet
    · rw [hts]
      exact relief_secret hname (.inr rfl) hhead hquiet
  | call hcode =>
    have hw : tokens "eval(".toList = ["eval".toList, ['(']] := by decide
    rw [hw]
    have hloud (debug : Bool) (us : List Token) : alarms debug us <
        alarms debug (["eval".toList, ['(']] ++ us) :=
      alarms_lt_of_alarm (alarm_of_loud (by decide) debug ([['(']] ++ us))
    cases l <;> cases hcode
    all_goals
      refine relief_of_calm (by decide) (fun h ↦ absurd h (by decide)) (fun _ ↦ rfl)
        (fun _ us ↦ alarms_of_quiet (by decide) us) hloud
  | @clause b hb =>
    have hw : tokens ("except".toList ++ b ++ [':']) = ["except".toList, [':']] := by
      rw [tokens_append_mark rfl rfl, tokens_append_blanks hb]
      decide
    have hw' : tokens "except Exception as e:".toList = "except".toList ::
        ["Exception".toList, "as".toList, "e".toList, [':']] := by
      decide
    rw [show ":".toList = [':'] from rfl, hw, hw']
    refine relief_of_calm (by decide) (fun h ↦ absurd h (by decide)) (fun _ ↦ rfl)
      (fun debug us ↦ ?_) (fun debug us ↦ ?_)
    · rw [cons_append, alarms_cons_of_not (by cases debug <;> rfl)]
      exact alarms_of_quiet (by decide) us
    · have halarm : alarm debug ("except".toList :: ([[':']] ++ us)) = true := by
        cases debug <;> rfl
      exact alarms_lt_of_alarm halarm
  | command hname hb hvar hb' hc hcode =>
    obtain ⟨q, hq, hcode⟩ := shellQuote?_cases hcode
    rw [tokens_call hname hb hb' hc, tokens_call hname hb hb' hc, hcode, tokens_enclosed (encloses_of_mem_quoteAround? hq)]
    exact relief_command hname hq hc fun t ht ↦
      all_eq_true.2 fun c hc ↦ hvar.2 c (Text.mem_of_mem_tokens ht hc)
  | @typing b hb =>
    have hw : tokens (":".toList ++ b ++ "any".toList) = [[':'], "any".toList] := by
      rw [show ":".toList = [':'] from rfl, append_assoc, singleton_append,
        tokens_mark rfl rfl, tokens_blanks_append hb]
      decide
    have hw' : tokens ": unknown".toList = [[':'], "unknown".toList] := by decide
    rw [hw, hw']
    refine relief_of_calm (by decide) (fun _ ↦ rfl) (fun _ ↦ rfl)
      (fun _ us ↦ alarms_of_quiet (by decide) us) (fun debug us ↦ ?_)
    have hquiet : alarm debug ([':'] :: (["any".toList] ++ us)) = false := alarm_of_quiet (by decide) _
    rw [cons_append, alarms_cons_of_not hquiet]
    exact alarms_lt_of_loud (by decide) debug us
  | @marker marker hmarker =>
    have hw : tokens marker.toList = [marker.toList] ∧ marker.toList ∈ loudWords := by
      fin_cases hmarker <;> decide
    have hword : Text.isWord '✓' = false := by decide +kernel
    have hw' : ∃ rest, (closedMarker marker).toList = '✓' :: rest ∧ ∀ t ∈ tokens rest, quiet t := by
      fin_cases hmarker <;> exact ⟨_, rfl, by decide⟩
    obtain ⟨rest, hrest, hquiet⟩ := hw'
    rw [hw.1, hrest, tokens_mark hword (by decide)]
    refine relief_of_calm (by decide) (fun h ↦ absurd h (by decide)) (fun us ↦ ?_)
      (fun _ us ↦ alarms_of_quiet (forall_mem_cons.2 ⟨by decide, hquiet⟩) us)
      (fun debug us ↦ alarms_lt_of_loud hw.2 debug us)
    simp [closes, isVariable, hword]

end Fix

end Steward
