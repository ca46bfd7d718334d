import Steward.Proofs.Fix.Reopened

/-!
# Secrets on a line

`Secret.Stands` says without patterns what a secret on a line is: a name where no word is under way,
an assignment sign, and a text in quotes that is not empty. At most one of them starts in a place,
`Secret.Stands.eq_of_start`, so there is one way to pick them from left to right without overlap,
`Selects.unique`. That is how the detectors of secrets pick them, whatever else stands on the line:
`Detector.secrets_selected`.
-/

namespace Steward.Detector

open Pattern Text
open Text (Line)
open List

/-- A secret on a line: the span of its assignment, and that of the quoted text with its quotes. -/
structure Secret where
  whole : Span
  literal : Span
deriving DecidableEq, Repr

/-- The assignment of a quoted text to a name, and what stands before and behind it on the line. -/
structure Assignment where
  pre : List Char
  name : String
  sign : List Char
  quote : Char
  body : List Char
  post : List Char

namespace Assignment

def line (a : Assignment) : Line :=
  a.pre ++ (a.name.toList ++ a.sign ++ a.quote :: (a.body ++ a.quote :: a.post))

def literalStart (a : Assignment) : Nat := (a.pre ++ (a.name.toList ++ a.sign)).length

def stop (a : Assignment) : Nat := a.literalStart + a.body.length + 2

def secret (a : Assignment) : Secret := ⟨⟨a.pre.length, a.stop⟩, ⟨a.literalStart, a.stop⟩⟩

/-- The name is one of those given and not part of a longer word, and the quoted text ends with the
next quote of its kind, but not at once. -/
structure Proper (names : List String) (a : Assignment) : Prop where
  edge : a.pre.getLast?.any isWord = false
  name : a.name ∈ names
  sign : Sign a.sign
  quote : a.quote = '"' ∨ a.quote = '\''
  body : a.body ≠ []
  closed : a.quote ∉ a.body

end Assignment

/-- The secret is that of an assignment on the line. -/
def Secret.Stands (names : List String) (line : Line) (s : Secret) : Prop :=
  ∃ a : Assignment, a.Proper names ∧ a.line = line ∧ a.secret = s

/-- The hazards that are secrets, with their names and the group that holds the quoted text. -/
def secretKinds : List (Hazard × List String × Nat) :=
  [(.hardcodedPassword, ["password"], 1),
    (.hardcodedApiKey, ["api_key", "apiKey", "secret_key", "secretKey"], 2)]

/-! ## One secret from a place -/

/-- Texts that go on alike up to the first character without a property are the same. -/
theorem append_cons_inj_of_forall {p : Char → Prop} {xs ys xs' ys' : List Char} {c c' : Char}
    (hxs : ∀ x ∈ xs, p x) (hc : ¬p c) (hxs' : ∀ x ∈ xs', p x) (hc' : ¬p c')
    (h : xs ++ c :: ys = xs' ++ c' :: ys') : xs = xs' ∧ c = c' ∧ ys = ys' := by
  induction xs generalizing xs' with
  | nil =>
    cases xs' with
    | nil => simpa using h
    | cons x xs' =>
      obtain ⟨rfl, -⟩ := List.cons.inj h
      exact absurd (hxs' _ mem_cons_self) hc
  | cons x xs ih =>
    cases xs' with
    | nil =>
      obtain ⟨rfl, -⟩ := List.cons.inj h
      exact absurd (hxs _ mem_cons_self) hc'
    | cons x' xs' =>
      obtain ⟨rfl, htail⟩ := List.cons.inj h
      obtain ⟨rfl, hrest⟩ := ih (fun x hx ↦ hxs x (mem_cons_of_mem _ hx))
        (fun x hx ↦ hxs' x (mem_cons_of_mem _ hx)) htail
      exact ⟨rfl, hrest⟩

theorem not_isBlank_quote {q : Char} (h : q = '"' ∨ q = '\'') : ¬isBlank q := by
  rcases h with rfl | rfl <;> decide

/-- A name and an assignment sign before a quote are told from what follows. -/
theorem lead_inj {name name' sign sign' rest rest' : List Char} {q q' : Char}
    (hname : '=' ∉ name) (hname' : '=' ∉ name') (hsign : Sign sign) (hsign' : Sign sign')
    (hq : ¬isBlank q) (hq' : ¬isBlank q')
    (h : name ++ sign ++ q :: rest = name' ++ sign' ++ q' :: rest') :
    name ++ sign = name' ++ sign' ∧ q = q' ∧ rest = rest' := by
  obtain ⟨a, b, rfl, ha, hb⟩ := hsign
  obtain ⟨a', b', rfl, ha', hb'⟩ := hsign'
  have hfront {name a : List Char} (hname : '=' ∉ name) (ha : Blanks a) :
      ∀ c ∈ name ++ a, c ≠ '=' := by
    rintro c hc rfl
    rcases mem_append.1 hc with hc | hc
    · exact hname hc
    · exact absurd (ha _ hc) (by decide)
  have hcut : (name ++ a) ++ '=' :: (b ++ q :: rest) = (name' ++ a') ++ '=' :: (b' ++ q' :: rest') := by
    simpa using h
  obtain ⟨hleft, -, hright⟩ := append_cons_inj_of_forall (hfront hname ha) (by simp)
    (hfront hname' ha') (by simp) hcut
  obtain ⟨rfl, rfl, rfl⟩ := append_cons_inj_of_forall hb hq hb' hq' hright
  refine ⟨?_, rfl, rfl⟩
  rw [← append_assoc, ← append_assoc, hleft]

/-- A secret is told by where it starts. -/
theorem Secret.Stands.eq_of_start {names : List String} (hnames : ∀ name ∈ names, '=' ∉ name.toList)
    {line : Line} {s t : Secret} (hs : s.Stands names line) (ht : t.Stands names line)
    (h : s.whole.start = t.whole.start) : s = t := by
  obtain ⟨a, ha, rfl, rfl⟩ := hs
  obtain ⟨b, hb, hline, rfl⟩ := ht
  obtain ⟨hpre, hrest⟩ := append_inj hline h.symm
  obtain ⟨hlead, hquote, hbehind⟩ := lead_inj (hnames _ hb.name) (hnames _ ha.name) hb.sign ha.sign
    (not_isBlank_quote hb.quote) (not_isBlank_quote ha.quote) hrest
  obtain ⟨hbody, -, -⟩ := append_cons_inj_of_forall (p := (· ≠ a.quote))
    (fun c hc hcq ↦ hb.closed (hquote ▸ hcq ▸ hc)) (by simp [hquote])
    (fun c hc hcq ↦ ha.closed (hcq ▸ hc)) (by simp) hbehind
  have hstart : a.literalStart = b.literalStart := by
    rw [Assignment.literalStart, Assignment.literalStart, hlead, hpre]
  have hstop : a.stop = b.stop := by rw [Assignment.stop, Assignment.stop, hstart, hbody]
  rw [Assignment.secret, Assignment.secret, hstart, hstop, hpre]

theorem Secret.Stands.lt {names : List String} {line : Line} {s : Secret}
    (hs : s.Stands names line) : s.whole.start < s.whole.stop := by
  obtain ⟨a, -, -, rfl⟩ := hs
  simp only [Assignment.secret, Assignment.stop, Assignment.literalStart, length_append]
  omega

/-! ## Picking from left to right -/

/-- A pick from the secrets with a property, from left to right and without overlap: whatever has the
property is picked or starts within something picked before it. -/
structure Selects (P : Secret → Prop) (ss : List Secret) : Prop where
  sound : ∀ s ∈ ss, P s
  apart : ss.Pairwise fun s t ↦ s.whole.stop ≤ t.whole.start
  complete : ∀ s, P s → s ∈ ss ∨
    ∃ t ∈ ss, t.whole.start < s.whole.start ∧ s.whole.start < t.whole.stop

namespace Selects

variable {P : Secret → Prop} {s : Secret} {ss : List Secret}

theorem start_le (h : Selects P (s :: ss)) (hlt : ∀ s, P s → s.whole.start < s.whole.stop)
    {t : Secret} (ht : P t) : s.whole.start ≤ t.whole.start := by
  have hmem {t : Secret} (ht : t ∈ s :: ss) : s.whole.start ≤ t.whole.start := by
    rcases mem_cons.1 ht with rfl | ht
    · exact le_rfl
    · exact (hlt s (h.sound s mem_cons_self)).le.trans ((pairwise_cons.1 h.apart).1 t ht)
  rcases h.complete t ht with ht | ⟨u, hu, hstart, -⟩
  · exact hmem ht
  · exact (hmem hu).trans hstart.le

/-- What is picked after the first one is a pick from what starts behind it. -/
theorem tail (h : Selects P (s :: ss)) (hlt : ∀ s, P s → s.whole.start < s.whole.stop) :
    Selects (fun t ↦ P t ∧ s.whole.stop ≤ t.whole.start) ss where
  sound t ht :=
    ⟨h.sound t (mem_cons_of_mem _ ht), (pairwise_cons.1 h.apart).1 t ht⟩
  apart := (pairwise_cons.1 h.apart).2
  complete t ht := by
    obtain ⟨ht, hle⟩ := ht
    have hs := hlt s (h.sound s mem_cons_self)
    rcases h.complete t ht with hmem | ⟨u, hu, hstart, hstop⟩
    · refine .inl ((mem_cons.1 hmem).resolve_left ?_)
      rintro rfl
      omega
    · refine .inr ⟨u, (mem_cons.1 hu).resolve_left ?_, hstart, hstop⟩
      rintro rfl
      omega

/-- There is one way to pick, if what is picked is told by its start. -/
theorem unique (hlt : ∀ s, P s → s.whole.start < s.whole.stop)
    (hinj : ∀ s t, P s → P t → s.whole.start = t.whole.start → s = t) {ts : List Secret}
    (hss : Selects P ss) (hts : Selects P ts) : ts = ss := by
  induction ss generalizing P ts with
  | nil =>
    refine eq_nil_iff_forall_not_mem.2 fun t ht ↦ ?_
    simpa using hss.complete t (hts.sound t ht)
  | cons s ss ih =>
    have hs := hss.sound s mem_cons_self
    cases ts with
    | nil => simpa using hts.complete s hs
    | cons t ts =>
      have ht := hts.sound t mem_cons_self
      obtain rfl : t = s :=
        hinj t s ht hs (le_antisymm (hts.start_le hlt hs) (hss.start_le hlt ht))
      rw [ih (fun s hs ↦ hlt s hs.1) (fun s u hs hu ↦ hinj s u hs.1 hu.1) (hss.tail hlt)
        (hts.tail hlt)]

end Selects

/-! ## What the detectors pick -/

section Kinds

variable {h : Hazard} {names : List String} {n : Nat} (hk : (h, names, n) ∈ secretKinds)
  {x v y : List Char} {line : Line} {gs : Groups}
include hk

theorem of_mem_secretKinds : h ∈ secrets ∧ openings h = names ∧
    (ofHazard h).placement = .anywhere ∧ ∀ name ∈ names, '=' ∉ name.toList := by
  fin_cases hk <;> exact ⟨by decide, rfl, rfl, by decide⟩

/-- What a pattern takes is an assignment, and the group holds the quoted text. -/
theorem exists_assignment_of_takes (htakes : Takes (ofHazard h).pattern x v y [] gs) :
    ∃ a : Assignment, a.Proper names ∧ a.line = x ++ v ++ y ∧
      a.secret.whole = ⟨x.length, (x ++ v).length⟩ ∧
      gs.lookup n = some a.secret.literal := by
  obtain ⟨hh, hopen, -, hnames⟩ := of_mem_secretKinds hk
  obtain ⟨hedge, name, hname, sign, _, rfl, hsign, q, body, rfl, hq, hne, hclosed⟩ :=
    (takes_secret_iff hh).1 ⟨gs, htakes⟩
  rw [hopen] at hname
  have hstop : (x ++ (name.toList ++ sign)).length + body.length + 2 =
      (x ++ (name.toList ++ sign ++ q :: (body ++ [q]))).length := by
    simp only [length_append, length_cons, length_nil]
    omega
  have hlead {name' : String} {sign' literal' : List Char} (hname' : name' ∈ names)
      (hsign' : Sign sign') (hquoted : Quoted literal')
      (hv : name.toList ++ sign ++ q :: (body ++ [q]) = name'.toList ++ sign' ++ literal') :
      name.toList ++ sign = name'.toList ++ sign' := by
    obtain ⟨q', body', rfl, hq'⟩ := hquoted
    exact (lead_inj (hnames _ hname) (hnames _ hname') hsign hsign' (not_isBlank_quote hq)
      (not_isBlank_quote hq') hv).1
  refine ⟨⟨x, name, sign, q, body, y⟩, ⟨hedge, hname, hsign, hq, hne, hclosed⟩,
    by simp [Assignment.line], by rw [Assignment.secret, Assignment.stop, Assignment.literalStart,
      hstop], ?_⟩
  rw [Assignment.secret, Assignment.stop, Assignment.literalStart, hstop]
  fin_cases hk
  · obtain ⟨sign', literal', hv, hsign', hquoted, -, rfl⟩ := takes_passwordPattern htakes
    rw [hlead (by decide) hsign' hquoted hv]
    rfl
  · obtain ⟨name', hname', sign', literal', hv, hsign', hquoted, -, rfl⟩ :=
      takes_apiKeyPattern htakes
    rw [hlead hname' hsign' hquoted hv]
    rfl

theorem Assignment.Proper.exists_takes {a : Assignment} (ha : a.Proper names) :
    ∃ v gs, a.line = a.pre ++ v ++ a.post ∧ Takes (ofHazard h).pattern a.pre v a.post [] gs := by
  obtain ⟨hh, hopen, -, -⟩ := of_mem_secretKinds hk
  have htakes : ∃ gs, Takes (ofHazard h).pattern a.pre
      (a.name.toList ++ a.sign ++ a.quote :: (a.body ++ [a.quote])) a.post [] gs :=
    (takes_secret_iff hh).2 ⟨ha.edge, a.name, hopen ▸ ha.name, a.sign, _, rfl, ha.sign, a.quote,
      a.body, rfl, ha.quote, ha.body, ha.closed⟩
  obtain ⟨gs, htakes⟩ := htakes
  exact ⟨_, gs, by simp [Assignment.line], htakes⟩

/-- A match tells of a secret on the line. -/
theorem exists_stands_of_mem_matches {m : Match} (hm : m ∈ (ofHazard h).pattern.matches line) :
    ∃ s : Secret, s.Stands names line ∧ s.whole = m.whole ∧ m.group? n = some s.literal := by
  obtain ⟨x, v, y, rfl, htakes, hwhole⟩ := found_of_mem_matches hm
  obtain ⟨a, ha, hline, hspan, hgroup⟩ := exists_assignment_of_takes hk htakes
  refine ⟨a.secret, ⟨a, ha, hline, rfl⟩, hspan.trans hwhole.symm, ?_⟩
  rw [← hgroup]
  fin_cases hk <;> rfl

theorem exists_match_of_stands {s : Secret} (hs : s.Stands names line) :
    ∃ m ∈ (ofHazard h).pattern.matches line, m.whole.start = s.whole.start ∨
      m.whole.start < s.whole.start ∧ s.whole.start < m.whole.stop := by
  obtain ⟨a, ha, rfl, rfl⟩ := hs
  obtain ⟨v, gs, hline, htakes⟩ := ha.exists_takes hk
  obtain ⟨m, hm, hle, hstart⟩ := exists_match_of_takes htakes (takes_ne_nil htakes)
  refine ⟨m, hline ▸ hm, ?_⟩
  rcases hle.eq_or_lt with heq | hlt
  · exact .inl heq
  · exact .inr ⟨hlt, hstart.resolve_left hlt.ne⟩

theorem placed_eq_matches (l : Language) (line : Line) :
    (ofHazard h).placed l line = (ofHazard h).pattern.matches line := by
  obtain ⟨-, -, hplace, -⟩ := of_mem_secretKinds hk
  refine filter_eq_self.2 fun m _ ↦ ?_
  rw [hplace]
  rfl

/-- The matches pick secrets from left to right. -/
theorem exists_selects (line : Line) :
    ∃ ss : List Secret, Selects (Secret.Stands names line) ss ∧
      ((ofHazard h).pattern.matches line).map (fun m ↦ (m.whole, m.group? n)) =
        ss.map fun s ↦ (s.whole, some s.literal) := by
  obtain ⟨-, -, -, hnames⟩ := of_mem_secretKinds hk
  let found (m : Match) : Secret := ⟨m.whole, (m.group? n).getD m.whole⟩
  have hfound {m : Match} (hm : m ∈ (ofHazard h).pattern.matches line) :
      (found m).Stands names line ∧ m.group? n = some (found m).literal := by
    obtain ⟨s, hs, hwhole, hgroup⟩ := exists_stands_of_mem_matches hk hm
    obtain rfl : s = found m := by simp only [found, hgroup, Option.getD_some, ← hwhole]
    exact ⟨hs, hgroup⟩
  refine ⟨((ofHazard h).pattern.matches line).map found, ⟨?_, ?_, fun s hs ↦ ?_⟩, ?_⟩
  · rintro s hs
    obtain ⟨m, hm, rfl⟩ := mem_map.1 hs
    exact (hfound hm).1
  · exact pairwise_map.2 (pairwise_matches _ line)
  · obtain ⟨m, hm, hstart | hinside⟩ := exists_match_of_stands hk hs
    · exact .inl (mem_map.2 ⟨m, hm, (hfound hm).1.eq_of_start hnames hs hstart⟩)
    · exact .inr ⟨found m, mem_map_of_mem hm, hinside⟩
  · rw [map_map]
    exact map_congr_left fun m hm ↦ by rw [(hfound hm).2]; rfl

/-- The detector of a secret finds the secrets that a line holds, wherever comments or other quotes
are. Its matches, with the group of the quoted text, are the one pick of them from left to right
without overlap, and there is a match just if there is a secret. -/
theorem secrets_selected (l : Language) (line : Line) :
    (∃ ss : List Secret, Selects (Secret.Stands names line) ss ∧
      (∀ ts, Selects (Secret.Stands names line) ts → ts = ss) ∧
      ((ofHazard h).placed l line).map (fun m ↦ (m.whole, m.group? n)) =
        ss.map fun s ↦ (s.whole, some s.literal)) ∧
    (((ofHazard h).find? l line).isSome ↔ ∃ s : Secret, s.Stands names line) := by
  obtain ⟨-, -, -, hnames⟩ := of_mem_secretKinds hk
  obtain ⟨ss, hss, hmatches⟩ := exists_selects hk line
  rw [find?, placed_eq_matches hk]
  refine ⟨⟨ss, hss, fun ts hts ↦ ?_, hmatches⟩, ?_, ?_⟩
  · exact Selects.unique (fun s hs ↦ hs.lt) (fun s t hs ht ↦ hs.eq_of_start hnames ht) hss hts
  · intro hsome
    obtain ⟨m, hm⟩ := Option.isSome_iff_exists.1 hsome
    obtain ⟨s, hs, -⟩ := exists_stands_of_mem_matches hk (List.mem_of_head? hm)
    exact ⟨s, hs⟩
  · rintro ⟨s, hs⟩
    obtain ⟨m, hm, -⟩ := exists_match_of_stands hk hs
    rw [List.isSome_head?]
    exact List.ne_nil_of_mem hm

end Kinds

/-- A comment with two keys, and a third one within the quotes of the first. -/
def nestedLine : Line := "// apiKey = \"x api_key='y' z\", secretKey='w\"'".toList

theorem secrets_selected_nested :
    (.hardcodedApiKey, ["api_key", "apiKey", "secret_key", "secretKey"], 2) ∈ secretKinds ∧
      Selects (Secret.Stands ["api_key", "apiKey", "secret_key", "secretKey"] nestedLine)
        [⟨⟨3, 29⟩, ⟨12, 29⟩⟩, ⟨⟨31, 45⟩, ⟨41, 45⟩⟩] := by
  have hk : (.hardcodedApiKey, ["api_key", "apiKey", "secret_key", "secretKey"], 2) ∈ secretKinds := by
    simp [secretKinds]
  obtain ⟨⟨ss, hss, -, hmatches⟩, -⟩ := secrets_selected hk .script nestedLine
  have hplaced : ((ofHazard .hardcodedApiKey).placed .script nestedLine).map
      (fun m ↦ (m.whole, m.group? 2)) =
        [(⟨3, 29⟩, some ⟨12, 29⟩), (⟨31, 45⟩, some ⟨41, 45⟩)] := by decide +kernel
  rw [hplaced] at hmatches
  obtain rfl : ss = [⟨⟨3, 29⟩, ⟨12, 29⟩⟩, ⟨⟨31, 45⟩, ⟨41, 45⟩⟩] := by
    refine List.map_injective_iff.2 ?_ hmatches.symm
    rintro ⟨_, _⟩ ⟨_, _⟩ h
    simpa using h
  exact ⟨hk, hss⟩

end Steward.Detector
