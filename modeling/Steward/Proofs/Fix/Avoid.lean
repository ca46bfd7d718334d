import Steward.Proofs.Fix.Burden
import Steward.Proofs.Fix.Splice

/-!
# What a fix writes is not found again

The texts that patterns take open in different ways, so what a pattern takes tells its hazard,
`Detector.eq_of_opens`. And for each hazard whose fix rewrites code, what the fix writes is not taken
by the pattern, alone or together with what stands beside it.
-/

namespace Steward

open Text (Line Blanks)
open List

namespace Detector

open Pattern Text

variable {l : Language} {pre w post : List Char} {gs gs' : Groups}

/-! ## What a pattern takes names its hazard -/

/-- The texts with which the matches of a hazard open. -/
def openings : Hazard → List String
  | .hardcodedPassword => ["password"]
  | .hardcodedApiKey => ["api_key", "apiKey", "secret_key", "secretKey"]
  | .awsAccessKey => ["AKIA"]
  | .dangerousEval => ["eval("]
  | .bareExcept => ["except"]
  | .commandInjection => ["execSync(", "exec(", "spawn("]
  | .consoleLog => ["console.log("]
  | .anyType => [":"]
  | .todoComment => ["TODO", "FIXME", "XXX"]

/-- The text opens as the matches of the hazard do. -/
def Opens (h : Hazard) (w : List Char) : Prop := ∃ s ∈ openings h, s.toList <+: w

theorem eq_of_opens {h h' : Hazard} (hw : Opens h w) (hw' : Opens h' w) : h = h' := by
  have hapart : ∀ h h' : Hazard, h ≠ h' → ∀ s ∈ openings h, ∀ s' ∈ openings h',
      ¬s.toList <+: s'.toList := by
    intro h h'
    cases h <;> cases h' <;> decide
  obtain ⟨s, hs, hopen⟩ := hw
  obtain ⟨s', hs', hopen'⟩ := hw'
  by_contra hne
  rcases prefix_or_prefix_of_prefix hopen hopen' with hle | hle
  · exact hapart h h' hne s hs s' hs' hle
  · exact hapart h' h (Ne.symm hne) s' hs' s hs hle

theorem opens_command {name : String} (hname : name ∈ ["execSync", "exec", "spawn"])
    (rest : List Char) : Opens .commandInjection (name.toList ++ '(' :: rest) := by
  fin_cases hname
  · exact ⟨"execSync(", by decide, ⟨rest, rfl⟩⟩
  · exact ⟨"exec(", by decide, ⟨rest, rfl⟩⟩
  · exact ⟨"spawn(", by decide, ⟨rest, rfl⟩⟩

theorem opens_of_takes {h : Hazard} (hw : Takes (ofHazard h).pattern pre w post gs gs') :
    Opens h w := by
  cases h with
  | hardcodedPassword =>
    obtain ⟨sign, literal, rfl, -⟩ := takes_passwordPattern hw
    exact ⟨"password", by decide, by simp⟩
  | hardcodedApiKey =>
    obtain ⟨name, hname, sign, literal, rfl, -⟩ := takes_apiKeyPattern hw
    exact ⟨name, hname, by simp⟩
  | awsAccessKey =>
    obtain ⟨-, h⟩ := takes_append_edge hw
    obtain ⟨_, v, _, rfl, h, -⟩ := takes_append h
    obtain ⟨-, h⟩ := takes_edge_append h
    obtain ⟨rfl, -⟩ := takes_text h
    exact ⟨"AKIA", by decide, prefix_append _ v⟩
  | dangerousEval =>
    obtain ⟨rfl, -⟩ := takes_evalPattern hw
    exact ⟨"eval(", by decide, prefix_rfl⟩
  | bareExcept =>
    obtain ⟨b, rfl, -⟩ := takes_exceptPattern hw
    exact ⟨"except", by decide, by simp⟩
  | commandInjection =>
    obtain ⟨name, hname, b, var, b', c, rfl, -⟩ := takes_commandPattern hw
    simpa using opens_command hname (b ++ (var ++ (b' ++ [c])))
  | consoleLog =>
    obtain ⟨rfl, -⟩ := takes_consolePattern hw
    exact ⟨"console.log(", by decide, prefix_rfl⟩
  | anyType =>
    obtain ⟨b, rfl, -⟩ := takes_anyPattern hw
    exact ⟨":", by decide, by simp⟩
  | todoComment =>
    obtain ⟨marker, hmarker, rfl, -⟩ := takes_todoPattern hw
    exact ⟨marker, hmarker, prefix_rfl⟩

theorem takes_ne_nil {h : Hazard} (hw : Takes (ofHazard h).pattern pre w post gs gs') : w ≠ [] := by
  rintro rfl
  obtain ⟨s, hs, hopen⟩ := opens_of_takes hw
  have hsome : ∀ h : Hazard, ∀ s ∈ openings h, s.toList ≠ [] := by
    intro h
    cases h <;> decide
  exact hsome h s hs (prefix_nil.1 hopen)

/-! ## What a fix writes is not found again -/

open Steward.Fix

variable {code : Snippet}

theorem avoids_eval (hcode : literalParser? l = some code) (pre post : List Char) :
    Avoids evalPattern pre code.1.toList post := by
  intro x v y gs gs' htakes hline
  obtain ⟨rfl, hx⟩ := takes_evalPattern htakes
  have hcall : ∃ name ∈ ["ast.literal_eval", "JSON.parse", "json_decode"],
      code.1.toList = name.toList ++ ['('] := by
    cases l <;> cases hcode <;> decide
  obtain ⟨name, hname, hcall⟩ := hcall
  have hopen : '(' ∉ name.toList := by fin_cases hname <;> decide
  have hcut : (x ++ "eval".toList) ++ '(' :: y = pre ++ code.1.toList ++ post := by simpa using hline
  rcases stands hcut with ⟨r, hpre, hy⟩ | ⟨u, u', hw, hu, -⟩ | ⟨r, hr, hpost⟩
  · exact .inl ⟨r, by simp [hpre], hy⟩
  · obtain ⟨rfl, -, -⟩ := (append_cons_inj_of_notMem hopen (by simp)).1 (hcall.symm.trans hw)
    exfalso
    simp only [mem_cons, not_mem_nil, or_false] at hname
    rcases hname with rfl | rfl | rfl
    · have hpre : x = pre ++ "ast.literal_".toList :=
        append_inj_left' (by simpa using hu) rfl
      rw [hpre, getLast?_append] at hx
      cases hx
    · exact absurd (congrArg List.getLast? hu) (by simp)
    · exact absurd (congrArg List.getLast? hu) (by simp)
  · obtain ⟨s, hs, rfl⟩ := exists_right_of_append hr (by simp [hcall])
    exact .inr ⟨s, hs, by simp [hpost]⟩

theorem avoids_except (pre post : List Char) :
    Avoids exceptPattern pre "except Exception as e:".toList post := by
  intro x v y gs gs' htakes hline
  obtain ⟨b, rfl, hb, -⟩ := takes_exceptPattern htakes
  have hcut : (x ++ ("except".toList ++ b)) ++ ':' :: y =
      pre ++ "except Exception as e:".toList ++ post := by simpa using hline
  rcases stands hcut with ⟨r, hpre, hy⟩ | ⟨u, u', hw, hu, -⟩ | ⟨r, hr, hpost⟩
  · exact .inl ⟨r, by simp [hpre], hy⟩
  · have hsplit : "except Exception as e".toList ++ ':' :: [] = u ++ ':' :: u' := hw
    obtain ⟨rfl, -, -⟩ := (append_cons_inj_of_notMem (by decide) (by simp)).1 hsplit
    -- the character before the colon is part of a word
    have hlast := congrArg List.getLast? hu
    rcases b.eq_nil_or_concat with rfl | ⟨b, c, rfl⟩
    · simp at hlast
    · have hc := hb c (by simp)
      rw [concat_eq_append, ← append_assoc, ← append_assoc, getLast?_concat] at hlast
      obtain rfl : c = 'e' := by simpa using hlast
      cases hc
  · have hcolon : ':' ∉ "except".toList ++ b :=
      not_mem_append (by decide) (notMem_of_blanks hb rfl)
    obtain ⟨s, hs, rfl⟩ := exists_right_of_append hr (by simpa using hcolon)
    exact .inr ⟨s, hs, by simp [hpost]⟩

theorem avoids_any (pre post : List Char) : Avoids anyPattern pre ": unknown".toList post := by
  intro x v y gs gs' htakes hline
  obtain ⟨b, rfl, hb, -⟩ := takes_anyPattern htakes
  have hcut : x ++ ':' :: (b ++ "any".toList ++ y) = pre ++ ": unknown".toList ++ post := by
    simpa using hline
  rcases stands hcut with ⟨r, hpre, hy⟩ | ⟨u, u', hw, hu, hy⟩ | ⟨r, hr, hpost⟩
  · have hcolon : ':' ∉ b ++ "any".toList :=
      not_mem_append (notMem_of_blanks hb rfl) (by decide)
    obtain ⟨s, rfl, hs⟩ := exists_left_of_append hy (by simpa using hcolon)
    exact .inl ⟨s, by simp [hpre], hs⟩
  · have hsplit : [] ++ ':' :: " unknown".toList = u ++ ':' :: u' := hw
    obtain ⟨rfl, -, rfl⟩ := (append_cons_inj_of_notMem (by simp) (by decide)).1 hsplit
    -- after the space comes neither more of it nor `any`
    rcases b with _ | ⟨c, _ | ⟨c', b⟩⟩
    · simp at hy
    · simp at hy
    · have hc := hb c' (by simp)
      simp at hy
      rw [hy.2.1] at hc
      cases hc
  · exact .inr ⟨r, hr, by simp [hpost]⟩

/-- The new texts of closed markers hold no marker, and no part of one goes on behind them. -/
theorem avoids_todo {marker : String} (hmarker : marker ∈ ["TODO", "FIXME", "XXX"])
    (pre post : List Char) : Avoids todoPattern pre (closedMarker marker).toList post := by
  intro x v y gs gs' htakes hline
  obtain ⟨found, hfound, rfl, -⟩ := takes_todoPattern htakes
  obtain ⟨d, t, ht⟩ : ∃ d t, found.toList = d :: t := by fin_cases hfound <;> exact ⟨_, _, rfl⟩
  have hcut : x ++ d :: (t ++ y) = pre ++ (closedMarker marker).toList ++ post := by
    simpa [ht] using hline
  rcases stands hcut with ⟨r, hpre, hy⟩ | ⟨u, u', hw, hu, hy⟩ | ⟨r, hr, hpost⟩
  · have hhead : ∀ c ∈ ((closedMarker marker).toList ++ post).head?, c ∉ t := by
      have htick : ((closedMarker marker).toList ++ post).head? = some '✓' := by
        fin_cases hmarker <;> rfl
      have hnot : '✓' ∉ found.toList := by fin_cases hfound <;> decide
      rw [htick]
      rintro _ ⟨⟩ hmem
      exact hnot (ht ▸ mem_cons_of_mem d hmem)
    obtain ⟨s, rfl, hs⟩ := exists_left_of_append hy hhead
    exact .inl ⟨s, by simp [hpre, ht], hs⟩
  · exfalso
    have hnot : ∀ found ∈ ["TODO", "FIXME", "XXX"], ∀ marker ∈ ["TODO", "FIXME", "XXX"],
        ∀ s ∈ (closedMarker marker).toList.tails, s ≠ [] →
          ¬found.toList <+: s ∧ ¬s <+: found.toList := by decide
    have htail : d :: u' ∈ (closedMarker marker).toList.tails :=
      (mem_tails ..).2 ⟨u, hw.symm⟩
    obtain ⟨hshort, hlong⟩ := hnot found hfound marker hmarker _ htail (cons_ne_nil d u')
    have hsame : found.toList ++ y = d :: u' ++ post := by simp [ht, hy]
    rcases prefix_or_prefix_of_prefix (prefix_append found.toList y)
      (hsame ▸ prefix_append (d :: u') post) with hle | hle
    · exact hshort hle
    · exact hlong hle
  · exact .inr ⟨r, hr, by simp [hpost, ht]⟩

/-- The call that quotes an argument for the shell. -/
theorem exists_call_of_shellQuote? {var : List Char} (hvar : Variable var)
    (hcode : shellQuote? l (String.ofList var) = some code) :
    ∃ f ∈ ["shlex.quote", "quote", "Shellwords.escape", "escapeshellarg"], ∃ g,
      code.1.toList = f.toList ++ '(' :: g ∧ '(' ∉ g := by
  have hopen : '(' ∉ var := fun h ↦ absurd (hvar.2 _ h) (by decide)
  obtain ⟨q, hq, hcode⟩ := shellQuote?_cases hcode
  cases l with
  | python =>
    cases hq
    exact ⟨"shlex.quote", by decide, _, hcode, not_mem_append hopen (by decide)⟩
  | script =>
    cases hq
    exact ⟨"quote", by decide, '[' :: _, hcode,
      not_mem_cons_of_ne_of_not_mem (by decide) (not_mem_append hopen (by decide))⟩
  | ruby =>
    cases hq
    exact ⟨"Shellwords.escape", by decide, _, hcode, not_mem_append hopen (by decide)⟩
  | php =>
    cases hq
    exact ⟨"escapeshellarg", by decide, _, hcode, not_mem_append hopen (by decide)⟩
  | go | shell | rust | cFamily | jvm | cSharp | swift | other => cases hq

/-- A command has no parenthesis in the arguments that are looked at. -/
theorem takes_commandPattern_args (h : Takes commandPattern pre w post gs gs') :
    ∃ name ∈ ["execSync", "exec", "spawn"], ∃ args e, w = name.toList ++ '(' :: (args ++ [e]) ∧
      '(' ∉ args ∧ (e = ',' ∨ e = ')') := by
  obtain ⟨name, hname, b, var, b', e, rfl, hb, hvar, hb', he, -, -⟩ := takes_commandPattern h
  refine ⟨name, hname, b ++ var ++ b', e, by simp, ?_, he⟩
  refine not_mem_append (not_mem_append (notMem_of_blanks hb rfl) fun h ↦ ?_)
    (notMem_of_blanks hb' rfl)
  exact absurd (hvar.2 _ h) (by decide)

/-- A command whose argument is a call: neither is found, as the call has another name. -/
theorem avoids_call {name : String} {inner rest : List Char}
    (hname : name ∈ ["execSync", "exec", "spawn"])
    (hinner : '(' ∉ inner ∧ ',' ∉ inner ∧ ')' ∉ inner)
    (hlast : inner.getLast? = some 'e' ∨ inner.getLast? = some 'g') (hrest : '(' ∉ rest)
    (hend : rest.getLast? = some ',' ∨ rest.getLast? = some ')') (pre post : List Char) :
    Avoids commandPattern pre (name.toList ++ '(' :: (inner ++ '(' :: rest)) post := by
  intro x v y gs gs' htakes hline
  obtain ⟨name', hname', args, e, rfl, hargs, he⟩ := takes_commandPattern_args htakes
  have hword {n : String} (hn : n ∈ ["execSync", "exec", "spawn"]) :
      '(' ∉ n.toList ∧ ',' ∉ n.toList ∧ ')' ∉ n.toList := by fin_cases hn <;> decide
  have hends {cs : List Char} (hcs : ',' ∉ cs ∧ ')' ∉ cs) : e ∉ cs := by
    rcases he with rfl | rfl
    · exact hcs.1
    · exact hcs.2
  have hopen : '(' ∉ args ++ [e] :=
    not_mem_append hargs (by rcases he with rfl | rfl <;> decide)
  have hcut : (x ++ name'.toList) ++ '(' :: ((args ++ [e]) ++ y) =
      pre ++ (name.toList ++ '(' :: (inner ++ '(' :: rest)) ++ post := by simpa using hline
  rcases stands hcut with ⟨r, hpre, hy⟩ | ⟨u, u', hw, hu, hy⟩ | ⟨r, hr, hpost⟩
  · have hsplit : (args ++ [e]) ++ y = (r ++ name.toList) ++ '(' :: (inner ++ '(' :: rest ++ post) := by
      simpa using hy
    obtain ⟨s, hs, rfl⟩ := exists_left_of_append hsplit (by simpa using hopen)
    have hmiddle : args ++ e :: s = r ++ name.toList := by simpa using hs.symm
    rcases cut hmiddle with ⟨s', rfl, rfl⟩ | ⟨s', -, hmem⟩
    · exact .inl ⟨s', by simp [hpre], by simp⟩
    · exact absurd (by simp [hmem]) (hends (hword hname).2)
  · exfalso
    rcases cut hw.symm with ⟨s, hs, -⟩ | ⟨s, rfl, hs⟩
    · exact (hword hname).1 (by simp [hs])
    rcases s with _ | ⟨_, s⟩
    · -- the command itself: its arguments would end in the name of the call
      obtain ⟨-, rfl⟩ := List.cons.inj hs
      have hsplit : (args ++ [e]) ++ y = inner ++ '(' :: (rest ++ post) := by simpa using hy
      obtain ⟨s, hs, -⟩ := exists_left_of_append hsplit (by simpa using hopen)
      exact hends hinner.2 (by simp [hs])
    · -- the call in its argument
      obtain ⟨rfl, hcall⟩ := List.cons.inj hs
      obtain ⟨rfl, -, -⟩ := (append_cons_inj_of_notMem hinner.1 hrest).1 hcall
      have hchar := congrArg List.getLast? hu
      rcases hlast with hlast | hlast <;> fin_cases hname' <;>
        simp [getLast?_append, getLast?_cons, hlast] at hchar
  · have hfinal : ∀ d ∈ (pre ++ (name.toList ++ '(' :: (inner ++ '(' :: rest))).getLast?,
        d ∉ name'.toList := by
      have hsame : (pre ++ (name.toList ++ '(' :: (inner ++ '(' :: rest))).getLast? =
          rest.getLast? := by
        rcases hend with hend | hend <;> simp [getLast?_append, getLast?_cons, hend]
      rw [hsame]
      rcases hend with hend | hend <;> rw [hend] <;> rintro _ ⟨⟩
      · exact (hword hname').2.1
      · exact (hword hname').2.2
    obtain ⟨s, hs, rfl⟩ := exists_right_of_append hr hfinal
    exact .inr ⟨s, hs, by simp [hpost]⟩

theorem avoids_command {name : String} {b var b' : List Char} {c : Char}
    (hname : name ∈ ["execSync", "exec", "spawn"]) (hb : Blanks b) (hvar : Variable var)
    (hb' : Blanks b') (hc : c = ',' ∨ c = ')')
    (hcode : shellQuote? l (String.ofList var) = some code) (pre post : List Char) :
    Avoids commandPattern pre (name.toList ++ '(' :: b ++ code.1.toList ++ (b' ++ [c])) post := by
  obtain ⟨f, hf, g, hcall, hg⟩ := exists_call_of_shellQuote? hvar hcode
  have hnew : name.toList ++ '(' :: b ++ code.1.toList ++ (b' ++ [c]) =
      name.toList ++ '(' :: ((b ++ f.toList) ++ '(' :: (g ++ b' ++ [c])) := by simp [hcall]
  have hplain {d : Char} (hd : d ∈ ['(', ',', ')']) : d ∉ b ++ f.toList := by
    fin_cases hd <;> refine not_mem_append (notMem_of_blanks hb rfl) ?_ <;>
      fin_cases hf <;> decide
  rw [hnew]
  refine avoids_call hname ⟨hplain (by simp), hplain (by simp), hplain (by simp)⟩ ?_ ?_ ?_ pre post
  · fin_cases hf <;> simp [getLast?_append]
  · refine not_mem_append (not_mem_append hg (notMem_of_blanks hb' rfl)) ?_
    rcases hc with rfl | rfl <;> decide
  · rcases hc with rfl | rfl <;> simp

end Detector

end Steward
