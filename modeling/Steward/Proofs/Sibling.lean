import Steward.Proofs.Location

/-!
# The paths beside a file

The parent of a path is its text cut off before the last name, without the slashes and dots at the
end. A name put behind it is a path with the same parent, `Path.parent?_join_name`; so the steps of
all siblings are the same up to the last, `Path.names_sibling`.
-/

namespace Steward

open Location FileTree List

/-! ## Texts cut off at a slash -/

namespace FileTree

theorem names_append_slash (cs ds : List Char) :
    names (String.ofList (cs ++ '/' :: ds)) =
      names (String.ofList cs) ++ names (String.ofList ds) := by
  simp only [names, Path.split, String.toList_ofList, Path.splitFrom_append, filter_append]

theorem names_of_no_slash {cs : List Char} (hslash : '/' ∉ cs) (hne : cs ≠ []) :
    names (String.ofList cs) = [String.ofList cs] := by
  rw [names, Path.split, String.toList_ofList, Path.splitFrom_of_not_mem hslash]
  simpa using hne

end FileTree

namespace Path

variable {xs ys cs : List Char} {p u : Path} {n m : String}

/-- The text `ys` is `xs` cut off before a slash, or nothing. -/
def Cut (xs ys : List Char) : Prop := ys = [] ∨ ys = xs ∨ ∃ tail, xs = ys ++ '/' :: tail

theorem Cut.trans {zs : List Char} (h : Cut xs ys) (h' : Cut ys zs) : Cut xs zs := by
  obtain rfl | rfl | ⟨tail, rfl⟩ := h'
  · exact .inl rfl
  · exact h
  · obtain hnil | rfl | ⟨tail', rfl⟩ := h
    · simp at hnil
    · exact .inr (.inr ⟨tail, rfl⟩)
    · exact .inr (.inr ⟨tail ++ '/' :: tail', by simp⟩)

theorem Cut.isPrefix (h : Cut xs ys) : ys <+: xs := by
  obtain rfl | rfl | ⟨tail, rfl⟩ := h
  · exact nil_prefix
  · exact prefix_refl _
  · exact prefix_append _ _

theorem cut_trimEnd (cs : List Char) : Cut cs.reverse (trimEnd cs).reverse := by
  fun_induction trimEnd cs with
  | case1 cs ih => exact .trans (.inr (.inr ⟨[], by simp⟩)) ih
  | case2 => exact .inl rfl
  | case3 cs ih => exact .trans (.inr (.inr ⟨['.'], by simp⟩)) ih
  | case4 => exact .inr (.inl rfl)

/-- All that trimming takes away besides slashes is dots. -/
theorem exists_names_trimEnd (cs : List Char) :
    ∃ i, names (String.ofList cs.reverse) =
      names (String.ofList (trimEnd cs).reverse) ++ List.replicate i "." := by
  fun_induction trimEnd cs with
  | case1 cs ih =>
    rw [reverse_cons, names_append_slash]
    obtain ⟨i, hi⟩ := ih
    exact ⟨i, by rw [hi]; exact append_nil _⟩
  | case2 => exact ⟨1, by decide⟩
  | case3 cs ih =>
    obtain ⟨i, hi⟩ := ih
    refine ⟨i + 1, ?_⟩
    rw [reverse_cons, reverse_cons, append_assoc, singleton_append,
      names_append_slash, hi, append_assoc, replicate_succ']
    rfl
  | case4 => exact ⟨0, by simp⟩

/-- What is left ends in a text of its own. -/
theorem takeWhile_trimEnd (h : trimEnd cs ≠ []) :
    (trimEnd cs).takeWhile (· != '/') ≠ [] ∧ (trimEnd cs).takeWhile (· != '/') ≠ ['.'] := by
  fun_induction trimEnd cs with
  | case1 _ ih | case3 _ ih => exact ih h
  | case2 => exact absurd rfl h
  | case4 cs hslash hdot hdots =>
    cases cs with
    | nil => exact absurd rfl h
    | cons c cs =>
      have hc : c ≠ '/' := fun hc ↦ hslash cs (by rw [hc])
      rw [takeWhile_cons_of_pos (by simpa using hc)]
      refine ⟨by simp, fun hlone ↦ ?_⟩
      obtain ⟨rfl, hrest⟩ := List.cons.inj hlone
      cases cs with
      | nil => exact hdot rfl
      | cons d cs =>
        have hd : d = '/' := by
          by_contra hd
          simp [takeWhile_cons_of_pos (p := (· != '/')) (a := d) (by simpa using hd)] at hrest
        exact hdots cs (by rw [hd])

theorem trimEnd_trimEnd (cs : List Char) : trimEnd (trimEnd cs) = trimEnd cs := by
  fun_induction trimEnd cs with
  | case1 _ ih | case3 _ ih => exact ih
  | case2 => rfl
  | case4 cs hslash hdot hdots => exact trimEnd.eq_4 cs hslash hdot hdots

/-! ## What stands before the body -/

theorem head?_splitFrom (current cs : List Char) :
    (splitFrom current cs).head? =
      some (String.ofList (current.reverse ++ cs.takeWhile (· != '/'))) := by
  induction cs generalizing current with
  | nil => simp [splitFrom]
  | cons c cs ih =>
    rw [splitFrom]
    by_cases hc : c = '/'
    · simp [hc]
    · rw [if_neg hc, ih, takeWhile_cons_of_pos (by simpa using hc)]
      simp

theorem head?_split (text : String) :
    (split text).head? = some (String.ofList (text.toList.takeWhile (· != '/'))) := by
  rw [split, head?_splitFrom, reverse_nil, nil_append]

theorem takeWhile_slash_eq_nil_iff :
    cs.takeWhile (· != '/') = [] ↔ cs = [] ∨ cs.head? = some '/' := by
  cases cs with
  | nil => simp
  | cons c cs => by_cases hc : c = '/' <;> simp [hc]

/-- What stands before the body is told by the first text between slashes. -/
theorem lead_eq_of_head? {q : Path} (hp : p.text.toList ≠ []) (hq : q.text.toList ≠ [])
    (h : (split p.text).head? = (split q.text).head?) : p.lead = q.lead := by
  have habsolute {p : Path} (hp : p.text.toList ≠ []) :
      p.isAbsolute ↔ (split p.text).head? = some "" := by
    rw [isAbsolute, decide_eq_true_iff, head?_split, Option.some_inj, String.ofList_eq_empty_iff,
      takeWhile_slash_eq_nil_iff, or_iff_right hp]
  have hsame : p.isAbsolute = q.isAbsolute := by
    rw [Bool.eq_iff_iff, habsolute hp, habsolute hq, h]
  rw [lead, lead, hsame, startsHere, startsHere, h]

theorem isAbsolute_eq_of_lead {q : Path} (h : p.lead = q.lead) : p.isAbsolute = q.isAbsolute := by
  have hiff (p : Path) : p.isAbsolute ↔ p.lead = ['/'] := by
    rw [lead]
    split_ifs <;> simp [*]
  rw [Bool.eq_iff_iff, hiff, hiff, h]

/-- The body comes behind the start; behind a `.`, a slash is between. -/
theorem exists_text_eq (p : Path) :
    ∃ rest, p.text.toList = p.lead ++ rest ∧
      (p.lead = ['.'] → rest.takeWhile (· != '/') = []) := by
  rw [lead]
  split_ifs with habsolute hhere
  · obtain ⟨rest, hrest⟩ := head?_eq_some_iff.1 (of_decide_eq_true habsolute)
    exact ⟨rest, hrest, by simp⟩
  · have hhead := of_decide_eq_true hhere
    rw [head?_split, Option.some_inj, ← String.toList_inj, String.toList_ofList] at hhead
    cases htext : p.text.toList with
    | nil => simp [htext] at hhead
    | cons c rest =>
      rw [htext, takeWhile_cons] at hhead
      split_ifs at hhead
      · obtain ⟨rfl, hrest⟩ := List.cons.inj hhead
        exact ⟨rest, rfl, fun _ ↦ hrest⟩
      · cases hhead
  · exact ⟨p.text.toList, rfl, by simp⟩

theorem lead_cases (p : Path) : p.lead = ['/'] ∨ p.lead = ['.'] ∨ p.lead = [] := by
  rw [lead]
  split_ifs <;> simp

theorem Cut.takeWhile_eq_nil (h : Cut xs ys) (hxs : xs.takeWhile (· != '/') = []) :
    ys.takeWhile (· != '/') = [] := by
  obtain rfl | rfl | ⟨tail, rfl⟩ := h
  · rfl
  · exact hxs
  · cases ys with
    | nil => rfl
    | cons c ys =>
      rw [takeWhile_slash_eq_nil_iff] at hxs ⊢
      simpa using hxs

/-- Cutting the body off leaves what stands before it. -/
theorem lead_of_cut {rest body : List Char} (htext : p.text.toList = p.lead ++ rest)
    (hhere : p.lead = ['.'] → rest.takeWhile (· != '/') = []) (hcut : Cut rest body) :
    (Path.mk (String.ofList (p.lead ++ body))).lead = p.lead := by
  obtain hlead | hlead | hlead := lead_cases p
  · rw [hlead, lead, if_pos (by simp [isAbsolute])]
  · have hbody := hcut.takeWhile_eq_nil (hhere hlead)
    rw [hlead, lead, if_neg (by simp [isAbsolute]), if_pos]
    rw [startsHere, decide_eq_true_iff, head?_split, String.toList_ofList]
    simp [hbody]
  · rw [hlead, nil_append] at htext ⊢
    by_cases hnil : body = []
    · subst hnil
      decide
    rw [← hlead]
    obtain rfl | ⟨tail, hrest⟩ := hcut.resolve_left hnil
    · rw [← htext, String.ofList_toList]
    · refine lead_eq_of_head? (by simpa using hnil) (by simp [htext, hrest]) ?_
      rw [split, split, htext, hrest, splitFrom_append, String.toList_ofList,
        head?_append_of_ne_nil _ (splitFrom_ne_nil _ _)]

theorem names_of_lead {body : List Char} (hhere : p.lead = ['.'] → body.takeWhile (· != '/') = []) :
    names (String.ofList (p.lead ++ body)) =
      names (String.ofList p.lead) ++ names (String.ofList body) := by
  obtain hlead | hlead | hlead := lead_cases p
  · rw [hlead]
    exact names_append_slash [] body
  · rw [hlead]
    obtain rfl | hslash := takeWhile_slash_eq_nil_iff.1 (hhere hlead)
    · rfl
    · obtain ⟨body, rfl⟩ := head?_eq_some_iff.1 hslash
      exact (names_append_slash ['.'] body).trans
        (congrArg _ (names_append_slash [] body).symm)
  · rw [hlead]
    rfl

/-! ## Parents and siblings -/

/-- The text ends neither in a slash nor in a lone dot, what stands before the body aside. -/
def Trimmed (p : Path) : Prop := ∃ cs, p.text.toList = p.lead ++ (trimEnd cs).reverse

theorem properName_of_fileName? (h : p.fileName? = some n) : ProperName n ∧ n ∈ names p.text := by
  rw [fileName?] at h
  split at h
  case h_1 m hlast =>
    cases h
    obtain ⟨s, hs, hc⟩ | ⟨-, hc | hc⟩ := getLast?_components_cases hlast
    · obtain rfl : n = s := text_of_componentOf? hc
      have hslash := slash_not_mem_of_mem_split hs
      rw [componentOf?] at hc
      split_ifs at hc with hdot hup
      · cases hc
      rw [Bool.or_eq_true, decide_eq_true_iff, decide_eq_true_iff, not_or] at hdot
      exact ⟨⟨hdot.1, hdot.2, hup, hslash⟩, by simp [names, hs, hdot.1]⟩
    · cases hc
    · cases hc
  case h_2 => cases h

theorem filterMap_names (text : String) :
    (names text).filterMap componentOf? = (split text).filterMap componentOf? := by
  rw [names, filterMap_filter]
  refine filterMap_congr fun s _ ↦ ?_
  by_cases hs : s = "" <;> simp [hs, componentOf?]

/-- The last component is the last of the texts that counts. -/
theorem eq_of_fileName? {ss : List String} {j : Nat} (h : p.fileName? = some n)
    (hnames : names p.text = ss ++ [m] ++ List.replicate j ".") (hm : m ≠ ".") : m = n := by
  have hempty : m ≠ "" := by
    rintro rfl
    have hmem : "" ∈ names p.text := by simp [hnames]
    simp [names] at hmem
  obtain ⟨c, hc⟩ : ∃ c, componentOf? m = some c := by
    rw [componentOf?, if_neg (by simp [hempty, hm])]
    split_ifs <;> exact ⟨_, rfl⟩
  have hbody : (split p.text).filterMap componentOf? = ss.filterMap componentOf? ++ [c] := by
    rw [← filterMap_names, hnames, filterMap_append, filterMap_append,
      filterMap_cons_some hc, filterMap_nil]
    simp [componentOf?]
  have hlast : p.components.getLast? = some c := by
    simp only [components, hbody]
    split_ifs <;> simp [getLast?_cons]
  rw [fileName?, hlast] at h
  rw [← text_of_componentOf? hc]
  cases c with
  | name n' => exact Option.some_inj.1 h
  | top | here | up => cases h

theorem eq_dot_of_mem_names_lead {s : String} (hs : s ∈ names (String.ofList p.lead)) :
    s = "." := by
  obtain hlead | hlead | hlead := lead_cases p <;> rw [hlead] at hs
  · simp [names, split, splitFrom] at hs
  · simpa [names, split, splitFrom] using hs
  · simp [names, split, splitFrom] at hs

/-- The last text of what trimming leaves, and what comes before the slash in front of it. -/
theorem exists_names_last (h : trimEnd cs ≠ []) :
    Cut (trimEnd cs).reverse (((trimEnd cs).dropWhile (· != '/')).drop 1).reverse ∧
      ∃ m, m ≠ "." ∧ names (String.ofList (trimEnd cs).reverse) =
        names (String.ofList (((trimEnd cs).dropWhile (· != '/')).drop 1).reverse) ++ [m] := by
  obtain ⟨hne, hdot⟩ := takeWhile_trimEnd h
  generalize trimEnd cs = body at hne hdot
  have hbody := takeWhile_append_dropWhile (p := (· != '/')) (l := body)
  have hslash : '/' ∉ (body.takeWhile (· != '/')).reverse := by
    intro hmem
    simpa using mem_takeWhile_imp (mem_reverse.1 hmem)
  have hlast := names_of_no_slash hslash (by simpa using hne)
  have hhere : String.ofList (body.takeWhile (· != '/')).reverse ≠ "." := by
    intro heq
    refine hdot ?_
    simpa using congrArg (fun s : String ↦ s.toList.reverse) heq
  generalize body.takeWhile (· != '/') = last at hbody hlast hhere
  cases hafter : body.dropWhile (· != '/') with
  | nil =>
    rw [hafter, append_nil] at hbody
    subst hbody
    exact ⟨.inl rfl, _, hhere, hlast⟩
  | cons c front =>
    obtain rfl : c = '/' := by
      have hhead := head?_dropWhile_not (· != '/') body
      rw [hafter] at hhead
      simpa using hhead
    have hreverse : body.reverse = front.reverse ++ '/' :: last.reverse := by
      rw [← hbody, hafter]
      simp
    rw [hreverse, names_append_slash, hlast]
    exact ⟨.inr (.inr ⟨_, rfl⟩), _, hhere, rfl⟩

/-- A path that ends in a name has a parent. Besides that name, only dots are left out. -/
theorem parent?_of_fileName? (h : p.fileName? = some n) :
    ∃ u, p.parent? = some u ∧ u.lead = p.lead ∧ u.Trimmed ∧ u.text.toList <+: p.text.toList ∧
      ∃ i j, names p.text = names u.text ++ List.replicate i "." ++ [n] ++ List.replicate j "." := by
  obtain ⟨rest, htext, hhere⟩ := p.exists_text_eq
  have hp : names p.text = names (String.ofList p.lead) ++ names (String.ofList rest) := by
    rw [← names_of_lead hhere, ← htext, String.ofList_toList]
  obtain ⟨j, hj⟩ := exists_names_trimEnd rest.reverse
  have hcut := cut_trimEnd rest.reverse
  rw [reverse_reverse] at hj hcut
  have hne : trimEnd rest.reverse ≠ [] := by
    intro hnil
    obtain ⟨hn, hmem⟩ := properName_of_fileName? h
    rw [hp, hj, hnil, mem_append, mem_append] at hmem
    obtain hmem | hmem | hmem := hmem
    · exact hn.ne_here (eq_dot_of_mem_names_lead hmem)
    · simp [names, split, splitFrom] at hmem
    · exact hn.ne_here (eq_of_mem_replicate hmem)
  have hparent : p.parent? = some ⟨String.ofList (p.lead ++
      (trimEnd (((trimEnd rest.reverse).dropWhile (· != '/')).drop 1)).reverse)⟩ := by
    simp only [parent?, htext, drop_left]
    rw [if_neg (by simpa using hne)]
  obtain ⟨hfront, m, hm, hlast⟩ := exists_names_last hne
  generalize ((trimEnd rest.reverse).dropWhile (· != '/')).drop 1 = front at hparent hfront hlast
  obtain ⟨i, hi⟩ := exists_names_trimEnd front
  have hcut' := (hcut.trans hfront).trans (cut_trimEnd front)
  have hlead := lead_of_cut htext hhere hcut'
  have hnames : names p.text = names (String.ofList (p.lead ++ (trimEnd front).reverse)) ++
      List.replicate i "." ++ [m] ++ List.replicate j "." := by
    rw [names_of_lead fun hdot ↦ hcut'.takeWhile_eq_nil (hhere hdot), hp, hj, hlast, hi]
    simp only [append_assoc]
  obtain rfl := eq_of_fileName? h hnames hm
  refine ⟨_, hparent, hlead, ⟨front, by rw [hlead, String.toList_ofList]⟩, ?_, i, j, hnames⟩
  rw [String.toList_ofList, htext]
  exact (prefix_append_right_inj _).2 hcut'.isPrefix

/-- A name comes right behind a trimmed path that has no body, and else behind a slash. -/
theorem toList_join_name (hu : u.text.toList = u.lead ++ (trimEnd cs).reverse) (hm : ProperName m) :
    trimEnd cs = [] ∧ u.lead ≠ ['.'] ∧ (u.join m).text.toList = u.lead ++ m.toList ∨
      u.text.toList ≠ [] ∧ (u.join m).text.toList = u.text.toList ++ '/' :: m.toList := by
  have hhead : m.toList.head? ≠ some '/' := fun hhead ↦ hm.no_slash (mem_of_head? hhead)
  rw [join, if_neg hhead]
  split_ifs with hend
  · left
    rw [Bool.or_eq_true, List.isEmpty_iff, decide_eq_true_iff] at hend
    by_cases hnil : trimEnd cs = []
    · rw [hnil, reverse_nil, append_nil] at hu
      refine ⟨hnil, fun hdot ↦ ?_, by rw [String.toList_append, hu]⟩
      simp [hu, hdot] at hend
    · obtain ⟨hne, -⟩ := takeWhile_trimEnd hnil
      rw [Ne, takeWhile_slash_eq_nil_iff, not_or] at hne
      rw [hu] at hend
      simp [hnil, hne] at hend
  · rw [Bool.or_eq_true, not_or, List.isEmpty_iff] at hend
    exact .inr ⟨hend.1, by simp⟩

theorem lead_join_name (hu : u.Trimmed) (hm : ProperName m) : (u.join m).lead = u.lead := by
  obtain ⟨cs, hu⟩ := hu
  obtain ⟨-, hdot, htext⟩ | ⟨hne, htext⟩ := toList_join_name hu hm
  · obtain hlead | hlead | hlead := u.lead_cases
    · rw [hlead, lead, if_pos (by simp [isAbsolute, htext, hlead])]
    · exact absurd hlead hdot
    · rw [hlead, nil_append] at htext
      have hhead : m.toList.head? ≠ some '/' := fun hhead ↦ hm.no_slash (mem_of_head? hhead)
      rw [hlead, lead, if_neg (by simpa [isAbsolute, htext] using hhead), if_neg]
      rw [startsHere, decide_eq_true_iff, split, htext, splitFrom_of_not_mem hm.no_slash]
      simpa using hm.ne_here
  · refine lead_eq_of_head? (by simp [htext]) hne ?_
    rw [split, htext, splitFrom_append, head?_append_of_ne_nil _ (splitFrom_ne_nil _ _), split]

/-- The parent of a name behind a path is that path. -/
theorem parent?_join_name (hu : u.Trimmed) (hm : ProperName m) : (u.join m).parent? = some u := by
  have hlead := lead_join_name hu hm
  obtain ⟨cs, hu⟩ := hu
  -- Backwards, the name comes first; then the slash and the body of the parent, if it has one.
  obtain ⟨tail, hback, htail, hbody⟩ : ∃ tail,
      ((u.join m).text.toList.drop u.lead.length).reverse = m.toList.reverse ++ tail ∧
        tail.dropWhile (· != '/') = tail ∧ trimEnd (tail.drop 1) = trimEnd cs := by
    obtain ⟨hnil, -, htext⟩ | ⟨-, htext⟩ := toList_join_name hu hm
    · exact ⟨[], by simp [htext], rfl, hnil.symm⟩
    · exact ⟨'/' :: trimEnd cs, by simp [htext, hu], rfl, trimEnd_trimEnd cs⟩
  have hne := hm.toList_ne_nil
  have hname : ∀ c ∈ m.toList.reverse, (c != '/') = true := by
    intro c hc
    have : c ≠ '/' := fun hs ↦ hm.no_slash (by simpa [hs] using hc)
    simpa using this
  simp only [parent?, hlead, hback, trimEnd_name hm, dropWhile_append_of_pos hname, htail, hbody]
  rw [if_neg (by simp [hne]), ← hu, String.ofList_toList]

theorem getLast?_split_join_name (hu : u.Trimmed) (hm : ProperName m) :
    (split (u.join m).text).getLast? = some m := by
  obtain ⟨cs, hu⟩ := hu
  rw [split]
  obtain ⟨-, hdot, htext⟩ | ⟨-, htext⟩ := toList_join_name hu hm
  · obtain hlead | hlead | hlead := u.lead_cases
    · rw [htext, hlead]
      exact getLast?_splitFrom [] [] hm.no_slash
    · exact absurd hlead hdot
    · rw [htext, hlead, nil_append, splitFrom_of_not_mem hm.no_slash]
      simp
  · rw [htext]
    exact getLast?_splitFrom [] _ hm.no_slash

theorem fileName?_join_name (hu : u.Trimmed) (hm : ProperName m) :
    (u.join m).fileName? = some m := by
  rw [fileName?, getLast?_components (getLast?_split_join_name hu hm) hm.componentOf?_eq]

theorem names_join_name (hu : u.Trimmed) (hm : ProperName m) :
    names (u.join m).text = names u.text ++ [m] := by
  have hne := hm.toList_ne_nil
  have hname : names (String.ofList m.toList) = [m] := by
    rw [names_of_no_slash hm.no_slash hne, String.ofList_toList]
  obtain ⟨cs, hu⟩ := hu
  rw [← String.ofList_toList (s := (u.join m).text), ← String.ofList_toList (s := u.text)]
  obtain ⟨hnil, hdot, htext⟩ | ⟨-, htext⟩ := toList_join_name hu hm
  · rw [htext, hu, hnil, names_of_lead fun hlead ↦ absurd hlead hdot, hname, reverse_nil,
      append_nil]
  · rw [htext, names_append_slash, hname]

theorem steps_join_name (hu : u.Trimmed) (hm : ProperName m) :
    steps (u.join m).text = names u.text ++ [m] := by
  rw [steps, getLast?_split_join_name hu hm, if_neg (by simp [hm.ne_empty]),
    names_join_name hu hm]

/-- The sibling of a path that ends in a name is another name behind its parent. -/
theorem sibling_eq_join (hn : p.fileName? = some n) (hu : p.parent? = some u) (suffix : String) :
    p.sibling suffix = u.join (n ++ suffix) := by
  simp only [sibling, withFileName, hn, hu, Option.getD_some]

end Path

end Steward
