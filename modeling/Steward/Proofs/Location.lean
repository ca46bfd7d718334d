import Mathlib
import Steward.FileTree

/-!
# The text of a place

The path of a place is its names behind slashes. If the names are such that a path can tell them
apart, `Location.Proper`, then the steps and the components of that path are the names again.
-/

namespace Steward

open List

/-! ## Texts between slashes -/

namespace Path

variable {cs : List Char}

theorem splitFrom_of_not_mem (h : '/' ∉ cs) (current : List Char) :
    splitFrom current cs = [String.ofList (current.reverse ++ cs)] := by
  induction cs generalizing current with
  | nil => simp [splitFrom]
  | cons c cs ih =>
    have hc : c ≠ '/' := fun e ↦ h (e ▸ mem_cons_self)
    have hcs : '/' ∉ cs := fun m ↦ h (mem_cons_of_mem _ m)
    simp [splitFrom, hc, ih hcs]

theorem splitFrom_append_slash (h : '/' ∉ cs) (current rest : List Char) :
    splitFrom current (cs ++ '/' :: rest) =
      String.ofList (current.reverse ++ cs) :: splitFrom [] rest := by
  induction cs generalizing current with
  | nil => simp [splitFrom]
  | cons c cs ih =>
    have hc : c ≠ '/' := fun e ↦ h (e ▸ mem_cons_self)
    have hcs : '/' ∉ cs := fun m ↦ h (mem_cons_of_mem _ m)
    simp [splitFrom, hc, ih hcs]

theorem slash_not_mem_of_mem_splitFrom {current : List Char} (hcurrent : '/' ∉ current) {s : String}
    (hs : s ∈ splitFrom current cs) : '/' ∉ s.toList := by
  induction cs generalizing current with
  | nil =>
    rw [splitFrom, mem_singleton] at hs
    simpa [hs] using hcurrent
  | cons c cs ih =>
    rw [splitFrom] at hs
    split_ifs at hs with hc
    · rcases mem_cons.1 hs with rfl | hs
      · simpa using hcurrent
      · exact ih (by simp) hs
    · exact ih (by simp [hcurrent, Ne.symm hc]) hs

theorem slash_not_mem_of_mem_split {text s : String} (hs : s ∈ split text) : '/' ∉ s.toList :=
  slash_not_mem_of_mem_splitFrom (by simp) hs

end Path

namespace Location

variable {k l r ns : Location} {n suffix : String}

/-- A text that can be a name within a path. -/
structure ProperName (n : String) : Prop where
  ne_empty : n ≠ ""
  ne_here : n ≠ "."
  ne_up : n ≠ ".."
  no_slash : '/' ∉ n.toList

/-- A place whose names can all be names within a path. -/
def Proper (l : Location) : Prop := ∀ n ∈ l, ProperName n

theorem ProperName.toList_ne_nil (h : ProperName n) : n.toList ≠ [] :=
  mt String.toList_eq_nil_iff.1 h.ne_empty

theorem ProperName.componentOf?_eq (h : ProperName n) : Path.componentOf? n = some (.name n) := by
  simp [Path.componentOf?, h.ne_empty, h.ne_here, h.ne_up]

instance (n : String) : Decidable (ProperName n) :=
  decidable_of_iff (n ≠ "" ∧ n ≠ "." ∧ n ≠ ".." ∧ '/' ∉ n.toList)
    ⟨fun h ↦ ⟨h.1, h.2.1, h.2.2.1, h.2.2.2⟩, fun h ↦ ⟨h.ne_empty, h.ne_here, h.ne_up, h.no_slash⟩⟩

instance (l : Location) : Decidable l.Proper := inferInstanceAs (Decidable (∀ n ∈ l, ProperName n))

@[simp]
theorem proper_nil : Proper [] := by simp [Proper]

@[simp]
theorem proper_append (l k : Location) : Proper (l ++ k) ↔ Proper l ∧ Proper k := by
  simp only [Proper, mem_append, or_imp, forall_and]

@[simp]
theorem proper_singleton (n : String) : Proper [n] ↔ ProperName n := by simp [Proper]

theorem Proper.of_isPrefix (h : Proper l) (hk : k <+: l) : Proper k :=
  fun n hn ↦ h n (hk.subset hn)

/-- The text of a place below the top: each name behind a slash. -/
theorem toList_path (hl : l ≠ []) : l.path.text.toList = l.flatMap fun n ↦ '/' :: n.toList := by
  have hcat (n : String) (l : Location) :
      ['/'].intercalate ((n :: l).map String.toList) =
        n.toList ++ l.flatMap fun n ↦ '/' :: n.toList := by
    induction l generalizing n with
    | nil => simp [List.intercalate]
    | cons m l ih =>
      rw [map_cons, map_cons, intercalate_cons_cons, ← map_cons, ih]
      simp
  obtain ⟨n, l, rfl⟩ := exists_cons_of_ne_nil hl
  rw [path, String.toList_append, String.toList_intercalate]
  simpa using hcat n l

theorem toList_path_isPrefix (h : k <+: l) : k.path.text.toList <+: l.path.text.toList := by
  obtain ⟨tl, rfl⟩ := h
  by_cases htl : tl = []
  · simp [htl]
  · rw [toList_path (append_ne_nil_of_right_ne_nil k htl), flatMap_append]
    by_cases hk : k = []
    · obtain ⟨n, tl, rfl⟩ := exists_cons_of_ne_nil htl
      subst hk
      exact ⟨n.toList ++ tl.flatMap fun n ↦ '/' :: n.toList, by simp [path]⟩
    · rw [toList_path hk]
      exact prefix_append _ _

/-- A path is no longer than one that goes on from it. -/
theorem isOverlong_of_text_isPrefix {p q : Path} (h : p.text.toList <+: q.text.toList)
    (hq : FileTree.isOverlong q = false) : FileTree.isOverlong p = false := by
  obtain ⟨cs, hcs⟩ := h
  have htext : q.text = p.text ++ String.ofList cs := by
    rw [← String.toList_inj, String.toList_append, String.toList_ofList, hcs]
  rw [FileTree.isOverlong, decide_eq_false_iff_not, htext, String.utf8ByteSize_append] at hq
  rw [FileTree.isOverlong, decide_eq_false_iff_not]
  omega

theorem isOverlong_of_isPrefix (h : k <+: l) (hl : FileTree.isOverlong l.path = false) :
    FileTree.isOverlong k.path = false :=
  isOverlong_of_text_isPrefix (toList_path_isPrefix h) hl

theorem isAbsolute_path (l : Location) : l.path.isAbsolute = true := by
  simp [Path.isAbsolute, path]

/-- The texts between the slashes are the names, behind the empty text before the first slash. -/
theorem split_path (hl : l ≠ []) (h : ∀ n ∈ l, '/' ∉ n.toList) :
    Path.split l.path.text = "" :: l := by
  have hfrom (l : Location) (h : ∀ n ∈ l, '/' ∉ n.toList) (n : String) (hn : '/' ∉ n.toList) :
      Path.splitFrom [] (n.toList ++ l.flatMap fun n ↦ '/' :: n.toList) = n :: l := by
    induction l generalizing n with
    | nil => simp [Path.splitFrom_of_not_mem hn]
    | cons m l ih =>
      have hm : '/' ∉ m.toList := h m mem_cons_self
      rw [flatMap_cons, cons_append, Path.splitFrom_append_slash hn,
        ih (fun n hn ↦ h n (mem_cons_of_mem _ hn)) m hm]
      simp
  rw [Path.split, toList_path hl]
  simpa using hfrom l h "" (by simp)

theorem names_path (h : l.Proper) : FileTree.names l.path.text = l := by
  by_cases hl : l = []
  · subst hl
    decide
  · rw [FileTree.names, split_path hl fun n hn ↦ (h n hn).no_slash]
    simpa using fun n hn ↦ (h n hn).ne_empty

theorem steps_path (h : l.Proper) : FileTree.steps l.path.text = l := by
  rw [FileTree.steps, names_path h]
  by_cases hl : l = []
  · simp [hl]
  · have hlast : ("" :: l).getLast? ≠ some "" := by
      rw [getLast?_cons_of_ne_nil hl]
      exact fun hm ↦ (h "" (mem_of_getLast? hm)).ne_empty rfl
    rw [split_path hl fun n hn ↦ (h n hn).no_slash]
    simp [hlast]

theorem components_of_no_slash (h : ∀ n ∈ l, '/' ∉ n.toList) :
    l.path.components = .top :: l.filterMap Path.componentOf? := by
  rw [Path.components, if_pos (isAbsolute_path l)]
  by_cases hl : l = []
  · subst hl
    decide
  · rw [split_path hl h, filterMap_cons]
    simp [Path.componentOf?]

theorem components_path (h : l.Proper) : l.path.components = .top :: l.map .name := by
  rw [components_of_no_slash fun n hn ↦ (h n hn).no_slash,
    filterMap_congr fun n hn ↦ (h n hn).componentOf?_eq]
  simp

/-! ## Paths next to and below a place -/

theorem ProperName.append (h : ProperName n) (hs : 2 < suffix.length)
    (hslash : '/' ∉ suffix.toList) : ProperName (n ++ suffix) := by
  have hne (m : String) (hm : m.length ≤ 2) : n ++ suffix ≠ m := by
    rintro rfl
    rw [String.length_append] at hm
    omega
  refine ⟨hne "" (by decide), hne "." (by decide), hne ".." (by decide), ?_⟩
  rw [String.toList_append, mem_append]
  rintro (hm | hm)
  · exact h.no_slash hm
  · exact hslash hm

theorem Proper.append_suffix (h : Proper (l ++ [n])) (hs : 2 < suffix.length)
    (hslash : '/' ∉ suffix.toList) : Proper (l ++ [n ++ suffix]) := by
  rw [proper_append, proper_singleton] at h ⊢
  exact ⟨h.1, h.2.append hs hslash⟩

/-- The names behind slashes, without the first slash. -/
theorem cons_toList_intercalate (hl : l ≠ []) :
    '/' :: ("/".intercalate l).toList = l.flatMap fun n ↦ '/' :: n.toList := by
  rw [← toList_path hl, path, String.toList_append]
  rfl

theorem head?_toList_intercalate (hl : l ≠ []) (h : l.Proper) :
    ("/".intercalate l).toList.head? ≠ some '/' := by
  obtain ⟨n, l, rfl⟩ := exists_cons_of_ne_nil hl
  have hn : ProperName n := h n mem_cons_self
  have htext := cons_toList_intercalate hl
  rw [flatMap_cons, cons_append, List.cons.injEq] at htext
  rw [htext.2]
  cases hcs : n.toList with
  | nil => exact absurd (String.toList_eq_nil_iff.1 hcs) hn.ne_empty
  | cons c cs =>
    intro hc
    obtain rfl : c = '/' := by simpa using hc
    exact hn.no_slash (by simp [hcs])

theorem getLast?_toList_path (hl : l ≠ []) (h : l.Proper) :
    l.path.text.toList.getLast? ≠ some '/' := by
  obtain ⟨k, n, rfl⟩ := (eq_nil_or_concat' l).resolve_left hl
  have hn : ProperName n := h n (by simp)
  have hne := hn.toList_ne_nil
  rw [toList_path hl, flatMap_append, flatMap_singleton, getLast?_append_of_ne_nil _
    (cons_ne_nil _ _), getLast?_cons_of_ne_nil hne]
  exact fun hm ↦ hn.no_slash (mem_of_getLast? hm)

/-- Names seen from a place. -/
theorem join_path (l : Location) {ns : List String} (hns : ns ≠ []) (hl : l.Proper)
    (h : ("/".intercalate ns).toList.head? ≠ some '/') :
    l.path.join ("/".intercalate ns) = (l ++ ns).path := by
  rw [Path.join, if_neg h]
  by_cases hnil : l = []
  · subst hnil
    rw [if_pos (by decide)]
    rfl
  · have hne : l.path.text.toList ≠ [] := by
      rw [toList_path hnil]
      obtain ⟨n, l, rfl⟩ := exists_cons_of_ne_nil hnil
      simp
    rw [if_neg (by simp [hne, getLast?_toList_path hnil hl])]
    refine congrArg Path.mk (String.toList_inj.1 ?_)
    change _ = (l ++ ns).path.text.toList
    rw [toList_path (append_ne_nil_of_left_ne_nil hnil ns), flatMap_append,
      ← cons_toList_intercalate hns, String.toList_append, String.toList_append, toList_path hnil]
    simp

theorem join_path_name (l : Location) (hl : l.Proper) (hn : '/' ∉ n.toList) :
    l.path.join n = (l ++ [n]).path := by
  have h := join_path l (cons_ne_nil n []) hl
  rw [String.intercalate_singleton] at h
  exact h fun hhead ↦ hn (mem_of_head? hhead)

theorem fileName?_path (h : Proper (l ++ [n])) : (l ++ [n]).path.fileName? = some n := by
  rw [Path.fileName?, components_path h, map_append, ← cons_append, map_singleton,
    getLast?_concat]

theorem trimEnd_name (hn : ProperName n) (rest : List Char) :
    Path.trimEnd (n.toList.reverse ++ rest) = n.toList.reverse ++ rest := by
  have hne := hn.toList_ne_nil
  have hslash : '/' ∉ n.toList.reverse := by simpa using hn.no_slash
  have hdot : n.toList.reverse ≠ ['.'] := by
    intro h
    refine hn.ne_here (String.toList_inj.1 ?_)
    rw [← reverse_reverse n.toList, h]
    rfl
  cases hcs : n.toList.reverse with
  | nil => exact absurd (reverse_eq_nil_iff.1 hcs) hne
  | cons c cs =>
    rw [hcs] at hslash hdot
    unfold Path.trimEnd
    split
    · rename_i heq
      obtain ⟨rfl, -⟩ := List.cons.inj heq
      exact absurd mem_cons_self hslash
    · rename_i heq
      obtain ⟨rfl, hnil⟩ := List.cons.inj heq
      exact absurd (by rw [(append_eq_nil_iff.1 hnil).1]) hdot
    · rename_i heq
      obtain ⟨rfl, hcons⟩ := List.cons.inj heq
      cases cs with
      | nil => exact absurd rfl hdot
      | cons d ds =>
        obtain ⟨rfl, -⟩ := List.cons.inj hcons
        exact absurd (by simp) hslash
    · rfl

/-- The text behind the first slash, backwards. -/
theorem reverse_toList_path (l : Location) (n : String) :
    ((l ++ [n]).path.text.toList.drop 1).reverse =
      n.toList.reverse ++ l.reverse.flatMap fun m ↦ '/' :: m.toList.reverse := by
  have hreverse : ((l ++ [n]).flatMap fun m ↦ '/' :: m.toList).reverse =
      (n.toList.reverse ++ l.reverse.flatMap fun m ↦ '/' :: m.toList.reverse) ++ ['/'] := by
    induction l with
    | nil => simp
    | cons m l ih =>
      rw [cons_append, flatMap_cons, reverse_append, ih]
      simp
  rw [toList_path (by simp), drop_one, ← dropLast_reverse, hreverse, dropLast_concat]

/-- The path without its last name. -/
theorem parent?_path (h : Proper (l ++ [n])) : (l ++ [n]).path.parent? = some l.path := by
  obtain ⟨hl, hn⟩ := (proper_append l [n]).1 h
  rw [proper_singleton] at hn
  have hne := hn.toList_ne_nil
  have hlead : (l ++ [n]).path.lead = ['/'] := by rw [Path.lead, if_pos (isAbsolute_path _)]
  have hafter : ((n.toList.reverse ++ l.reverse.flatMap fun m ↦ '/' :: m.toList.reverse).dropWhile
      (· != '/')) = l.reverse.flatMap fun m ↦ '/' :: m.toList.reverse := by
    rw [dropWhile_append_of_pos]
    · cases l.reverse <;> simp
    · intro c hc
      have : c ≠ '/' := fun hs ↦ hn.no_slash (by simpa [hs] using hc)
      simpa using this
  have hrest : Path.trimEnd ((l.reverse.flatMap fun m ↦ '/' :: m.toList.reverse).drop 1) =
      (l.path.text.toList.drop 1).reverse := by
    rcases eq_nil_or_concat' l with rfl | ⟨k, m, rfl⟩
    · rfl
    · rw [reverse_toList_path, reverse_append]
      simpa using trimEnd_name (hl m (by simp)) _
  have htext : '/' :: l.path.text.toList.drop 1 = l.path.text.toList := by
    simp [path]
  rw [Path.parent?, hlead, length_singleton, reverse_toList_path, trimEnd_name hn]
  simp only [hafter, hrest, reverse_reverse]
  rw [if_neg (by simp [hne]), singleton_append, htext, String.ofList_toList]

theorem sibling_path (h : Proper (l ++ [n])) (hs : 2 < suffix.length)
    (hslash : '/' ∉ suffix.toList) :
    (l ++ [n]).path.sibling suffix = (l ++ [n ++ suffix]).path := by
  obtain ⟨hl, hn⟩ := (proper_append l [n]).1 h
  rw [proper_singleton] at hn
  rw [Path.sibling, Path.withFileName, fileName?_path h]
  simp only [parent?_path h, Option.getD_some]
  exact join_path_name l hl (hn.append hs hslash).no_slash

theorem isPrefixOf_components_path (h : Proper (r ++ ns)) :
    r.path.components.isPrefixOf (r ++ ns).path.components = true := by
  rw [components_path h, components_path ((proper_append r ns).1 h).1, isPrefixOf_iff_prefix,
    map_append, ← cons_append]
  exact prefix_append _ _

/-- What is left of a place behind one above it. -/
theorem stripPrefix?_path (h : Proper (r ++ ns)) :
    (r ++ ns).path.stripPrefix? r.path = some (ns.map .name) := by
  rw [Path.stripPrefix?, if_pos (isPrefixOf_components_path h), components_path h,
    components_path ((proper_append r ns).1 h).1, map_append, ← cons_append,
    drop_left]

/-- How a place below another is written as seen from there. -/
def relative (ns : Location) : String := if ns = [] then "." else "/".intercalate ns

theorem relativeTo_path (h : Proper (r ++ ns)) :
    (r ++ ns).path.relativeTo r.path = relative ns := by
  rw [Path.relativeTo, stripPrefix?_path h, relative]
  cases ns with
  | nil => rfl
  | cons n ns =>
    rw [if_neg (cons_ne_nil n ns)]
    simp only [map_cons, map_map]
    congr 2
    exact map_id' ns

theorem join_relative (h : Proper (r ++ ns)) (hns : ns ≠ []) :
    r.path.join (relative ns) = (r ++ ns).path := by
  rw [proper_append] at h
  rw [relative, if_neg hns, join_path r hns h.1 (head?_toList_intercalate hns h.2)]

/-- A dot behind a path does not count. -/
theorem components_join_here (h : r.Proper) : (r.path.join ".").components = r.path.components := by
  have hjoin : r.path.join "." = (r ++ ["."]).path := join_path_name r h (by decide)
  have hslash : ∀ n ∈ r ++ ["."], '/' ∉ n.toList := by
    intro n hn
    rcases mem_append.1 hn with hn | hn
    · exact (h n hn).no_slash
    · rw [mem_singleton.1 hn]
      decide
  rw [hjoin, components_of_no_slash hslash, components_of_no_slash fun n hn ↦ (h n hn).no_slash,
    filterMap_append]
  simp [Path.componentOf?]

theorem same_join_relative (h : Proper (r ++ ns)) :
    (r.path.join (relative ns)).same (r ++ ns).path := by
  by_cases hns : ns = []
  · subst hns
    rw [append_nil] at h ⊢
    exact decide_eq_true (components_join_here h)
  · rw [join_relative h hns]
    simp [Path.same]

theorem eq_of_components_path_eq (hl : l.Proper) (hk : k.Proper)
    (h : l.path.components = k.path.components) : l = k := by
  rw [components_path hl, components_path hk, List.cons.injEq] at h
  exact map_injective_iff.2 (fun _ _ hn ↦ Component.name.inj hn) h.2

end Location

/-! ## The last name of a path as seen from another -/

namespace Path

variable {n : String} {c : Component} {p base : Path} {cs ds : List Component}

theorem getLast?_splitFrom (current cs : List Char) (hn : '/' ∉ n.toList) :
    (splitFrom current (cs ++ '/' :: n.toList)).getLast? = some n := by
  induction cs generalizing current with
  | nil => simp [splitFrom, splitFrom_of_not_mem hn]
  | cons c cs ih =>
    rw [cons_append, splitFrom]
    split_ifs
    · rw [getLast?_cons, ih]
      rfl
    · exact ih _

theorem getLast?_splitFrom_concat (current cs : List Char) {c : Char} (hc : c ≠ '/') :
    ∃ ds, (splitFrom current (cs ++ [c])).getLast? = some (String.ofList (ds ++ [c])) := by
  induction cs generalizing current with
  | nil => exact ⟨current.reverse, by simp [splitFrom, hc]⟩
  | cons d cs ih =>
    rw [cons_append, splitFrom]
    split_ifs
    · obtain ⟨ds, hds⟩ := ih []
      exact ⟨ds, by rw [getLast?_cons, hds]; rfl⟩
    · exact ih (d :: current)

theorem splitFrom_ne_nil (current cs : List Char) : splitFrom current cs ≠ [] := by
  induction cs generalizing current with
  | nil => simp [splitFrom]
  | cons c cs ih =>
    rw [splitFrom]
    split_ifs
    · simp
    · exact ih _

theorem getLast?_split_intercalate (ss : List String) (hn : '/' ∉ n.toList) :
    (split ("/".intercalate (ss ++ [n]))).getLast? = some n := by
  have hlast := getLast?_splitFrom [] (ss.flatMap fun n ↦ '/' :: n.toList) hn
  have htext : ss.flatMap (fun n ↦ '/' :: n.toList) ++ '/' :: n.toList =
      '/' :: ("/".intercalate (ss ++ [n])).toList := by
    rw [Location.cons_toList_intercalate (by simp)]
    simp
  rw [htext, splitFrom, if_pos rfl, getLast?_cons_of_ne_nil (splitFrom_ne_nil _ _)] at hlast
  exact hlast

theorem getLast?_components {s : String} (hn : (split s).getLast? = some n)
    (hc : componentOf? n = some c) : (components ⟨s⟩).getLast? = some c := by
  obtain ⟨ss, hss⟩ := getLast?_eq_some_iff.1 hn
  have hbody : (split s).filterMap componentOf? = ss.filterMap componentOf? ++ [c] := by
    rw [hss, filterMap_append, filterMap_cons_some hc, filterMap_nil]
  simp only [components, hbody]
  split_ifs <;> simp [getLast?_cons]

theorem text_of_componentOf? (h : componentOf? n = some c) : c.text = n := by
  rw [componentOf?] at h
  split_ifs at h with _ hup
  · cases h
    exact hup.symm
  · cases h
    rfl

/-- The last component comes from a text between slashes, unless nothing but the start counts. -/
theorem getLast?_components_cases (h : p.components.getLast? = some c) :
    (∃ n ∈ split p.text, componentOf? n = some c) ∨
      p.components = [c] ∧ (c = .top ∨ c = .here) := by
  have hcomponents : ∃ lead : List Component, (∀ d ∈ lead, d = .top ∨ d = .here) ∧
      lead.length ≤ 1 ∧ p.components = lead ++ (split p.text).filterMap componentOf? := by
    simp only [components]
    split_ifs
    · exact ⟨[.top], by simp, by simp, rfl⟩
    · exact ⟨[.here], by simp, by simp, rfl⟩
    · exact ⟨[], by simp, by simp, rfl⟩
  obtain ⟨lead, hlead, hlength, hp⟩ := hcomponents
  rw [hp] at h ⊢
  by_cases hbody : (split p.text).filterMap componentOf? = []
  · rw [hbody, append_nil] at h ⊢
    obtain ⟨ds, rfl⟩ := getLast?_eq_some_iff.1 h
    obtain rfl : ds = [] := by simpa using hlength
    exact .inr ⟨rfl, hlead c (by simp)⟩
  · rw [getLast?_append_of_ne_nil _ hbody] at h
    obtain ⟨n, hn, hc⟩ := mem_filterMap.1 (mem_of_getLast? h)
    exact .inl ⟨n, hn, hc⟩

theorem relativeTo_of_ne (h : base.components ++ cs = p.components) (hcs : cs ≠ []) :
    p.relativeTo base = "/".intercalate (cs.map (·.text)) := by
  rw [relativeTo, stripPrefix?, if_pos (List.isPrefixOf_iff_prefix.2 ⟨cs, h⟩), ← h, drop_left]
  cases cs with
  | nil => exact absurd rfl hcs
  | cons c cs => rfl

/-- A path has the same last name as seen from another. -/
theorem fileName?_relativeTo (h : p.same base = false) :
    (⟨p.relativeTo base⟩ : Path).fileName? = p.fileName? := by
  by_cases hprefix : base.components.isPrefixOf p.components
  swap
  · rw [relativeTo, stripPrefix?, if_neg hprefix]
  obtain ⟨cs, hcs⟩ := isPrefixOf_iff_prefix.1 hprefix
  have hne : cs ≠ [] := by
    rintro rfl
    simp [same, ← hcs] at h
  rw [relativeTo_of_ne hcs hne]
  obtain ⟨ds, c, rfl⟩ := (eq_nil_or_concat' cs).resolve_left hne
  have hlast : p.components.getLast? = some c := by
    rw [← hcs, ← append_assoc, getLast?_concat]
  have hrest : (components ⟨"/".intercalate ((ds ++ [c]).map (·.text))⟩).getLast? = some c := by
    obtain ⟨n, hn, hc⟩ | ⟨hp, hc⟩ := getLast?_components_cases hlast
    · rw [map_append, map_singleton, text_of_componentOf? hc]
      exact getLast?_components
        (getLast?_split_intercalate _ (slash_not_mem_of_mem_split hn)) hc
    · -- only one component, so all of it is left
      obtain rfl : ds = [] := by
        rw [hp, ← append_assoc] at hcs
        exact (append_eq_nil_iff.1 (append_left_eq_self.1 hcs)).2
      rcases hc with rfl | rfl <;> decide
  rw [fileName?, fileName?, hlast, hrest]

/-! ## A path seen from a base and joined to it again -/

theorem splitFrom_append (current cs rest : List Char) :
    splitFrom current (cs ++ '/' :: rest) = splitFrom current cs ++ splitFrom [] rest := by
  induction cs generalizing current with
  | nil => simp [splitFrom]
  | cons c cs ih =>
    rw [cons_append, splitFrom, splitFrom]
    split_ifs
    · rw [ih, cons_append]
    · exact ih _

theorem split_intercalate {ss : List String} (hne : ss ≠ []) (h : ∀ s ∈ ss, '/' ∉ s.toList) :
    split ("/".intercalate ss) = ss := by
  have hpath := Location.split_path hne h
  rw [split, Location.toList_path hne, ← Location.cons_toList_intercalate hne, splitFrom,
    if_pos rfl, List.cons.injEq] at hpath
  exact hpath.2

theorem isAbsolute_join (hp : p.isAbsolute) (q : String) : (p.join q).isAbsolute := by
  obtain ⟨cs, hcs⟩ : ∃ cs, p.text.toList = '/' :: cs :=
    head?_eq_some_iff.1 (of_decide_eq_true hp)
  rw [join]
  split_ifs with hq
  · exact decide_eq_true hq
  · simp [isAbsolute, hcs]
  · simp [isAbsolute, hcs]

/-- What is joined to an absolute path comes behind its components. -/
theorem components_join (hp : p.isAbsolute) {q : String} (hq : q.toList.head? ≠ some '/') :
    (p.join q).components = p.components ++ (split q).filterMap componentOf? := by
  have hbody : (split (p.join q).text).filterMap componentOf? =
      (split p.text).filterMap componentOf? ++ (split q).filterMap componentOf? := by
    rw [join, if_neg hq]
    split_ifs with hend
    · -- the slash at the end of the path is the one between
      obtain ⟨cs, hcs⟩ : ∃ cs, p.text.toList = '/' :: cs :=
        head?_eq_some_iff.1 (of_decide_eq_true hp)
      obtain ⟨front, hfront⟩ : ∃ front, p.text.toList = front ++ ['/'] := by
        rw [hcs] at hend ⊢
        exact getLast?_eq_some_iff.1 (by simpa using hend)
      rw [split, split, split, String.toList_append, hfront, append_assoc,
        singleton_append, splitFrom_append, splitFrom_append, filterMap_append,
        filterMap_append]
      simp [splitFrom, componentOf?]
    · rw [split, split, split, String.toList_append, String.toList_append, append_assoc,
        show "/".toList = ['/'] from rfl, singleton_append, splitFrom_append,
        filterMap_append]
  rw [components, if_pos (isAbsolute_join hp q), hbody, components, if_pos hp, cons_append]

/-- A name at the end of what is joined to an absolute path is the last of all. -/
theorem fileName?_join (hp : p.isAbsolute) {q m : String} (hq : (⟨q⟩ : Path).fileName? = some m) :
    (p.join q).fileName? = some m := by
  by_cases hhead : q.toList.head? = some '/'
  · rwa [join, if_pos hhead]
  have hlast : (components ⟨q⟩).getLast? = some (.name m) := by
    rw [fileName?] at hq
    split at hq
    · rename_i hlast
      cases hq
      exact hlast
    · cases hq
  have hbody : ((split q).filterMap componentOf?).getLast? = some (.name m) := by
    rw [components, if_neg (by simpa [isAbsolute] using hhead)] at hlast
    split_ifs at hlast
    · cases hrest : (split q).filterMap componentOf? with
      | nil => simp [hrest] at hlast
      | cons c cs => rwa [hrest, getLast?_cons_of_ne_nil (by simp)] at hlast
    · exact hlast
  rw [fileName?, components_join hp hhead, getLast?_append, hbody]
  rfl

/-- The components behind a base are what their texts between slashes give. -/
theorem componentOf?_text_of_mem (hp : p.isAbsolute) (h : p.components = cs ++ ds) (hcs : cs ≠ [])
    (hc : c ∈ ds) : componentOf? c.text = some c ∧ '/' ∉ c.text.toList := by
  obtain ⟨b, cs, rfl⟩ := exists_cons_of_ne_nil hcs
  rw [components, if_pos hp, cons_append, List.cons.injEq] at h
  obtain ⟨n, hn, hcomponent⟩ := mem_filterMap.1 (h.2 ▸ mem_append_right cs hc)
  rw [text_of_componentOf? hcomponent]
  exact ⟨hcomponent, slash_not_mem_of_mem_split hn⟩

/-- Some components behind a base come back from their texts between slashes. -/
theorem filterMap_split_intercalate_text (hp : p.isAbsolute) (h : p.components = cs ++ ds)
    (hcs : cs ≠ []) (hds : ds ≠ []) :
    (split ("/".intercalate (ds.map (·.text)))).filterMap componentOf? = ds := by
  have hslash : ∀ s ∈ ds.map (·.text), '/' ∉ s.toList := by
    intro s hs
    obtain ⟨c, hc, rfl⟩ := mem_map.1 hs
    exact (componentOf?_text_of_mem hp h hcs hc).2
  have hback : ds.filterMap (componentOf? ∘ (·.text)) = ds :=
    calc
      _ = ds.filterMap some := filterMap_congr fun c hc ↦ (componentOf?_text_of_mem hp h hcs hc).1
      _ = ds := filterMap_some
  rw [split_intercalate (fun hnil ↦ hds (map_eq_nil_iff.1 hnil)) hslash, filterMap_map,
    hback]

theorem head?_toList_intercalate_text (hp : p.isAbsolute) (h : p.components = cs ++ ds)
    (hcs : cs ≠ []) (hds : ds ≠ []) :
    ("/".intercalate (ds.map (·.text))).toList.head? ≠ some '/' := by
  obtain ⟨c, ds, rfl⟩ := exists_cons_of_ne_nil hds
  have htext := Location.cons_toList_intercalate (cons_ne_nil c.text (ds.map (·.text)))
  rw [flatMap_cons, cons_append, List.cons.injEq] at htext
  rw [map_cons, htext.2]
  have hc := componentOf?_text_of_mem hp h hcs mem_cons_self
  cases htoList : c.text.toList with
  | nil =>
    rw [String.toList_eq_nil_iff.1 htoList] at hc
    cases hc.1
  | cons a as =>
    rw [htoList] at hc
    intro ha
    exact hc.2 (mem_cons.2 (.inl (by simpa using ha.symm)))

theorem relativeTo_of_not_under (h : ¬p.isUnder base) : p.relativeTo base = p.text := by
  rw [isUnder] at h
  rw [relativeTo, stripPrefix?, if_neg h]

theorem relativeTo_of_components_eq (h : p.components = base.components) :
    p.relativeTo base = "." := by
  simp [relativeTo, stripPrefix?, h]

/-- An absolute path is under a relative one only if that has no components at all. -/
theorem components_eq_nil_of_isUnder (hp : p.isAbsolute) (h : p.isUnder base)
    (hbase : ¬base.isAbsolute) : base.components = [] := by
  rw [isUnder, components, components, if_neg hbase, if_pos hp] at h
  rw [components, if_neg hbase]
  split_ifs at h ⊢ with hhere
  · simp [List.isPrefixOf] at h
  · cases hbody : (split base.text).filterMap componentOf? with
    | nil => rfl
    | cons c cs =>
      obtain ⟨n, -, hn⟩ := mem_filterMap.1 (hbody ▸ mem_cons_self)
      rw [hbody] at h
      obtain rfl : c = .top := by
        simp only [List.isPrefixOf, Bool.and_eq_true, beq_iff_eq] at h
        exact h.1
      rw [componentOf?] at hn
      split_ifs at hn <;> cases hn

/-- Joined to the base from which it is seen, a path has its components again. -/
theorem components_join_relativeTo (hp : p.isAbsolute) (base : Path) :
    (base.join (p.relativeTo base)).components = p.components := by
  by_cases hunder : p.isUnder base
  swap
  · rw [relativeTo_of_not_under hunder, join, if_pos (of_decide_eq_true hp)]
  obtain ⟨cs, hcs⟩ := isPrefixOf_iff_prefix.1 hunder
  by_cases hbase : base.isAbsolute
  · have hne : base.components ≠ [] := by
      rw [components, if_pos hbase]
      exact cons_ne_nil _ _
    by_cases hnil : cs = []
    · rw [hnil, append_nil] at hcs
      rw [relativeTo_of_components_eq hcs.symm, components_join hbase (by decide), ← hcs]
      exact append_nil _
    · rw [relativeTo_of_ne hcs hnil, components_join hbase
        (head?_toList_intercalate_text hp hcs.symm hne hnil),
        filterMap_split_intercalate_text hp hcs.symm hne hnil, hcs]
  · -- The base is no path at all, and the whole of the other is left.
    have hnil := components_eq_nil_of_isUnder hp hunder hbase
    obtain ⟨ds, hds⟩ : ∃ ds, p.components = [.top] ++ ds := by
      rw [components, if_pos hp]
      exact ⟨_, rfl⟩
    have hseen : p.relativeTo base = "/".intercalate (p.components.map (·.text)) :=
      relativeTo_of_ne (by rw [hnil, nil_append]) (by simp [hds])
    have htext : (p.relativeTo base).toList = '/' :: ds.flatMap fun c ↦ '/' :: c.text.toList := by
      have h := Location.cons_toList_intercalate (cons_ne_nil "/" (ds.map (·.text)))
      rw [flatMap_cons, cons_append, List.cons.injEq, flatMap_map] at h
      rw [hseen, hds]
      exact h.2
    have hhead : (p.relativeTo base).toList.head? = some '/' := by rw [htext, head?_cons]
    have habsolute : isAbsolute ⟨p.relativeTo base⟩ := decide_eq_true hhead
    rw [join, if_pos hhead, components, if_pos habsolute, hds, split, htext, splitFrom, if_pos rfl]
    by_cases hrest : ds = []
    · subst hrest
      rfl
    · have hcons := Location.cons_toList_intercalate
        (l := ds.map (·.text)) fun h ↦ hrest (map_eq_nil_iff.1 h)
      rw [flatMap_map] at hcons
      rw [← hcons, splitFrom, if_pos rfl]
      exact congrArg (Component.top :: ·)
        (filterMap_split_intercalate_text hp hds (cons_ne_nil _ _) hrest)

end Path

end Steward
