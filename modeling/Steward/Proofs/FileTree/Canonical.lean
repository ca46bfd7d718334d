import Steward.Proofs.FileTree
import Steward.Proofs.Location

/-!
# Canonical places

A path is canonical if every part of it that exists is what its text says, with no link on the way.
`FileTree.Real` says so of a place: it is reached from the top through directories alone. What a
path leads to is real, `FileTree.real_of_canonical`, and a real place is its own canonical place,
`FileTree.canonical_of_real`.
-/

namespace Steward.FileTree

open Location List

/-- An entry, no link, that is reached from the top through directories alone. -/
inductive Real (t : FileTree) : Location → Prop where
  | top : Real t []
  | down {l n e} (above : Real t l) (hdir : t.DirAt l) (hname : IsName n) (hslash : '/' ∉ n.toList)
      (hget : t.get? (l ++ [n]) = some e) (hlink : ∀ target, e ≠ .link target) : Real t (l ++ [n])

/-- No name in the tree has a zero byte. -/
def NulFree (t : FileTree) : Prop := ∀ l e, t.get? l = some e → ∀ n ∈ l, '\x00' ∉ n.toList

theorem nulFree_of_entries {t : FileTree} (h : ∀ x ∈ t.entries, ∀ n ∈ x.1, '\x00' ∉ n.toList) :
    t.NulFree := by
  intro l e hl
  obtain ⟨rfl, -⟩ | hmem := mem_of_get? hl
  · simp
  · exact h _ hmem

section Real

variable {t : FileTree} {k l : Location}
variable {s : String} {last : LastStep} {us ss : List String} {at_ : Location} {r : Reached}
  {sp : Spot} {p : Path}

theorem Real.of_isPrefix (h : Real t l) (hk : k <+: l) : Real t k := by
  induction h with
  | top =>
    rw [prefix_nil.1 hk]
    exact .top
  | down above hdir hname hslash hget hlink ih =>
    rcases prefix_concat_iff.1 hk with rfl | hk
    · exact .down above hdir hname hslash hget hlink
    · exact ih hk

theorem Real.proper (h : Real t l) : l.Proper := by
  induction h with
  | top => simp
  | down _ _ hname hslash _ _ ih =>
    simp only [proper_append, proper_singleton]
    exact ⟨ih, hname.ne_empty, hname.ne_here, hname.ne_up, hslash⟩

theorem zero_notMem_path (h : ∀ n ∈ l, '\x00' ∉ n.toList) : '\x00' ∉ l.path.text.toList := by
  by_cases hl : l = []
  · subst hl
    decide
  · rw [toList_path hl, mem_flatMap]
    rintro ⟨n, hn, hzero⟩
    exact h n hn (by simpa using hzero)

theorem Real.zero_notMem (ht : t.NulFree) (h : Real t l) : ∀ n ∈ l, '\x00' ∉ n.toList := by
  cases h with
  | top => simp
  | down _ _ _ _ hget _ => exact ht _ _ hget

theorem Real.nulFree (ht : t.NulFree) (h : Real t l) : '\x00' ∉ l.path.text.toList :=
  zero_notMem_path (h.zero_notMem ht)

/-! ## Where walks lead -/

theorem Real.advances (h : Real t l) : Advances t .followed [] l (.entry l) := by
  induction h with
  | top => exact .done []
  | down above hdir hname hslash hget hlink ih =>
    exact .trans (closes_followed _) ih (.enter hdir hname hget hlink (by simp) (.done _))

theorem mem_split_of_mem_steps {text : String} (hs : s ∈ steps text) : s ∈ Path.split text := by
  rw [steps] at hs
  split_ifs at hs with hslash
  · rw [Bool.and_eq_true, decide_eq_true_iff] at hslash
    rcases mem_append.1 hs with hs | hs
    · exact mem_of_mem_filter hs
    · rw [mem_singleton.1 hs]
      exact mem_of_getLast? hslash.1
  · exact mem_of_mem_filter hs

theorem slash_not_mem_of_mem_steps {text : String} (hs : s ∈ steps text) : '/' ∉ s.toList :=
  Path.slash_not_mem_of_mem_split (mem_split_of_mem_steps hs)

/-- Steps from a real place lead to a real one, or to a link that stands at one. -/
theorem Advances.real (h : Advances t .followed at_ ss r) (hat : Real t at_)
    (hss : ∀ s ∈ ss, '/' ∉ s.toList) :
    (∀ l, r = .entry l → Real t l) ∧
      ∀ from_ target rest, r = .detour from_ target rest →
        Real t from_ ∧ ∀ s ∈ rest, '/' ∉ s.toList := by
  induction h with
  | done at_ => exact ⟨fun l hl ↦ by cases hl; exact hat, by simp⟩
  | stay _ _ _ ih => exact ih hat fun s hs ↦ hss s (mem_cons_of_mem _ hs)
  | up _ _ ih =>
    exact ih (hat.of_isPrefix (List.dropLast_prefix _)) fun s hs ↦ hss s (mem_cons_of_mem _ hs)
  | free => exact ⟨by simp, by simp⟩
  | keep _ _ _ hlast => cases hlast
  | turn =>
    refine ⟨by simp, fun f tg rest hr ↦ ?_⟩
    cases hr
    exact ⟨hat, fun s hs ↦ hss s (mem_cons_of_mem _ hs)⟩
  | enter hdir hs hget he _ _ ih =>
    exact ih (.down hat hdir hs (hss _ mem_cons_self) hget he) fun s hs ↦
      hss s (mem_cons_of_mem _ hs)

theorem Walks.real {links : Nat} (h : Walks t .followed links at_ ss (.entry l)) (hat : Real t at_)
    (hss : ∀ s ∈ ss, '/' ∉ s.toList) : Real t l := by
  generalize hs : Spot.entry l = s at h
  induction h with
  | entry h =>
    cases hs
    exact (h.real hat hss).1 l rfl
  | vacant => cases hs
  | @detour links at_ ss from_ target rest s h next ih =>
    obtain ⟨hfrom, hrest⟩ := (h.real hat hss).2 from_ target rest rfl
    refine ih ?_ ?_ hs
    · split_ifs
      · exact .top
      · exact hfrom
    · intro s hs
      rcases mem_append.1 hs with hs | hs
      · exact slash_not_mem_of_mem_steps hs
      · exact hrest s hs

/-! ## Ways without links -/

/-- Where a step leads by its text. -/
def stepTo (at_ : Location) (s : String) : Location :=
  if s = "" ∨ s = "." then at_ else if s = ".." then at_.dropLast else at_ ++ [s]

/-- Where steps lead by their text. -/
def placeFrom (at_ : Location) (ss : List String) : Location := ss.foldl stepTo at_

/-- There is no link where some steps lead on their way. -/
def ClearFrom (t : FileTree) (at_ : Location) (ss : List String) : Prop :=
  ∀ us, us <+: ss → ∀ target, t.get? (placeFrom at_ us) ≠ some (.link target)

/-- There is no link on the way from the top to a place. -/
def Clear (t : FileTree) (l : Location) : Prop :=
  ∀ k, k <+: l → ∀ target, t.get? k ≠ some (.link target)

theorem Clear.of_isPrefix (h : t.Clear l) (hk : k <+: l) : t.Clear k :=
  fun m hm ↦ h m (hm.trans hk)

theorem Real.clear (h : Real t l) : t.Clear l := by
  intro k hk target hget
  cases h.of_isPrefix hk with
  | top => simp at hget
  | down _ _ _ _ hget' hlink =>
    rw [hget'] at hget
    exact hlink target (Option.some.inj hget)

/-- Places above something real are directories. -/
theorem Real.dirAt_above {ns : Location} (h : Real t (k ++ ns)) (hns : ns ≠ []) : t.DirAt k := by
  obtain ⟨ms, n, rfl⟩ := (eq_nil_or_concat' ns).resolve_left hns
  rw [← append_assoc] at h
  generalize hl : k ++ ms ++ [n] = l at h
  induction h generalizing ms n with
  | top => simp at hl
  | down above hdir _ _ _ _ ih =>
    obtain ⟨rfl, -⟩ := append_inj' hl rfl
    cases ms using List.reverseRecOn with
    | nil => simpa using hdir
    | append_singleton ms m =>
      exact ih ms m (by simp) (by simp [append_assoc])

theorem stepTo_stay (hs : s = "" ∨ s = ".") (at_ : Location) : stepTo at_ s = at_ :=
  if_pos hs

theorem stepTo_name (hs : IsName s) (at_ : Location) : stepTo at_ s = at_ ++ [s] := by
  rw [stepTo, if_neg (not_or.2 ⟨hs.ne_empty, hs.ne_here⟩), if_neg hs.ne_up]

theorem placeFrom_of_proper (at_ : Location) (h : l.Proper) : placeFrom at_ l = at_ ++ l := by
  induction l generalizing at_ with
  | nil => simp [placeFrom]
  | cons n l ih =>
    have hn : ProperName n := h n mem_cons_self
    rw [placeFrom, foldl_cons, stepTo, if_neg (not_or.2 ⟨hn.ne_empty, hn.ne_here⟩),
      if_neg hn.ne_up]
    simpa [placeFrom] using ih (at_ ++ [n]) fun m hm ↦ h m (mem_cons_of_mem _ hm)

theorem ClearFrom.tail (h : ClearFrom t at_ (s :: ss)) : ClearFrom t (stepTo at_ s) ss :=
  fun us hus ↦ h (s :: us) (cons_prefix_cons.2 ⟨rfl, hus⟩)

theorem Clear.clearFrom (h : t.Clear l) (hl : l.Proper) : ClearFrom t [] l := by
  intro us hus
  rw [placeFrom_of_proper [] (hl.of_isPrefix hus), nil_append]
  exact h us hus

/-- Steps that meet no link lead where their text says, whether links are followed or not. -/
theorem Advances.clear (h : Advances t last at_ ss r) (hclear : ClearFrom t at_ ss) :
    (r = .entry (placeFrom at_ ss) ∨ r = .vacant (placeFrom at_ ss)) ∧
      Advances t .followed at_ ss r := by
  induction h with
  | done at_ => exact ⟨.inl rfl, .done at_⟩
  | stay hdir hs _ ih =>
    have hrest := hclear.tail
    rw [stepTo_stay hs] at hrest
    rw [placeFrom, foldl_cons, stepTo_stay hs]
    obtain ⟨hr, hnext⟩ := ih hrest
    exact ⟨hr, .stay hdir hs hnext⟩
  | up hdir _ ih =>
    obtain ⟨hr, hnext⟩ := ih hclear.tail
    exact ⟨hr, .up hdir hnext⟩
  | free hdir hs hget =>
    rw [placeFrom, foldl_cons, stepTo_name hs]
    exact ⟨.inr rfl, .free hdir hs hget⟩
  | keep _ hs hget _ | turn _ hs hget _ _ =>
    rw [← stepTo_name hs] at hget
    exact absurd hget (hclear [_] (by simp) _)
  | enter hdir hs hget he _ _ ih =>
    have hrest := hclear.tail
    rw [stepTo_name hs] at hrest
    rw [placeFrom, foldl_cons, stepTo_name hs]
    obtain ⟨hr, hnext⟩ := ih hrest
    exact ⟨hr, .enter hdir hs hget he (by simp) hnext⟩

/-- Where the path of a place leads: to something real there, or to nothing. -/
theorem follow_path (hclear : t.Clear l) (hl : l.Proper) {s : Spot}
    (h : t.follow last l.path l = .ok s) :
    s = .entry l ∧ Real t l ∨ s = .vacant l ∧ l ≠ [] ∧ t.get? l = none := by
  rw [follow_eq_ok_iff, startOf, if_pos (isAbsolute_path l)] at h
  obtain ⟨-, -, h⟩ := h
  cases h with
  | @entry _ _ _ k h =>
    obtain ⟨hk, hfollowed⟩ := h.clear (hclear.clearFrom hl)
    obtain rfl : k = l := by simpa [placeFrom_of_proper [] hl] using hk
    exact .inl ⟨rfl, (hfollowed.real .top fun n hn ↦ (hl n hn).no_slash).1 k rfl⟩
  | @vacant _ _ _ k h =>
    obtain ⟨hk, -⟩ := h.clear (hclear.clearFrom hl)
    obtain rfl : k = l := by simpa [placeFrom_of_proper [] hl] using hk
    exact .inr ⟨rfl, h.vacant_inv⟩
  | detour h =>
    obtain ⟨hk | hk, -⟩ := h.clear (hclear.clearFrom hl) <;> cases hk

theorem spot_path_of_clear (hclear : t.Clear l) (hl : l.Proper) {s : Spot}
    (h : t.spot last l.path = .ok s) : s = .entry l ∨ s = .vacant l := by
  rw [spot, look_eq_ok_iff, steps_path hl] at h
  rcases follow_path hclear hl h.2 with ⟨hs, -⟩ | ⟨hs, -⟩
  · exact .inl hs
  · exact .inr hs

/-! ## Canonical places -/

theorem canonical_eq_ok_iff :
    t.canonical p = .ok l ↔
      t.follow .followed p (steps p.text) = .ok (.entry l) ∧ isOverlong l.path = false := by
  rw [canonical]
  constructor
  · intro h
    split at h
    · cases h
    · split_ifs at h with hlong
      cases h
      exact ⟨‹_›, by simpa using hlong⟩
    · cases h
  · rintro ⟨h, hlong⟩
    rw [h]
    simp [hlong]

/-- What an absolute path leads to is real. -/
theorem real_of_canonical (hp : p.isAbsolute) (h : t.canonical p = .ok l) :
    Real t l ∧ isOverlong l.path = false := by
  obtain ⟨h, hlong⟩ := canonical_eq_ok_iff.1 h
  obtain ⟨-, -, hwalk⟩ := follow_eq_ok_iff.1 h
  rw [startOf, if_pos hp] at hwalk
  exact ⟨hwalk.real .top fun s hs ↦ slash_not_mem_of_mem_steps hs, hlong⟩

/-- A real place is its own canonical place. -/
theorem Real.canonical (h : Real t l) (hzero : '\x00' ∉ l.path.text.toList)
    (hlong : isOverlong l.path = false) : t.canonical l.path = .ok l := by
  rw [canonical_eq_ok_iff, follow_eq_ok_iff, steps_path h.proper, startOf,
    if_pos (isAbsolute_path l)]
  refine ⟨⟨hzero, ?_, .entry h.advances⟩, hlong⟩
  simp [path]

theorem canonical_of_real (ht : t.NulFree) (h : Real t l) (hlong : isOverlong l.path = false) :
    t.canonical l.path = .ok l := h.canonical (h.nulFree ht) hlong

/-- The places above what a path leads to are canonical, and so is it. -/
theorem canonical_above (ht : t.NulFree) (hp : p.isAbsolute) (h : t.canonical p = .ok l)
    (hk : k <+: l) : t.canonical k.path = .ok k := by
  obtain ⟨hreal, hlong⟩ := real_of_canonical hp h
  exact canonical_of_real ht (hreal.of_isPrefix hk) (isOverlong_of_isPrefix hk hlong)

/-- Where something exists, nothing is missing on the way. -/
theorem canonical_above_ne_notFound (hl : l.Proper) {m : Location}
    (h : t.canonical l.path = .ok m) (hk : k <+: l) : t.canonical k.path ≠ .error .notFound := by
  obtain ⟨hzero, -, hwalk⟩ := follow_eq_ok_iff.1 (canonical_eq_ok_iff.1 h).1
  obtain ⟨tl, rfl⟩ := hk
  rw [steps_path hl, startOf, if_pos (isAbsolute_path _)] at hwalk
  obtain ⟨j, hj⟩ := hwalk.of_append
  have hfollow : t.follow .followed k.path (steps k.path.text) = .ok (.entry j) := by
    rw [follow_eq_ok_iff, steps_path (hl.of_isPrefix (prefix_append k tl)), startOf,
      if_pos (isAbsolute_path _)]
    exact ⟨fun hm ↦ hzero ((toList_path_isPrefix (prefix_append k tl)).subset hm),
      by simp [path], hj⟩
  rw [canonical, hfollow]
  by_cases hlong : isOverlong j.path <;> simp [hlong]

end Real

end Steward.FileTree
