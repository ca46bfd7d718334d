import Steward.Proofs.Journal
import Steward.Proofs.Survey.Target
import Steward.Proofs.Sweep

/-!
# Runs that heal are sweeps

A run that heals goes over its files one after the other, and adds to the ledger in between:
`Work.heal_swept`. A run that does not come to that leaves all but the ledger as it is,
`Work.heal_left`.
-/

namespace Steward

open List

set_option mvcgen.warning false

open Location FileTree Std.Do

theorem Below.isPrefix_of_nearby {r ns q : Location} (h : Below r ns) (hq : Nearby (r ++ ns) q) :
    r <+: q := by
  obtain ⟨l, n, hk, hl, -⟩ := h.exists_concat
  rw [hk] at hq
  obtain ⟨m, rfl, -⟩ := nearby_concat.1 hq
  exact hl.trans (prefix_append l [m])

namespace Desk

/-- The history says the same whatever the files hold. -/
def Steady (d : Desk) : Prop :=
  ∀ tree, { d.host with tree }.history d.session.adapter = d.host.history d.session.adapter

/-- The workspace at `r` has no links and a steady history, and its ledger can be added to. -/
structure Tidy (r place : Location) (d : Desk) : Prop where
  root : d.session.root = r.path
  proper : r.Proper
  links : d.host.tree.NoLinks r
  absolute : d.session.log.path.isAbsolute
  ledger : Ledger.LeadsTo d.host.tree d.session.log.path place
  steady : d.Steady

/-- From `d` to `e` the files at some places were mended one after the other. -/
structure Swept (r place : Location) (plan : Location → Option (List Violation))
    (nss : List Location) (d e : Desk) : Prop where
  akin : d.Akin e
  sweep : Sweep d.session.config.fixer r place plan d.host.tree nss e.host.tree

/-- The same in the midst of a run, in which only these files need no copy any more. -/
structure Underway (r place : Location) (plan : Location → Option (List Violation))
    (nss : List Location) (d e : Desk) : Prop extends Swept r place plan nss d e where
  backedUp : ∀ q ∈ e.session.backedUp, ∃ ns ∈ nss, q = (r ++ ns).path

variable {r place ns : Location} {plan : Location → Option (List Violation)}
  {nss mss : List Location} {d e f : Desk}

theorem Akin.history_eq (h : d.Akin e) (tree : FileTree) :
    { e.host with tree }.history e.session.adapter =
      { d.host with tree }.history d.session.adapter :=
  history_of_setting (e := { e with host.tree := tree }) h.setting

theorem Steady.history (hd : d.Steady) (h : d.Akin e) (tree : FileTree) :
    { e.host with tree }.history e.session.adapter = d.host.history d.session.adapter :=
  (h.history_eq tree).trans (hd tree)

theorem Steady.of_akin (hd : d.Steady) (h : d.Akin e) : e.Steady := fun tree ↦
  (hd.history h tree).trans (hd.history h e.host.tree).symm

theorem Steady.workspace (hd : d.Steady) (h : d.Akin e) : e.workspace = d.workspace := by
  rw [Desk.workspace, Desk.workspace, h.root]
  exact congrArg (Workspace.mk _) (hd.history h e.host.tree)

theorem Steady.decision (hd : d.Steady) (h : d.Akin e) (a : Action) :
    e.decision a = d.decision a := h.decision (hd.workspace h) a

/-- Work on files of the workspace and on the ledger keeps it tidy. -/
theorem Tidy.of_changes {S : Location → Prop} (hd : d.Tidy r place) (h : d.Akin e)
    (hS : ∀ q, S q → q = place ∨ r <+: q) (hchanges : ChangesOnly S d.host.tree e.host.tree) :
    e.Tidy r place where
  root := h.root.trans hd.root
  proper := hd.proper
  links := hchanges.noLinks hd.links
  absolute := h.logPath ▸ hd.absolute
  ledger := by
    rw [h.logPath]
    refine hd.ledger.of_changes hchanges (fun q hq target hget ↦ ?_) hd.absolute
    rcases hS q hq with rfl | hq
    · simpa [Entry.isFile] using hd.ledger.isFile.2 _ hget
    · exact hd.links q (.inr hq) target hget
  steady := hd.steady.of_akin h

theorem Swept.tidy (h : d.Swept r place plan nss e) (hd : d.Tidy r place)
    (hnss : ∀ ns ∈ nss, Below r ns) : e.Tidy r place := by
  refine hd.of_changes h.akin (fun q hq ↦ ?_) (h.sweep.changes hd.links hnss)
  rcases hq with rfl | ⟨ns, hns, hnear⟩
  · exact .inl rfl
  · exact .inr ((hnss ns hns).isPrefix_of_nearby hnear)

theorem Swept.of_eq (h : d.Swept r place plan nss e) (hakin : e.Akin f)
    (htree : f.host.tree = e.host.tree) : d.Swept r place plan nss f :=
  ⟨h.akin.trans hakin, htree ▸ h.sweep⟩

theorem Swept.passed (h : d.Swept r place plan nss e) (he : Passed (· = place) e f) :
    d.Swept r place plan nss f := ⟨h.akin.trans he.akin, h.sweep.ledger he.changes⟩

theorem Still.swept (h : d.Still e) : d.Swept r place plan [] e :=
  ⟨h.akin, .nil (h.tree ▸ .refl _ _)⟩

theorem Underway.judged (h : d.Underway r place plan nss e) (a : Action) :
    d.Underway r place plan nss (e.judged a) :=
  ⟨h.toSwept.of_eq ⟨rfl, rfl, rfl⟩ rfl, h.backedUp⟩

theorem Underway.passed (h : d.Underway r place plan nss e) (he : Passed (· = place) e f)
    (hbackedUp : f.session.backedUp = e.session.backedUp) : d.Underway r place plan nss f :=
  ⟨h.toSwept.passed he, hbackedUp ▸ h.backedUp⟩

/-- A file that was not mended yet needs a copy. -/
theorem Underway.not_isBackedUp (h : d.Underway r place plan nss e)
    (hnss : ∀ ms ∈ nss, Below r ms) (hns : Below r ns) (hnew : ns ∉ nss) (t : FileTree) :
    Fix.Bench.isBackedUp { tree := t, backedUp := e.session.backedUp } (r ++ ns).path = false := by
  rw [Fix.Bench.isBackedUp, any_eq_false]
  intro q hq hsame
  obtain ⟨ms, hms, rfl⟩ := h.backedUp q hq
  have heq := eq_of_components_path_eq (hnss ms hms).2 hns.2 (of_decide_eq_true hsame)
  exact hnew (append_cancel_left heq ▸ hms)

end Desk

/-- The report on a file changes nothing of what is to be fixed in another. -/
theorem Healing.batch_take {h : Healing} {x y : String} (hxy : x ≠ y) (report : FileReport) :
    (h.take x report).batch y = h.batch y := by
  rw [batch, batch, take]
  induction h.violations with
  | nil => rfl
  | cons v vs ih =>
    rw [map_cons, filter_cons, filter_cons, ih]
    by_cases hv : v.file = x
    · have hy : v.file ≠ y := fun hy ↦ hxy (hv.symm.trans hy)
      split_ifs <;> simp_all
    · simp [hv]

open Desk

namespace Work

variable {r place ns : Location} {plan : Location → Option (List Violation)}
  {nss mss : List Location} {d : Desk}

theorem record_swept (hd : d.Tidy r place) (hnss : ∀ ns ∈ nss, Below r ns) (entry : Ledger.Entry) :
    ⦃fun e => ⌜d.Swept r place plan nss e⌝⦄ record entry
      ⦃⇓ _ e => ⌜d.Swept r place plan nss e⌝⦄ := by
  refine triple_iff.2 fun e he ↦ ?_
  obtain ⟨f, hrecord, hf, -⟩ := record_passed (he.tidy hd hnss).ledger entry
  rw [hrecord]
  exact he.passed hf

theorem record_underway (hd : d.Tidy r place) (hnss : ∀ ns ∈ nss, Below r ns)
    (entry : Ledger.Entry) :
    ⦃fun e => ⌜d.Underway r place plan nss e⌝⦄ record entry
      ⦃⇓ _ e => ⌜d.Underway r place plan nss e⌝⦄ := by
  refine triple_iff.2 fun e he ↦ ?_
  obtain ⟨f, hrecord, hf, hbackedUp⟩ := record_passed (he.toSwept.tidy hd hnss).ledger entry
  rw [hrecord]
  exact he.passed hf hbackedUp

/-! ## Healing -/

theorem writeDecision_underway (hd : d.Tidy r place) {made : Option Decision} {p q : Path}
    (hmade : ∀ x ∈ made, x = d.decision ⟨.write, p⟩) (hq : q = p) :
    ⦃fun e => ⌜d.Underway r place plan nss e⌝⦄ writeDecision made q
      ⦃⇓ x e => ⌜x = d.decision ⟨.write, p⟩ ∧ d.Underway r place plan nss e⌝⦄ := by
  subst hq
  mvcgen [writeDecision]
  case vc1 x hx _ e he => exact ⟨hmade x hx, he⟩
  case vc2 x _ _ e he => exact ⟨hd.steady.decision he.akin _, he.judged _⟩
  case vc3 _ e he => exact ⟨hd.steady.decision he.akin _, he.judged _⟩

theorem fixFile_underway (hnss : ∀ ms ∈ nss, Below r ms) (hns : Below r ns) (hnew : ns ∉ nss)
    {vs : List Violation} (hplan : plan ns = some vs) {p : Path} (hp : p = (r ++ ns).path) :
    ⦃fun e => ⌜d.Underway r place plan nss e⌝⦄ fixFile p (relative ns) vs
      ⦃⇓ _ e => ⌜d.Underway r place plan (nss ++ [ns]) e⌝⦄ := by
  subst hp
  mvcgen [fixFile]
  case vc1 e he =>
    refine ⟨⟨he.akin.trans ⟨rfl, rfl, rfl⟩, .snoc he.sweep ?_⟩, ?_⟩
    · rw [hplan, ← he.akin.config]
      exact .fixed e.host.now vs { tree := e.host.tree, backedUp := e.session.backedUp }
        (he.not_isBackedUp hnss hns hnew _) (.refl _ _)
    · intro q hq
      rcases Fix.mem_backedUp_of_file hq with rfl | hq
      · exact ⟨ns, by simp, rfl⟩
      · obtain ⟨ms, hms, rfl⟩ := he.backedUp q hq
        exact ⟨ms, mem_append_left _ hms, rfl⟩

/-- Healing a file that may be written mends it for its open violations; another is left alone. -/
theorem healFile_underway (hd : d.Tidy r place) (hnss : ∀ ms ∈ nss, Below r ms) (hns : Below r ns)
    (hnew : ns ∉ nss) {made : Option Decision} {h : Healing}
    (hmade : ∀ x ∈ made, x = d.decision ⟨.write, (r ++ ns).path⟩)
    (hplan : plan ns = if (d.decision ⟨.write, (r ++ ns).path⟩).allowed then
      some (h.batch (relative ns)) else none) (id : String) :
    ⦃fun e => ⌜d.Underway r place plan nss e⌝⦄ healFile id made h (relative ns)
      ⦃⇓ h' e => ⌜d.Underway r place plan (nss ++ [ns]) e ∧
          ∀ x, x ≠ relative ns → h'.batch x = h.batch x⌝⦄ := by
  have hpath {e : Desk} (he : d.Underway r place plan nss e) :
      e.session.root.join (relative ns) = (r ++ ns).path := by
    rw [he.akin.root, hd.root, join_relative hns.2 hns.1]
  have hnext : ∀ ms ∈ nss ++ [ns], Below r ms := by
    intro ms hms
    rcases mem_append.1 hms with hms | hms
    · exact hnss ms hms
    · rw [mem_singleton.1 hms]
      exact hns
  have hdecision {q : Path} := @writeDecision_underway r place plan nss d hd made _ q hmade
  have hfix {vs : List Violation} (hvs : plan ns = some vs) {p : Path} :=
    @fixFile_underway r place ns plan nss d hnss hns hnew vs hvs p
  have hrecord := @record_underway r place plan (nss ++ [ns]) d hd hnext
  mvcgen [healFile, hdecision, hfix, hrecord]
  case vc1 he _ => exact hpath he
  case vc3 hallowed _ hx =>
    obtain ⟨rfl, -⟩ := hx
    rw [hplan, if_pos hallowed]
  case vc4 he _ _ _ _ _ => exact hpath he
  case vc5 hx => exact hx.2
  case vc7 he => exact ⟨he, fun x hx ↦ Healing.batch_take hx.symm _⟩
  case vc8 hdenied _ hx =>
    obtain ⟨rfl, he⟩ := hx
    refine ⟨⟨he.akin, .snoc he.sweep ?_⟩, fun q hq ↦ ?_⟩
    · rw [hplan, if_neg hdenied]
      exact .left (.refl _ _)
    · obtain ⟨ms, hms, rfl⟩ := he.backedUp q hq
      exact ⟨ms, mem_append_left _ hms, rfl⟩
  case vc9 he => exact ⟨he, fun _ _ ↦ rfl⟩

/-- Files are healed one after the other, each for what was found in it at first. -/
theorem foldlM_healFile_underway (hd : d.Tidy r place) {made : Option Decision} (id : String)
    (hnss : ∀ ns ∈ nss, Below r ns) (hmss : ∀ ms ∈ mss, Below r ms) (hnodup : (nss ++ mss).Nodup)
    (hmade : ∀ x ∈ made, ∀ ms ∈ mss, x = d.decision ⟨.write, (r ++ ms).path⟩) {h : Healing}
    (hplan : ∀ ms ∈ mss, plan ms = if (d.decision ⟨.write, (r ++ ms).path⟩).allowed then
      some (h.batch (relative ms)) else none) :
    ⦃fun e => ⌜d.Underway r place plan nss e⌝⦄ (mss.map relative).foldlM (healFile id made) h
      ⦃⇓ _ e => ⌜d.Underway r place plan (nss ++ mss) e⌝⦄ := by
  induction mss generalizing nss h with
  | nil =>
    rw [append_nil, map_nil, foldlM_nil]
    mvcgen
  | cons ns mss ih =>
    have hns : Below r ns := hmss ns mem_cons_self
    have hnew : ns ∉ nss := fun hmem ↦
      (nodup_append.1 hnodup).2.2 ns hmem ns mem_cons_self rfl
    have hsplit : nss ++ ns :: mss = (nss ++ [ns]) ++ mss := by simp
    have hhead := healFile_underway hd hnss hns hnew
      (fun x hx ↦ hmade x hx ns mem_cons_self) (hplan ns mem_cons_self) id
    have hrest : ∀ ms ∈ nss ++ [ns], Below r ms := by
      intro ms hms
      rcases mem_append.1 hms with hms | hms
      · exact hnss ms hms
      · rw [mem_singleton.1 hms]
        exact hns
    rw [hsplit] at hnodup ⊢
    have htail {h' : Healing} (hbatch : ∀ x, x ≠ relative ns → h'.batch x = h.batch x) :
        ⦃fun e => ⌜d.Underway r place plan (nss ++ [ns]) e⌝⦄
          (mss.map relative).foldlM (healFile id made) h'
          ⦃⇓ _ e => ⌜d.Underway r place plan (nss ++ [ns] ++ mss) e⌝⦄ := by
      refine ih hrest (fun ms hms ↦ hmss ms (mem_cons_of_mem _ hms)) hnodup
        (fun x hx ms hms ↦ hmade x hx ms (mem_cons_of_mem _ hms)) fun ms hms ↦ ?_
      have hne : relative ms ≠ relative ns := by
        intro heq
        have hproper := (hmss ms (mem_cons_of_mem _ hms)).2
        obtain rfl := relative_inj ((proper_append r ms).1 hproper).2
          ((proper_append r ns).1 hns.2).2 heq
        exact (nodup_append.1 hnodup).2.2 ms (by simp) ms hms rfl
      rw [hbatch _ hne]
      exact hplan ms (mem_cons_of_mem _ hms)
    rw [map_cons, foldlM_cons]
    generalize hlater : (fun h' ↦ (mss.map relative).foldlM (healFile id made) h') = later
    mvcgen [hhead]
    case vc2 =>
      subst hlater
      exact fun e he hbatch ↦ htail hbatch e he

theorem healFiles_swept (hd : d.Tidy r place) {made : Option Decision} (id target : String)
    (hmss : ∀ ms ∈ mss, Below r ms) (hnodup : mss.Nodup)
    (hmade : ∀ x ∈ made, ∀ ms ∈ mss, x = d.decision ⟨.write, (r ++ ms).path⟩)
    {vs : List Violation}
    (htargets : Healing.targets vs (made.map fun _ ↦ target) = mss.map relative)
    (hplan : ∀ ms ∈ mss, plan ms = if (d.decision ⟨.write, (r ++ ms).path⟩).allowed then
      some (Healing.batch { violations := vs } (relative ms)) else none) :
    ⦃fun e => ⌜d.Still e⌝⦄ healFiles id target made vs
      ⦃⇓ _ e => ⌜d.Swept r place plan mss e⌝⦄ := by
  have hfold := @foldlM_healFile_underway r place plan [] mss d hd made id (by simp) hmss hnodup
    hmade _ hplan
  rw [healFiles, htargets]
  generalize (mss.map relative).foldlM (healFile id made) { violations := vs } = files at hfold ⊢
  mvcgen [hfold]
  case vc1 he _ => exact ⟨he.swept.of_eq ⟨rfl, rfl, rfl⟩ rfl, fun _ hq ↦ absurd hq not_mem_nil⟩
  case vc2 => exact fun he ↦ he.toSwept

/-! ## Parts that leave the files alone -/

theorem preflight_swept (hd : d.Tidy r place) (id target : String) (p : Path) :
    ⦃fun e => ⌜d.Still e⌝⦄ preflight id target p
      ⦃post⟨fun made e => ⌜d.Still e ∧ (∀ x ∈ made, x = d.decision ⟨.write, p⟩) ∧
          made.isSome = d.host.tree.isFile p⌝,
        fun _ e => ⌜d.Swept r place plan [] e ∧ d.host.tree.isFile p ∧
          ¬(d.decision ⟨.write, p⟩).allowed⌝⟩⦄ := by
  have hrecord := @record_swept r place plan [] d hd (by simp)
  mvcgen [preflight, fail, hrecord]
  case vc1 e he hfile _ =>
    refine ⟨he.trans (e.still_judged _), ?_, ?_⟩
    · rintro x ⟨⟩
      exact he.decision _
    · rw [← he.tree, hfile]
      rfl
  case vc2 e he _ _ => exact (he.trans (e.still_judged _)).swept
  case vc4 e he hfile hdenied _ _ _ _ _ hf =>
    rw [he.tree] at hfile
    rw [he.decision] at hdenied
    exact ⟨hf, hfile, hdenied⟩
  case vc5 e he hfile =>
    refine ⟨he, by simp, ?_⟩
    rw [← he.tree, Bool.not_eq_true] at *
    exact hfile.symm

/-! ## Runs -/

/-- A run that finds its target and may scan it sweeps over the files to be healed. -/
theorem heal_swept (hd : d.Tidy r place) {raw : String} {p : Path}
    (hp : d.workspace.resolve d.host.tree raw = .ok p)
    (hallowed : (d.decision ⟨.scan, p⟩).allowed) {s : Survey}
    (hs : Survey.of d.session.config.scanner d.session.root d.host.tree p = .ok s)
    (hmss : ∀ ms ∈ mss, Below r ms) (hnodup : mss.Nodup)
    (hfile : d.host.tree.isFile p → ∃ ns, p = (r ++ ns).path ∧ mss = [ns])
    (htargets : Healing.targets s.violations
      (if d.host.tree.isFile p then some (p.relativeTo d.session.root) else none) =
        mss.map relative)
    (hplan : ∀ ms ∈ mss, plan ms = if (d.decision ⟨.write, (r ++ ms).path⟩).allowed then
      some (Healing.batch { violations := s.violations } (relative ms)) else none) :
    ⦃fun e => ⌜d.Still e⌝⦄ heal raw
      ⦃post⟨fun _ e => ⌜d.Swept r place plan mss e⌝, fun _ e => ⌜d.Swept r place plan mss e⌝⟩⦄ := by
  have htarget := runTarget_found hp
  have hdeny (kind : ActionKind) (target : String) (id : Option String) (x : Decision) :
      ⦃fun _ => ⌜False⌝⦄ (deny kind target id x : Work Unit)
        ⦃⇓ _ _ => ⌜False⌝⦄ := triple_iff.2 fun _ h ↦ h.elim
  have hpreflight := @preflight_swept r place plan d hd
  have hsurvey {q : Path} (hq : q = p) (id target : String) :
      ⦃fun e => ⌜d.Still e⌝⦄ runSurvey id target q
        ⦃⇓ s' e => ⌜d.Still e ∧ s' = s⌝⦄ :=
    hq ▸ runSurvey_found hs id target
  have hfiles {made : Option Decision} {target : String} {vs : List Violation}
      (hmade : (∀ x ∈ made, x = d.decision ⟨.write, p⟩) ∧ made.isSome = d.host.tree.isFile p)
      (htarget : target = p.relativeTo d.session.root) (hvs : vs = s.violations) (id : String) :
      ⦃fun e => ⌜d.Still e⌝⦄ healFiles id target made vs
        ⦃⇓ _ e => ⌜d.Swept r place plan mss e⌝⦄ := by
    subst htarget hvs
    refine healFiles_swept hd id _ hmss hnodup ?_ ?_ hplan
    · intro x hx ms hms
      obtain ⟨ns, rfl, rfl⟩ := hfile (hmade.2 ▸ Option.isSome_of_mem hx)
      rw [mem_singleton.1 hms]
      exact hmade.1 x hx
    · rw [← htargets, ← hmade.2]
      cases made with
      | none | some => rfl
  have hrefresh := refreshIndex_quiet (P := d.Swept r place plan mss) fun _ _ he hf ↦
    he.of_eq ⟨hf.setting, hf.config, hf.digest⟩ hf.tree
  have hrecord := @record_swept r place plan mss d hd hmss
  mvcgen [heal, run, drawRun_spec, htarget, workspace, hdeny, hpreflight, hsurvey, hfiles, openAfter,
    hrefresh, hrecord]
  case vc1 he => exact he.trans (still_drawn _)
  case vc2 => exact (And.left ‹d.Still _ ∧ _ = p›).trans (still_judged _ _)
  case vc3 => exact And.right ‹d.Still _ ∧ _ = p›
  case vc4 hmade _ => exact hmade.1
  case vc5 hmade _ _ _ _ _ _ =>
    obtain ⟨-, rfl⟩ := ‹d.Still _ ∧ _ = p›
    exact hmade.2
  case vc6 =>
    obtain ⟨he, rfl⟩ := ‹d.Still _ ∧ _ = p›
    exact congrArg (Path.relativeTo _) he.akin.root
  case vc7 hs' _ _ => exact congrArg Survey.violations hs'.2
  case vc8 hs' _ _ => exact hs'.1
  case vc15 =>
    obtain ⟨-, rfl⟩ := ‹d.Still _ ∧ _ = p›
    intro he hisFile hdenied
    obtain ⟨ns, rfl, rfl⟩ := hfile hisFile
    have hplan' : plan ns = none := by rw [hplan ns mem_cons_self, if_neg hdenied]
    exact ⟨he.akin, he.sweep.snoc (hplan' ▸ .left (.refl _ _))⟩
  case vc28 he _ _ hdenied =>
    obtain ⟨he, rfl⟩ := he
    rw [he.decision] at hdenied
    exact hdenied hallowed

/-- A run that has no target, may not scan it or cannot read it leaves all but the ledger as it is. -/
theorem heal_left (hd : d.Tidy r place) {raw : String}
    (h : ∀ p s, d.workspace.resolve d.host.tree raw = .ok p → (d.decision ⟨.scan, p⟩).allowed →
      Survey.of d.session.config.scanner d.session.root d.host.tree p ≠ .ok s) :
    ⦃fun e => ⌜d.Still e⌝⦄ heal raw
      ⦃post⟨fun _ _ => ⌜False⌝, fun _ e => ⌜d.Swept r place plan [] e⌝⟩⦄ := by
  have hrecord := @record_swept r place plan [] d hd (by simp)
  have htarget (id : String) : ⦃fun e => ⌜d.Still e⌝⦄ runTarget id raw
      ⦃post⟨fun p e => ⌜d.Still e ∧ d.workspace.resolve d.host.tree raw = .ok p⌝,
        fun _ e => ⌜d.Swept r place plan [] e⌝⟩⦄ := by
    mvcgen [runTarget, resolve, workspace, fail, hrecord]
    case vc1 e he p hp =>
      refine ⟨he, ?_⟩
      rw [← he.workspace, ← he.tree]
      exact hp
    case vc2 e he _ _ _ => exact he.swept
  have hpreflight := @preflight_swept r place plan d hd
  have hsurvey {p : Path} (hp : d.workspace.resolve d.host.tree raw = .ok p ∧
      (d.decision ⟨.scan, p⟩).allowed) (id target : String) :
      ⦃fun e => ⌜d.Still e⌝⦄ runSurvey id target p
        ⦃post⟨fun _ _ => ⌜False⌝, fun _ e => ⌜d.Swept r place plan [] e⌝⟩⦄ := by
    mvcgen [runSurvey, survey, fail, hrecord]
    case vc1 e he s hs =>
      rw [he.akin.config, he.akin.root, he.tree] at hs
      exact h p s hp.1 hp.2 hs
    case vc2 e he _ _ => exact he.swept
  have hfiles (id target : String) (made : Option Decision) (vs : List Violation) :
      ⦃fun _ => ⌜False⌝⦄ healFiles id target made vs
        ⦃⇓ _ _ => ⌜False⌝⦄ := triple_iff.2 fun _ h ↦ h.elim
  have hrefresh (files : List String) (vs : List Violation) :
      ⦃fun _ => ⌜False⌝⦄ refreshIndex files vs
        ⦃⇓ _ _ => ⌜False⌝⦄ := triple_iff.2 fun _ h ↦ h.elim
  mvcgen [heal, run, drawRun_spec, htarget, workspace, deny, fail, hpreflight, hsurvey, hfiles,
    openAfter, hrefresh, hrecord]
  case vc1 he => exact he.trans (still_drawn _)
  case vc2 => exact (And.left ‹d.Still _ ∧ _ = Except.ok _›).trans (still_judged _ _)
  case vc3 =>
    have hp := ‹d.Still _ ∧ _ = Except.ok _›
    have hallowed := ‹Decision.allowed _ = true›
    rw [hp.1.decision] at hallowed
    exact ⟨hp.2, hallowed⟩
  case vc4 hmade _ => exact hmade.1
  case vc12 => exact fun he _ _ ↦ he
  case vc22 => exact ((And.left ‹d.Still _ ∧ _ = Except.ok _›).trans (still_judged _ _)).swept

end Work

end Steward
