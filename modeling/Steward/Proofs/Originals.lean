import Steward.Proofs.Fix.Backup
import Steward.Proofs.Journal

/-!
# Originals are kept

A file that the program writes to has a copy of its first bytes beside it, for good. One call that
fixes a file is followed in `Fix.file_careful`. Here a run that heals is seen to be a row of such
calls, with records in the ledger in between: it finds nothing in copies, as they are not scanned, so
it fixes none (`Work.run_tended`). A `Workshop` then goes through requests and changes by others in
any order, and `Workshop.originals_kept` says what has become of the copies in the end.
-/

namespace Steward

set_option mvcgen.warning false

open Location FileTree Std.Do

/-! ## Copies are not scanned -/

theorem Path.extensionOf?_of_backup {n e : String} (hn : ".backup".toList <:+ n.toList)
    (he : extensionOf? n = some e) : e = "backup" := by
  obtain ⟨cs, hcs⟩ := hn
  have hback : n.toList.reverse = "pukcab".toList ++ '.' :: cs.reverse := by
    rw [← hcs, List.reverse_append]
    rfl
  have htake : n.toList.reverse.takeWhile (· != '.') = "pukcab".toList := by
    rw [hback]
    rfl
  simp only [extensionOf?, htake] at he
  split at he
  · cases he
  · cases he
    rfl

theorem Survey.not_hasExtension_of_backup {extensions : List String} (h : "backup" ∉ extensions)
    {p : Path} {n : String} (hn : p.fileName? = some n) (hcopy : ".backup".toList <:+ n.toList) :
    ¬hasExtension extensions p := by
  rw [hasExtension, Path.extension?, hn, Option.bind_some]
  cases he : Path.extensionOf? n with
  | none => simp
  | some e =>
    rw [Path.extensionOf?_of_backup hcopy he, Option.any_some, List.contains_iff_mem]
    exact h

namespace Desk

/-- The place of the ledger. -/
def ledger (d : Desk) : Location := d.host.tree.place d.session.log.path

/-- There are no links, the ledger is not where a copy would be, and copies are not scanned. -/
structure Plain (d : Desk) : Prop where
  links : d.host.tree.NoLinks []
  home : d.host.tree.Homed
  ledger : ∀ l n, l ++ [n ++ ".backup"] ≠ d.ledger
  extensions : "backup" ∉ d.session.config.scanner.extensions.map Survey.plainExtension

/-- From `d` to `e` the copies were cared for. -/
structure Tended (d e : Desk) : Prop where
  akin : d.Akin e
  careful : Careful d.ledger d.host.tree e.host.tree

/-- The same in the midst of a run: a file that needs no copy any more has one. -/
structure Minded (d e : Desk) : Prop extends Tended d e where
  marked : Fix.Marked e.host.tree e.session.backedUp

variable {d e f : Desk}

theorem Tended.refl (d : Desk) : d.Tended d := ⟨⟨rfl, rfl, rfl⟩, .refl _ _⟩

theorem Tended.ledger (h : d.Tended e) : e.ledger = d.ledger := by
  rw [Desk.ledger, h.careful.changes.place, h.akin.logPath, Desk.ledger]

theorem Tended.trans (h : d.Tended e) (h' : e.Tended f) : d.Tended f :=
  ⟨h.akin.trans h'.akin, h.careful.trans (h.ledger ▸ h'.careful)⟩

theorem Still.tended (h : d.Still e) : d.Tended e := ⟨h.akin, h.tree ▸ .refl _ _⟩

theorem Tended.plain (h : d.Tended e) (hd : d.Plain) : e.Plain where
  links := h.careful.changes.noLinks hd.links
  home k hk := h.careful.changes.dirs k (hd.home k (h.careful.changes.workingDir ▸ hk))
  ledger := h.ledger ▸ hd.ledger
  extensions := h.akin.config ▸ hd.extensions

theorem Minded.trans (h : d.Minded e) (h' : e.Tended f)
    (hbackedUp : f.session.backedUp = e.session.backedUp) : d.Minded f :=
  ⟨h.toTended.trans h', hbackedUp ▸ h'.careful.marked h.marked⟩

theorem Minded.judged (h : d.Minded e) (a : Action) : d.Minded (e.judged a) :=
  h.trans (still_judged e a).tended rfl

end Desk

open Desk

/-- The path to a file named from a root does not end in the name of a copy. -/
def Uncopied (root : Path) (file : String) : Prop :=
  ∀ n ∈ (root.join file).fileName?, ¬".backup".toList <:+ n.toList

namespace Work

variable {d : Desk}

theorem record_cases {e : Desk} (he : e.Plain) (entry : Ledger.Entry) :
    (∃ x, record entry e = .error x e) ∨
      ∃ f, record entry e = .ok () f ∧ e.Tended f ∧ f.session.backedUp = e.session.backedUp := by
  rw [record_apply]
  obtain ⟨x, hx⟩ | ⟨x, log, file, hx, hpath, hfile, hne, hbefore⟩ :=
    Ledger.Log.append_cases (he.links.leads e.session.log.path).clear e.host.digest e.host.now entry
  · exact .inl ⟨.error (.ofAudit x), by rw [hx]⟩
  · rw [hx]
    refine .inr ⟨_, rfl, ⟨⟨by simp [setting, hpath, Host.recorded], rfl, rfl⟩, ?_⟩, rfl⟩
    exact .of_changes (.insert hne rfl hbefore hfile) he.ledger

theorem record_tended (hd : d.Plain) (entry : Ledger.Entry) :
    Preserves d.Tended (record entry) := by
  refine triple_iff.2 fun e he ↦ ?_
  obtain ⟨x, hx⟩ | ⟨f, hf, htended, -⟩ := record_cases (he.plain hd) entry
  · rw [hx]
    exact he
  · rw [hf]
    exact he.trans htended

theorem record_minded (hd : d.Plain) (entry : Ledger.Entry) :
    PreservesElse d.Minded (fun _ => d.Tended) (record entry) := by
  refine triple_iff.2 fun e he ↦ ?_
  obtain ⟨x, hx⟩ | ⟨f, hf, htended, hbackedUp⟩ := record_cases (he.plain hd) entry
  · rw [hx]
    exact he.toTended
  · rw [hf]
    exact he.trans htended hbackedUp

theorem runTarget_tended (hd : d.Plain) (id raw : String) :
    ⦃fun e => ⌜d.Tended e⌝⦄ runTarget id raw
      ⦃post⟨fun p e => ⌜d.Tended e ∧ p.isAbsolute⌝, fun _ e => ⌜d.Tended e⌝⟩⦄ := by
  have hrecord := record_tended hd
  mvcgen [runTarget, resolve, workspace, fail, hrecord]
  case vc1 e he p hp => exact ⟨he, Workspace.isAbsolute_of_resolve hp⟩

theorem preflight_tended (hd : d.Plain) (id target : String) (p : Path) :
    Preserves d.Tended (preflight id target p) := by
  have hrecord := record_tended hd
  mvcgen [preflight, fail, hrecord]
  all_goals exact Tended.trans ‹d.Tended _› (still_judged _ _).tended

/-- No copy is among the files with violations. -/
theorem runSurvey_tended (hd : d.Plain) (id target : String) {p : Path} (hp : p.isAbsolute) :
    ⦃fun e => ⌜d.Tended e⌝⦄ runSurvey id target p
      ⦃post⟨fun s e => ⌜d.Tended e ∧ ∀ v ∈ s.violations, Uncopied d.session.root v.file⌝,
        fun _ e => ⌜d.Tended e⌝⟩⦄ := by
  have hrecord := record_tended hd
  mvcgen [runSurvey, survey, fail, hrecord]
  case vc1 e he s hs =>
    refine ⟨he, fun v hv n hn hcopy ↦ ?_⟩
    rw [he.akin.root] at hs
    obtain ⟨q, hq, hfile, hextension⟩ := Survey.exists_path_of_mem_violations hp hs hv
    rw [hfile, Path.fileName?, Path.components_join_relativeTo hq] at hn
    exact Survey.not_hasExtension_of_backup (he.plain hd).extensions hn hcopy hextension

theorem writeDecision_minded (made : Option Decision) (p : Path) :
    PreservesElse d.Minded (fun _ => d.Tended) (writeDecision made p) := by
  mvcgen [writeDecision]
  all_goals exact Minded.judged ‹d.Minded _› _

theorem fixFile_minded (hd : d.Plain) {p : Path} (file : String) {vs : List Violation}
    (hvs : vs ≠ [] → ∀ n ∈ p.fileName?, ¬".backup".toList <:+ n.toList) :
    PreservesElse d.Minded (fun _ => d.Tended) (fixFile p file vs) := by
  mvcgen [fixFile]
  case vc1 e he =>
    by_cases hnil : vs = []
    · rw [hnil, Fix.file_nil]
      exact he.trans ⟨⟨rfl, rfl, rfl⟩, .refl _ _⟩ rfl
    · have hplain := he.plain hd
      obtain ⟨hcareful, hmarked⟩ := Fix.file_careful
        (b := { tree := e.host.tree, backedUp := e.session.backedUp }) hplain.links hplain.home
        he.marked (hvs hnil) e.ledger e.session.config.fixer e.host.now file vs
      exact ⟨he.toTended.trans ⟨⟨rfl, rfl, rfl⟩, hcareful⟩, hmarked⟩

theorem healFile_minded (hd : d.Plain) (id : String) (made : Option Decision) {h : Healing}
    (hh : ∀ v ∈ h.violations, Uncopied d.session.root v.file) (file : String) :
    ⦃fun e => ⌜d.Minded e⌝⦄ healFile id made h file
      ⦃post⟨fun h' e => ⌜d.Minded e ∧ ∀ v ∈ h'.violations, Uncopied d.session.root v.file⌝,
        fun _ e => ⌜d.Tended e⌝⟩⦄ := by
  have hrecord := record_minded hd
  have hdecision := @writeDecision_minded d
  have hfix {p : Path} (hp : p = d.session.root.join file) :
      PreservesElse d.Minded (fun _ => d.Tended) (fixFile p file (h.batch file)) := by
    refine fixFile_minded hd file fun hne ↦ ?_
    obtain ⟨v, hv⟩ := List.exists_mem_of_ne_nil _ hne
    simp only [Healing.batch, List.mem_filter, Bool.and_eq_true, decide_eq_true_iff] at hv
    obtain ⟨hv, -, rfl⟩ := hv
    exact hp ▸ hh v hv
  mvcgen [healFile, hdecision, hfix, hrecord]
  case vc2 he _ _ _ _ _ => exact congrArg (Path.join · file) he.akin.root
  case vc5 he =>
    refine ⟨he, fun v hv ↦ ?_⟩
    obtain ⟨v', hv', rfl⟩ := List.mem_map.1 hv
    split_ifs
    · exact hh v' hv'
    · exact hh v' hv'

/-- Each file is healed with its copy in mind, from a run's first on. -/
theorem healFiles_tended (hd : d.Plain) (id target : String) (made : Option Decision)
    {vs : List Violation} (hvs : ∀ v ∈ vs, Uncopied d.session.root v.file) :
    Preserves d.Tended (healFiles id target made vs) := by
  mvcgen [healFiles]
  invariants
  · post⟨fun x e => ⌜d.Minded e ∧ ∀ v ∈ x.2.violations, Uncopied d.session.root v.file⌝,
      fun _ e => ⌜d.Tended e⌝⟩
  case vc1 file _ _ h => exact fun e he hh ↦ healFile_minded hd id made hh file e he
  case vc2 he _ =>
    exact ⟨⟨he.trans ⟨⟨rfl, rfl, rfl⟩, .refl _ _⟩, fun _ hq ↦ absurd hq List.not_mem_nil⟩, hvs⟩
  case vc3 => exact fun he _ ↦ he.toTended

theorem run_tended (hd : d.Plain) (mode : RunMode) (raw : String) :
    Preserves d.Tended (run mode raw) := by
  have hrecord := record_tended hd
  have htarget := runTarget_tended hd
  have hpreflight := preflight_tended hd
  have hsurvey := @runSurvey_tended d hd
  have hfiles := @healFiles_tended d hd
  have hindex := refreshIndex_quiet (P := d.Tended) fun _ _ he hf ↦
    he.trans ⟨⟨hf.setting, hf.config, hf.digest⟩, hf.tree ▸ .refl _ _⟩
  mvcgen [run, drawRun_spec, htarget, workspace, deny, fail, hpreflight, hsurvey, hfiles, openAfter,
    hindex, hrecord]
  case vc1 he => exact he.trans (still_drawn _).tended
  case vc2 | vc12 | vc19 =>
    exact (And.left ‹d.Tended _ ∧ Path.isAbsolute _›).trans (still_judged _ _).tended
  case vc3 | vc11 => exact And.right ‹d.Tended _ ∧ Path.isAbsolute _›
  case vc5 => exact And.right ‹d.Tended _ ∧ ∀ v ∈ Survey.violations _, _›
  case vc6 | vc17 => exact And.left ‹d.Tended _ ∧ ∀ v ∈ Survey.violations _, _›

/-- Whatever a run does and however it ends, it cares for the copies. -/
theorem after_tended (hd : d.Plain) (mode : RunMode) (raw : String) :
    d.Tended ((run mode raw).after d) :=
  after_of_triple (run_tended hd mode raw) (.refl d) (fun _ _ ↦ id) fun _ _ ↦ id

end Work

/-! ## Histories -/

/-- A session, and beside it a fixer that is asked directly. -/
structure Workshop where
  desk : Desk
  fixer : Config.Fixer
  /-- The files of which the fixer makes no copy any more in its run. -/
  backedUp : List Path := []

inductive Workshop.Request where
  /-- The fixer begins a new run. -/
  | beginRun
  /-- The fixer fixes some violations of a file. -/
  | fix (p : Path) (name : String) (vs : List Violation)
  /-- The session heals a target. -/
  | heal (raw : String)

inductive Workshop.Event where
  | request (r : Request)
  /-- The host is changed by others. -/
  | outside (host : Host)

/-- From `t` to `t'` no copy came, went or changed. There are still no links, and the working
directory is still there. -/
structure FileTree.Apart (t t' : FileTree) : Prop where
  links : t'.NoLinks []
  workingDir : t'.workingDir = t.workingDir
  home : t'.Homed
  copies : ∀ l n, t'.get? (l ++ [n ++ ".backup"]) = t.get? (l ++ [n ++ ".backup"])

/-- Others may write to a file that is no copy. -/
theorem FileTree.apart_insert {t : FileTree} (hlinks : t.NoLinks []) (hhome : t.Homed)
    {l : Location} {n : String} (hn : ¬".backup".toList <:+ n.toList) {e : Entry} (he : e.isFile)
    (hbefore : ∀ e ∈ t.get? (l ++ [n]), e.isFile) : t.Apart (t.insert (l ++ [n]) e) := by
  have hchanges : ChangesOnly (· = l ++ [n]) t (t.insert (l ++ [n]) e) :=
    .insert (by simp) rfl hbefore he
  exact ⟨hchanges.noLinks hlinks, rfl, fun k hk ↦ hchanges.dirs k (hhome k hk),
    fun l' n' ↦ hchanges.others _ (Fix.backup_ne_of_not_suffix hn)⟩

namespace Workshop

variable {w : Workshop} {r : Request} {e : Event} {es es' : List Event}

def tree (w : Workshop) : FileTree := w.desk.host.tree

/-- The workshop after a request, whether it was met or not. -/
def perform (w : Workshop) : Request → Workshop
  | .beginRun => { w with backedUp := [] }
  | .fix p name vs =>
    let b := (Fix.file w.fixer w.desk.host.now p name vs
      { tree := w.tree, backedUp := w.backedUp }).2
    { w with
      desk.host := { w.desk.host with tree := b.tree, sleeps := w.desk.host.sleeps ++ b.sleeps }
      backedUp := b.backedUp }
  | .heal raw => { w with desk := (Work.heal raw).after w.desk }

def next (w : Workshop) : Event → Workshop
  | .request r => w.perform r
  | .outside host => { w with desk.host := host }

def after (w : Workshop) (es : List Event) : Workshop := es.foldl next w

/-- A request writes to a place: what is there afterwards is not what was there before. -/
def Writes (w : Workshop) (r : Request) (l : Location) : Prop :=
  (w.perform r).tree.get? l ≠ w.tree.get? l

/-- The fixer is not asked to fix a copy, and others leave the copies alone. -/
def Fair (w : Workshop) : Event → Prop
  | .request (.fix p _ _) => ∀ n ∈ p.fileName?, ¬".backup".toList <:+ n.toList
  | .request _ => True
  | .outside host => w.tree.Apart host.tree

/-- All that happens from `w` on is fair. -/
def FairRun : Workshop → List Event → Prop
  | _, [] => True
  | w, e :: es => w.Fair e ∧ (w.next e).FairRun es

/-- A file of which no copy is made any more has one. -/
structure Sound (w : Workshop) : Prop where
  plain : w.desk.Plain
  marked : Fix.Marked w.tree w.backedUp

/-- From `w` to `w'` all copies were kept. -/
structure Keeps (w w' : Workshop) : Prop where
  sound : w'.Sound
  ledger : w'.desk.ledger = w.desk.ledger
  copies : ∀ l n e, w.tree.get? (l ++ [n ++ ".backup"]) = some e →
    w'.tree.get? (l ++ [n ++ ".backup"]) = some e

theorem Keeps.trans {w' w'' : Workshop} (h : w.Keeps w') (h' : w'.Keeps w'') : w.Keeps w'' :=
  ⟨h'.sound, h'.ledger.trans h.ledger, fun l n e he ↦ h'.copies l n e (h.copies l n e he)⟩

theorem after_append (w : Workshop) (es es' : List Event) :
    w.after (es ++ es') = (w.after es).after es' := List.foldl_append

theorem fairRun_append : w.FairRun (es ++ es') ↔ w.FairRun es ∧ (w.after es).FairRun es' := by
  induction es generalizing w with
  | nil => exact (iff_of_eq (true_and _)).symm
  | cons e es ih =>
    rw [List.cons_append, FairRun, FairRun, ih, and_assoc]
    rfl

/-- One request cares for the copies. -/
theorem Sound.perform (h : w.Sound) (hr : w.Fair (.request r)) :
    w.desk.Tended (w.perform r).desk ∧ (w.perform r).Sound := by
  cases r with
  | beginRun =>
    exact ⟨.refl _, h.plain, fun _ hq ↦ absurd hq List.not_mem_nil⟩
  | fix p name vs =>
    obtain ⟨hcareful, hmarked⟩ := Fix.file_careful
      (b := { tree := w.tree, backedUp := w.backedUp }) h.plain.links h.plain.home h.marked hr
      w.desk.ledger w.fixer w.desk.host.now name vs
    have htended : w.desk.Tended (w.perform (.fix p name vs)).desk := ⟨⟨rfl, rfl, rfl⟩, hcareful⟩
    exact ⟨htended, htended.plain h.plain, hmarked⟩
  | heal raw =>
    have htended := Work.after_tended h.plain .heal raw
    exact ⟨htended, htended.plain h.plain, htended.careful.marked h.marked⟩

theorem Sound.next (h : w.Sound) (he : w.Fair e) : w.Keeps (w.next e) := by
  cases e with
  | request r =>
    obtain ⟨htended, hsound⟩ := h.perform he
    exact ⟨hsound, htended.ledger, htended.careful.copies⟩
  | outside host =>
    have hledger : (w.next (.outside host)).desk.ledger = w.desk.ledger := by
      simp only [ledger, Workshop.next, FileTree.place, startOf, he.workingDir]
      rfl
    refine ⟨⟨⟨he.links, he.home, hledger ▸ h.plain.ledger, h.plain.extensions⟩, ?_⟩, hledger, ?_⟩
    · exact h.marked.mono he.workingDir fun l n hsome ↦ by
        change (host.tree.get? _).isSome
        rw [he.copies]
        exact hsome
    · intro l n e hcopy
      exact (he.copies l n).trans hcopy

theorem Sound.after (h : w.Sound) (hes : w.FairRun es) : w.Keeps (w.after es) := by
  induction es generalizing w with
  | nil => exact ⟨h, rfl, fun _ _ _ ↦ id⟩
  | cons e es ih =>
    have hnext := h.next hes.1
    exact hnext.trans (ih hnext.sound hes.2)

section Files

variable {l : Location} {n : String}

/-- A request that does not write to a file makes no copy of it. -/
theorem Sound.copy_of_not_writes (h : w.Sound) (hr : w.Fair (.request r)) (hn : Fix.Lasting n)
    (hl : l ++ [n] ≠ w.desk.ledger) (hwrites : ¬w.Writes r (l ++ [n])) :
    (w.perform r).tree.get? (l ++ [n ++ ".backup"]) = w.tree.get? (l ++ [n ++ ".backup"]) := by
  cases (h.perform hr).1.careful.files l n hn hl with
  | left _ hcopy => exact hcopy
  | written hold hnew hlt _ =>
    -- What weighs less is not the same.
    have hsame := bytesAt_congr (not_not.1 hwrites)
    cases hold.symm.trans (hsame.symm.trans hnew)
    exact absurd hlt (lt_irrefl _)

/-- A request that writes to a file leaves a copy, the old one or one of the bytes before. -/
theorem Sound.copy_of_writes (h : w.Sound) (hr : w.Fair (.request r)) (hn : Fix.Lasting n)
    (hl : l ++ [n] ≠ w.desk.ledger) (hwrites : w.Writes r (l ++ [n])) :
    ∃ old now, w.tree.bytesAt (l ++ [n]) = some old ∧
      (w.perform r).tree.get? (l ++ [n ++ ".backup"]) =
        some ((w.tree.get? (l ++ [n ++ ".backup"])).getD (.file old now)) := by
  cases (h.perform hr).1.careful.files l n hn hl with
  | left hfile _ => exact absurd hfile hwrites
  | @written old _ now hold _ _ hcopy => exact ⟨old, now, hold, hcopy⟩

/-- As long as no request writes to a file, no copy of it is made. -/
theorem Sound.copy_of_none_writes (h : w.Sound) (hes : w.FairRun es) (hn : Fix.Lasting n)
    (hl : l ++ [n] ≠ w.desk.ledger)
    (hwrites : ∀ before r later, es = before ++ .request r :: later →
      ¬(w.after before).Writes r (l ++ [n])) :
    (w.after es).tree.get? (l ++ [n ++ ".backup"]) = w.tree.get? (l ++ [n ++ ".backup"]) := by
  induction es generalizing w with
  | nil => rfl
  | cons e es ih =>
    have hnext := h.next hes.1
    refine (ih hnext.sound hes.2 (hnext.ledger ▸ hl) fun before r later heq ↦ ?_).trans ?_
    · exact hwrites (e :: before) r later (by rw [heq, List.cons_append])
    cases e with
    | request r => exact h.copy_of_not_writes hes.1 hn hl (hwrites [] r es rfl)
    | outside host => exact hes.1.copies l n

end Files

/-- **Originals are kept.** Let requests to heal and to fix files that are no copies come in any
order, and others change in between what is no copy. Then a copy, once it is there, stays as it is.
A file that is written has a copy from then on; and if there was none at the start, the copy is of
the bytes that the file had just before a request wrote to it for the first time. -/
theorem originals_kept (hw : w.desk.Plain) (hnew : w.backedUp = []) (hes : w.FairRun es) :
    (∀ before later, es = before ++ later → ∀ l n e,
      (w.after before).tree.get? (l ++ [n ++ ".backup"]) = some e →
        (w.after es).tree.get? (l ++ [n ++ ".backup"]) = some e) ∧
    ∀ before r later, es = before ++ .request r :: later →
      ∀ l n, Fix.Lasting n → l ++ [n] ≠ w.desk.ledger → (w.after before).Writes r (l ++ [n]) →
        ((w.after es).tree.get? (l ++ [n ++ ".backup"])).isSome ∧
        (w.tree.get? (l ++ [n ++ ".backup"]) = none →
          (∀ earlier r' rest, before = earlier ++ .request r' :: rest →
            ¬(w.after earlier).Writes r' (l ++ [n])) →
          ∃ old now, (w.after before).tree.bytesAt (l ++ [n]) = some old ∧
            (w.after es).tree.get? (l ++ [n ++ ".backup"]) = some (.file old now)) := by
  have hsound : w.Sound := ⟨hw, fun q hq ↦ by simp [hnew] at hq⟩
  refine ⟨?_, ?_⟩
  · rintro before later rfl l n e he
    obtain ⟨hbefore, hlater⟩ := fairRun_append.1 hes
    rw [after_append]
    exact ((hsound.after hbefore).sound.after hlater).copies l n e he
  · rintro before r later rfl l n hn hl hwrites
    obtain ⟨hbefore, hr, hlater⟩ := fairRun_append.1 hes
    have hkeeps := hsound.after hbefore
    obtain ⟨old, now, hold, hcopy⟩ :=
      hkeeps.sound.copy_of_writes hr hn (hkeeps.ledger ▸ hl) hwrites
    have hend : (w.after (before ++ .request r :: later)).tree.get? (l ++ [n ++ ".backup"]) =
        some (((w.after before).tree.get? (l ++ [n ++ ".backup"])).getD (.file old now)) := by
      rw [after_append]
      exact ((hkeeps.sound.next hr).sound.after hlater).copies l n _ hcopy
    refine ⟨by rw [hend]; rfl, fun hnone hfirst ↦ ⟨old, now, hold, ?_⟩⟩
    rw [hend, hsound.copy_of_none_writes hbefore hn hl hfirst, hnone, Option.getD_none]

/-- A bare handler in the file `a.py`, which is fixed by some path. -/
def fixAt (path : String) : Request :=
  .fix ⟨path⟩ "a.py" [⟨.bareExcept, "a.py", 1, .low, "except:", true, none, false⟩]

/-- A workshop for the file `a.py` in `/w`, with its ledger beside it. -/
def sample : Workshop where
  desk := .sole "a.py" "except:\n" ⟨"/w/log"⟩ {}
  fixer := {}

theorem sample_plain : sample.desk.Plain where
  links l _ := get?_ne_link_of_entries (by decide) l
  home k hk := by
    rw [List.prefix_nil.1 hk]
    exact get?_nil _
  ledger l n := Fix.backup_ne_of_not_suffix (l := ["w"]) (n := "log") (by decide)
  extensions := by decide

/-- The file is healed, then made anew by others, and fixed once more in a new run. -/
def mendedTwice : List Event :=
  [.request (.heal "."),
    .outside { (sample.perform (.heal ".")).desk.host with
      tree := (sample.perform (.heal ".")).tree.insert (["w"] ++ ["a.py"])
        (.file (Utf8.encode "except:  # again\n".toList) ⟨0, 0⟩) },
    .request .beginRun,
    .request (fixAt "/w//./a.py")]

theorem sample_fairRun : sample.FairRun mendedTwice := by
  have hplain := (Work.after_tended sample_plain .heal ".").plain sample_plain
  have hname : ∀ n ∈ Path.fileName? ⟨"/w//./a.py"⟩, ¬".backup".toList <:+ n.toList := by decide
  refine ⟨trivial, ?_, trivial, hname, trivial⟩
  exact apart_insert hplain.links hplain.home (by decide) rfl (by decide +kernel)

/-- The first copy is kept when the file is made anew and fixed once more. -/
theorem originals_kept_mendedTwice :
    sample.desk.Plain ∧ sample.backedUp = [] ∧ sample.FairRun mendedTwice ∧
      sample.Writes (.heal ".") (["w"] ++ ["a.py"]) ∧
      (sample.after (mendedTwice.take 3)).Writes (fixAt "/w//./a.py") (["w"] ++ ["a.py"]) ∧
      ∃ old now, sample.tree.bytesAt (["w"] ++ ["a.py"]) = some old ∧
        (sample.after mendedTwice).tree.get? (["w"] ++ ["a.py" ++ ".backup"]) =
          some (.file old now) := by
  have hwrites : sample.Writes (.heal ".") (["w"] ++ ["a.py"]) := by
    rw [Writes]
    decide +kernel
  refine ⟨sample_plain, rfl, sample_fairRun, hwrites, by rw [Writes]; decide +kernel, ?_⟩
  exact ((originals_kept sample_plain rfl sample_fairRun).2 [] _ _ rfl ["w"] "a.py" (by decide)
    (by decide) hwrites).2 (by decide) (by simp)

/-- Others put a file where one is under way when `a.py` is written. -/
def littered : List Event :=
  [.outside { sample.desk.host with
    tree := sample.tree.insert (["w"] ++ ["a.py.tmp"]) (.file (Utf8.encode "mine".toList) ⟨0, 0⟩) }]

/-- A workshop with its ledger where the copy of a file `b` would be. -/
def misplaced : Workshop where
  desk := .sole "a.py" "x\n" ⟨"/w/b.backup"⟩ {}
  fixer := {}

/-- Without its conditions this fails. A copy that is given to the fixer is fixed like any file. A
file with the name of one under way is lost without a copy. The ledger has no copy, and is written
to also where the copy of another file would be. -/
theorem originals_lost :
    (((sample.after [.request (fixAt "/w/a.py")]).tree.get? ["w", "a.py.backup"]).isSome ∧
        (sample.after [.request (fixAt "/w/a.py")]).Writes (fixAt "/w/a.py.backup")
          ["w", "a.py.backup"]) ∧
      (sample.FairRun littered ∧
        (sample.after littered).Writes (fixAt "/w/a.py") ["w", "a.py.tmp"] ∧
        ((sample.after littered).perform (fixAt "/w/a.py")).tree.get? ["w", "a.py.tmp.backup"] =
          none) ∧
      (sample.Writes (.heal ".") sample.desk.ledger ∧
        (sample.perform (.heal ".")).tree.get? ["w", "log.backup"] = none) ∧
      ((misplaced.after [.request (.heal "a.py")]).tree.get? ["w", "b.backup"]).isSome ∧
        (misplaced.after [.request (.heal "a.py")]).Writes (.heal "a.py") ["w", "b.backup"] := by
  have hfair : sample.FairRun littered :=
    ⟨apart_insert sample_plain.links sample_plain.home (by decide) rfl (by decide), trivial⟩
  refine ⟨⟨by decide +kernel, ?_⟩, ⟨hfair, ?_, by decide +kernel⟩, ⟨?_, by decide +kernel⟩,
    by decide +kernel, ?_⟩
  all_goals
    rw [Writes]
    decide +kernel

end Workshop

end Steward
