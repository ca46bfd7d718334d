import Steward.Proofs.FileTree.Growth
import Steward.Proofs.Index.Freshness

/-!
# Where opening puts the ledger

The path of a ledger is configured, and the rules judge it as it is written: a relative one starts in
the reserved directory, and what `..` makes of it they do not see. `Session.openWith_confined_iff`
says which paths lead to a place in the workspace that tells of no credentials.
-/

namespace Steward

open List

set_option mvcgen.warning false

open Location FileTree Std.Do

/-! ## Where components lead -/

/-- Where components lead once each `..` has taken back the name before it: some levels up, and from
there down by some names. -/
structure Way where
  ups : Nat := 0
  downs : Location := []
deriving DecidableEq, Repr

namespace Way

/-- Where the way leads from a place. There is nothing above the top. -/
def follow (w : Way) (l : Location) : Location := l.take (l.length - w.ups) ++ w.downs

def step (w : Way) : Component → Way
  | .top | .here => w
  | .up => if w.downs = [] then { w with ups := w.ups + 1 } else { w with downs := w.downs.dropLast }
  | .name n => { w with downs := w.downs ++ [n] }

def ofComponents (cs : List Component) : Way := cs.foldl step {}

theorem follow_step (w : Way) (l : Location) (c : Component) :
    (w.step c).follow l = c.move (w.follow l) := by
  cases c with
  | top | here => rfl
  | name n => simp [step, follow, Component.move]
  | up =>
    rw [step]
    split_ifs with hdowns
    · simp only [follow, Component.move, hdowns, append_nil, dropLast_eq_take,
        take_take, length_take]
      congr 1
      omega
    · simp only [follow, Component.move, dropLast_append_of_ne_nil hdowns]

theorem follow_ofComponents (cs : List Component) (l : Location) :
    (ofComponents cs).follow l = cs.foldl Component.move l := by
  suffices hfold : ∀ w : Way, (cs.foldl step w).follow l = cs.foldl Component.move (w.follow l) by
    rw [ofComponents, hfold]
    simp [follow]
  induction cs with
  | nil => exact fun _ ↦ rfl
  | cons c cs ih =>
    intro w
    rw [foldl_cons, foldl_cons, ih, follow_step]

end Way

/-! ## Where a ledger is bound to be -/

/-- The names tell of no credentials, or lead into the reserved directory. -/
def Discreet (ns : Location) : Prop :=
  ns.head? = some Workspace.reservedName ∨
    ∀ n ∈ ns, ∀ m ∈ Rule.credentialMarks, ¬m.toList <:+: n.toList.map Rule.foldLetter

instance (ns : Location) : Decidable (Discreet ns) :=
  inferInstanceAs (Decidable (ns.head? = some Workspace.reservedName ∨
    ∀ n ∈ ns, ∀ m ∈ Rule.credentialMarks, ¬m.toList <:+: n.toList.map Rule.foldLetter))

/-- The place is at or below `r`, by names that do not tell of credentials. -/
def Confined (r l : Location) : Prop := r <+: l ∧ Discreet (l.drop r.length)

instance (r l : Location) : Decidable (Confined r l) :=
  inferInstanceAs (Decidable (r <+: l ∧ Discreet (l.drop r.length)))

theorem confined_append_iff {l r ns : Location} :
    Confined (l ++ r) (l ++ ns) ↔ Confined r ns := by
  rw [Confined, Confined, prefix_append_right_inj, length_append, ← drop_drop,
    drop_left]

/-- A way from the reserved directory of the workspace at `r` leads to a confined place if it stays
there, or if it goes down again by the names it came up, and on by names that tell of nothing. -/
theorem confined_follow_iff {r : Location} {w : Way} :
    Confined r (w.follow (r ++ [Workspace.reservedName])) ↔
      w.ups = 0 ∨ Confined (r.drop (r.length + 1 - w.ups)) w.downs := by
  by_cases hups : w.ups = 0
  · have hfollow : w.follow (r ++ [Workspace.reservedName]) =
        r ++ Workspace.reservedName :: w.downs := by
      rw [Way.follow, hups, Nat.sub_zero, take_length, append_assoc, singleton_append]
    simp only [hfollow, hups, true_or, iff_true]
    exact ⟨prefix_append r _, by simp [Discreet]⟩
  · have hle : r.length + 1 - w.ups ≤ r.length := by omega
    have hfollow : w.follow (r ++ [Workspace.reservedName]) =
        r.take (r.length + 1 - w.ups) ++ w.downs := by
      rw [Way.follow, length_append, length_singleton, take_append_of_le_length hle]
    have hsplit : Confined (r.take (r.length + 1 - w.ups) ++ r.drop (r.length + 1 - w.ups))
        (r.take (r.length + 1 - w.ups) ++ w.downs) ↔
          Confined (r.drop (r.length + 1 - w.ups)) w.downs := confined_append_iff
    rw [take_append_drop] at hsplit
    rw [hfollow, hsplit, or_iff_right hups]

/-- A ledger that is configured as `file` stays in the workspace at `r`, and away from what tells of
credentials, as long as the rules let it be there. A relative path leads from the reserved directory,
which the rules take for granted; an absolute one without `..` they know to tell of nothing. -/
def Bounded (r : Location) (file : String) : Prop :=
  if (Path.mk file).isAbsolute then
    r <+: (Way.ofComponents (Path.body file)).downs ∧ (.up ∈ Path.body file →
      Discreet ((Way.ofComponents (Path.body file)).downs.drop r.length))
  else (Way.ofComponents (Path.body file)).ups = 0 ∨
    Confined (r.drop (r.length + 1 - (Way.ofComponents (Path.body file)).ups))
      (Way.ofComponents (Path.body file)).downs

instance (r : Location) (file : String) : Decidable (Bounded r file) :=
  inferInstanceAs (Decidable (ite _ _ _))

theorem Way.ofComponents_map_name (ns : Location) :
    ofComponents (ns.map .name) = { downs := ns } := by
  suffices hfold : ∀ w : Way, (ns.map .name).foldl step w = { w with downs := w.downs ++ ns } by
    rw [ofComponents, hfold]
    rfl
  induction ns with
  | nil => simp
  | cons n ns ih =>
    intro w
    rw [map_cons, foldl_cons, ih]
    simp [step]

/-- Components without `..` are names. -/
theorem Path.exists_body_eq_map {text : String} (hup : .up ∉ body text) :
    ∃ ns : Location, body text = ns.map .name := by
  have hnames : ∀ c ∈ body text, c ∈ Set.range Component.name := by
    intro c hc
    obtain ⟨s, -, hs⟩ := mem_filterMap.1 hc
    rw [componentOf?] at hs
    split_ifs at hs with hempty hdots
    · cases hs
      exact absurd hc hup
    · cases hs
      exact ⟨s, rfl⟩
  obtain ⟨ns, hns⟩ : body text ∈ Set.range (List.map Component.name) := by
    rw [Set.range_list_map]
    exact hnames
  exact ⟨ns, hns.symm⟩

section Rules

variable {w : Workspace} {r : Location} {file : String}

/-- The rules see to it that an absolute path without `..` into the workspace tells of nothing. -/
theorem Rule.discreet_of_allow (hr : r.Proper) (hw : w.root = r.path)
    (hfile : (Path.mk file).isAbsolute) (hup : .up ∉ Path.body file)
    (hunder : r <+: (Way.ofComponents (Path.body file)).downs)
    (hallow : credentialExclusion.predicate ⟨.auditAppend, ⟨file⟩⟩ w = .allow) :
    Discreet ((Way.ofComponents (Path.body file)).downs.drop r.length) := by
  obtain ⟨ns, hns⟩ := Path.exists_body_eq_map hup
  rw [hns, Way.ofComponents_map_name] at hunder ⊢
  obtain ⟨ms, rfl⟩ := hunder
  have hcomponents : (Path.mk file).components = w.root.components ++ ms.map .name := by
    rw [Path.components, if_pos hfile, hw, components_path hr]
    simpa [Path.body] using hns
  have hsegments : segments w ⟨file⟩ = ms := by
    rw [segments, Path.stripPrefix?, hcomponents, if_pos (by simp)]
    simp [filterMap_map]
  rw [credentialExclusion_allows_iff rfl, hsegments] at hallow
  rwa [drop_left]

/-- Where the text of a ledger's path leads. -/
theorem FileTree.place_log (t : FileTree) (hr : r.Proper) (hw : w.root = r.path) :
    t.place (w.reservedDir.join file) = (Way.ofComponents (Path.body file)).follow
      (if (Path.mk file).isAbsolute then [] else r ++ [Workspace.reservedName]) := by
  have hreserved : w.reservedDir = (r ++ [Workspace.reservedName]).path := by
    rw [Workspace.reservedDir, hw, join_path_name r hr (by decide)]
  have hproper : Proper (r ++ [Workspace.reservedName]) := by
    rw [proper_append]
    exact ⟨hr, by decide⟩
  have habsolute := Path.isAbsolute_join (isAbsolute_path (r ++ [Workspace.reservedName])) file
  rw [hreserved, place, startOf, if_pos habsolute, placeFrom_steps, Way.follow_ofComponents]
  split_ifs with hfile
  · rw [Path.join, if_pos (of_decide_eq_true hfile)]
  · have hcomponents := Path.components_join (isAbsolute_path (r ++ [Workspace.reservedName]))
      (show file.toList.head? ≠ some '/' from fun h ↦ hfile (decide_eq_true h))
    rw [Path.components, if_pos habsolute, components_path hproper, cons_append,
      List.cons.injEq] at hcomponents
    rw [Path.body, hcomponents.2, foldl_append]
    have hnames (l ns : Location) : (ns.map Component.name).foldl Component.move l = l ++ ns := by
      rw [← Way.follow_ofComponents, Way.ofComponents_map_name]
      simp [Way.follow]
    rw [hnames]
    rfl

/-- A ledger that the rules allow stands in a confined place exactly if it is bound to. -/
theorem Rule.confined_place_iff (t : FileTree) (hr : r.Proper) (hw : w.root = r.path)
    (hallow : credentialExclusion.predicate ⟨.auditAppend, w.reservedDir.join file⟩ w = .allow) :
    Confined r (t.place (w.reservedDir.join file)) ↔ Bounded r file := by
  rw [t.place_log hr hw, Bounded]
  split_ifs with hfile
  · rw [Path.join, if_pos (of_decide_eq_true hfile)] at hallow
    rw [Way.follow, take_nil, nil_append, Confined]
    refine and_congr_right fun hunder ↦ ⟨fun h _ ↦ h, fun h ↦ ?_⟩
    by_cases hup : .up ∈ Path.body file
    · exact h hup
    · exact discreet_of_allow hr hw hfile hup hunder hallow
  · exact confined_follow_iff

end Rules


/-! ## Opening -/

/-- Work on the files does to them what it does on its own. -/
theorem Job.disk_tree {α : Type} {x : Disk α} {P : FileTree → Prop} {Q : α → FileTree → Prop}
    {E : FileTree → Prop}
    (h : ⦃fun t => ⌜P t⌝⦄ x ⦃post⟨fun a t => ⌜Q a t⌝, fun _ t => ⌜E t⌝⟩⦄) (wrap : IoError → Error) :
    ⦃fun h => ⌜P h.tree⌝⦄ Job.disk wrap x
      ⦃post⟨fun a h => ⌜Q a h.tree⌝, fun _ h => ⌜E h.tree⌝⟩⦄ := by
  refine triple_iff.2 fun g hg ↦ ?_
  have hx := triple_iff.1 h g.tree hg
  rw [Job.disk]
  cases hrun : x g.tree with
  | ok a t | error e t =>
    rw [hrun] at hx
    exact hx

/-- What was added to is where the path leads. -/
theorem Ledger.Log.append_leads {log : Log} (hp : log.path.isAbsolute) (digest : Digest)
    (now : Instant) (e : Ledger.Entry) :
    ⦃fun _ => ⌜True⌝⦄ log.append digest now e
      ⦃⇓? x t => ⌜x.2.path = log.path ∧
          ∃ l, t.spot .written log.path = .ok (.entry l) ∧ t.FileAt l⌝⦄ := by
  have happend (bytes : List UInt8) : ⦃fun _ => ⌜True⌝⦄ Disk.append now log.path bytes
      ⦃⇓? _ t => ⌜∃ l, t.spot .written log.path = .ok (.entry l) ∧ t.FileAt l⌝⦄ := by
    refine triple_iff.2 fun t _ ↦ ?_
    cases hrun : Disk.append now log.path bytes t with
    | error => trivial
    | ok u t' =>
      obtain ⟨l, hl⟩ := exists_leadsTo hrun
      obtain ⟨e, hrun', hfile⟩ := hl.append now bytes
      cases hrun.symm.trans hrun'
      obtain ⟨hne, hbefore⟩ := hl.isFile
      have hget : (t.insert l e).get? l = some e := by rw [get?_insert t hne, if_pos rfl]
      have hlinks : ∀ q, l = q → ∀ target, t.get? q ≠ some (.link target) := by
        rintro q rfl target hlink
        cases hbefore _ hlink
      refine ⟨l, ?_, e, hget, hfile⟩
      rcases hl.of_changes (.insert hne rfl hbefore hfile) hlinks hp with hvacant | ⟨hentry, -⟩
      · rw [(look_vacant_inv hvacant).2] at hget
        cases hget
      · exact hentry
  mvcgen [Log.append, happend]

namespace Session

/-- Opening the index keeps what new directories, and files at free places or in place of others,
keep. -/
theorem openIndex_frame {P : FileTree → Prop}
    (hdirs : ∀ t l, P t → l ≠ [] → t.get? l = none → P (t.insert l .dir))
    (hfiles : ∀ t l e, P t → l ≠ [] → (∀ e' ∈ t.get? l, e'.isFile) → e.isFile → P (t.insert l e))
    (p : Path) : Preserves (fun h ↦ P h.tree) (openIndex p) := by
  have hparents (p : Path) := Job.disk_tree (Disk.makeParents_frame hdirs p)
  have hupdate (now : Instant) (p : Path) (store : Nat) :=
    Job.disk_tree (Disk.update_frame hfiles now p (f := fun _ ↦ .database store now) fun _ _ ↦ rfl)
  mvcgen [openIndex, IndexHandle.openAt, IndexHandle.create, IndexHandle.tables, Job.fail, hparents,
    hupdate]

theorem ensure_frame {P : FileTree → Prop} {make : Disk Unit}
    (hmake : Preserves P make) (label : String)
    (p : Path) (doing : String) (r : InitReport) :
    Preserves (fun h ↦ P h.tree) (ensure label p doing make r) := by
  have hdisk := Job.disk_tree hmake
  mvcgen [ensure, hdisk]

theorem prepare_linkless (reserved : Path) (config : Config) (log : Path) :
    Preserves (·.tree.Linkless) (prepare reserved config log) := by
  have hdir := ensure_frame
    (Disk.makeDirs_frame (P := Linkless) (fun t l ht _ _ ↦ ht.insert l (.inl rfl)) reserved)
  have hfile (reserved : Path) (name : String) (content : List Char) (r : InitReport) :
      Preserves (·.tree.Linkless) (ensureFile reserved name content r) := by
    have hensure (now : Instant) (p : Path) (bytes : List UInt8) :=
      ensure_frame (Disk.writeAtomic_linkless now p bytes)
    mvcgen [ensureFile, hensure]
  mvcgen [prepare, hdir, hfile, Job.ofExcept, Job.fail]

theorem openWith_linkless (root : Path) (adapter : Adapter) (config : Config)
    (constitution : Constitution) :
    Preserves (·.tree.Linkless) (openWith root adapter config constitution) := by
  have hdirs (t : FileTree) (l : Location) (ht : t.Linkless) (_ : l ≠ []) (_ : t.get? l = none) :
      (t.insert l .dir).Linkless := ht.insert l (.inl rfl)
  have hfiles (t : FileTree) (l : Location) (e : Entry) (ht : t.Linkless) (_ : l ≠ [])
      (_ : ∀ e' ∈ t.get? l, e'.isFile) (he : e.isFile) : (t.insert l e).Linkless :=
    ht.insert l (.inr he)
  have hprepare := prepare_linkless
  have hlog (p : Path) : Preserves (·.Linkless) (Ledger.Log.openAt p) := by
    have hparents := Disk.makeParents_frame hdirs
    mvcgen [Ledger.Log.openAt, hparents, Disk.ask]
  have happend (digest : Digest) (now : Instant) (log : Ledger.Log) (e : Ledger.Entry) :
      Preserves (·.Linkless) (log.append digest now e) := by
    have hupdate (p : Path) (bytes : List UInt8) :=
      Disk.update_frame hfiles now p fun e he ↦ (Entry.isFile_appended now bytes e).trans he
    mvcgen [Ledger.Log.append, Disk.append, hupdate]
  have hopen (p : Path) := Job.disk_tree (hlog p)
  have hadd (digest : Digest) (now : Instant) (log : Ledger.Log) (e : Ledger.Entry) :=
    Job.disk_tree (happend digest now log e)
  have hindex := openIndex_frame hdirs hfiles
  mvcgen [openWith, Session.bind, Job.fail, hprepare, hopen, hadd, hindex]

/-- What opening needs, and where the ledger is then. -/
theorem openWith_place {root : Path} (hroot : root.isAbsolute) (adapter : Adapter) (config : Config)
    (constitution : Constitution) (h₀ : Host) :
    ⦃fun h => ⌜h = h₀⌝⦄ openWith root adapter config constitution
      ⦃⇓? s h => ⌜(constitution.judge ⟨.auditAppend, s.log.path⟩
            ⟨root, h₀.history adapter⟩).allowed ∧
          s.log.path = (Workspace.reservedDir ⟨root, h₀.history adapter⟩).join config.audit.logFile ∧
          ∃ l, h.tree.spot .written s.log.path = .ok (.entry l) ∧ h.tree.FileAt l⌝⦄ := by
  have hprepare (reserved : Path) (config : Config) (log : Path) :
      ⦃fun _ => ⌜True⌝⦄ prepare reserved config log
        ⦃⇓? _ _ => ⌜True⌝⦄ :=
    triple_iff.2 fun h _ ↦ by cases prepare reserved config log h <;> trivial
  have hopen (p : Path) : ⦃fun _ => ⌜True⌝⦄ Ledger.Log.openAt p
      ⦃⇓? log _ => ⌜log.path = p⌝⦄ := by
    have hparents : ⦃fun _ => ⌜True⌝⦄ Disk.makeParents p
        ⦃⇓? _ _ => ⌜True⌝⦄ :=
      Disk.makeParents_frame (fun _ _ _ _ _ ↦ trivial) p
    mvcgen [Ledger.Log.openAt, hparents, Disk.ask]
  have hlog (p : Path) := Job.disk_tree (hopen p)
  have hadd {log : Ledger.Log} (hp : log.path.isAbsolute) (digest : Digest) (now : Instant)
      (e : Ledger.Entry) := Job.disk_tree (Ledger.Log.append_leads hp digest now e)
  have hindex {t : FileTree} := @openIndex_frame (Grows t)
    (fun u l hu hne hfree ↦ hu.trans (.insert hne (by simp [hfree])))
    (fun u l e hu hne hbefore he ↦ hu.trans (.insert hne fun e' h ↦ ⟨hbefore e' h, he⟩))
  mvcgen [openWith, Session.bind, Job.fail, hprepare, hlog, hadd, hindex]
  case vc1 =>
    have hpath := ‹Ledger.Log.path _ = _›
    rw [hpath]
    exact Path.isAbsolute_join (Path.isAbsolute_join hroot _) _
  case vc2 => exact .refl _
  case vc3 hg =>
    have hpath := ‹Ledger.Log.path _ = Path.join _ _›
    obtain ⟨hsame, l, hspot, hfile⟩ := ‹Ledger.Log.path _ = Ledger.Log.path _ ∧ _›
    have hstart := ‹_ = h₀›
    subst hstart
    rw [hsame]
    refine ⟨?_, hpath, l, hg.look hspot, hg.fileAt hfile⟩
    rw [hpath]
    assumption

/-- **Where a ledger stands.** Let a session have been opened under the standard rules in the
workspace at `r`. Its ledger is a file, and if there are no links, that file is in the workspace and
away from what tells of credentials exactly if the configured path is bound to lead there. Other
paths are not refused: the rules look at the path as it is written, and take one that starts in the
reserved directory for a path within. -/
theorem openWith_confined_iff {r : Location} (hr : r.Proper) {adapter : Adapter} {config : Config}
    {h h' : Host} {s : Session} (hopen : openWith r.path adapter config .standard h = .ok s h') :
    ∃ l, h'.tree.spot .written s.log.path = .ok (.entry l) ∧ h'.tree.FileAt l ∧
      (h.tree.Linkless → (Confined r l ↔ Bounded r config.audit.logFile)) := by
  have hplace := triple_iff.1
    (openWith_place (isAbsolute_path r) adapter config .standard h) h rfl
  have hlinkless := triple_iff.1 (openWith_linkless r.path adapter config .standard) h
  rw [hopen] at hplace hlinkless
  obtain ⟨hallowed, hpath, l, hspot, hfile⟩ := hplace
  refine ⟨l, hspot, hfile, fun ht ↦ ?_⟩
  have hclear : h'.tree.ClearFrom (h'.tree.startOf s.log.path) (steps s.log.path.text) :=
    fun us _ ↦ get?_ne_link_of_entries (hlinkless ht) _
  obtain rfl : l = h'.tree.place s.log.path := by simpa using spot_place hclear hspot
  have hallow := Constitution.allowed_judge_iff.1 hallowed .credentialExclusion
    (by simp [Constitution.standard])
  rw [hpath] at hallow ⊢
  exact Rule.confined_place_iff h'.tree hr rfl hallow

/-- A ledger that is configured two levels up is outside the workspace. -/
theorem openWith_confined_iff_astray :
    ∃ s h', openWith ⟨"/w"⟩ .given { audit := { logFile := "../../log" } } .standard Office.newHost =
        .ok s h' ∧ Office.newHost.tree.Linkless ∧ ¬Bounded ["w"] "../../log" ∧
      ∃ l, h'.tree.spot .written s.log.path = .ok (.entry l) ∧ h'.tree.FileAt l ∧
        ¬Confined ["w"] l := by
  obtain ⟨s, h', hopen, -⟩ := Office.exists_opened
    (w := openWith ⟨"/w"⟩ .given { audit := { logFile := "../../log" } } .standard)
    (h := Office.newHost) (f := fun _ ↦ true) (by decide +kernel)
  have hlinkless : Office.newHost.tree.Linkless := by decide
  have hbounded : ¬Bounded ["w"] "../../log" := by decide
  obtain ⟨l, hspot, hfile, hiff⟩ :=
    openWith_confined_iff (r := ["w"]) (by decide) hopen
  exact ⟨s, h', hopen, hlinkless, hbounded, l, hspot, hfile,
    fun hconfined ↦ hbounded ((hiff hlinkless).1 hconfined)⟩

end Session

end Steward
