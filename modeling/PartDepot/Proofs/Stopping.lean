import PartDepot.Proofs.Asking
import PartDepot.Proofs.Delivering

/-!
# Installations that stop

What can go wrong with a package before its place is touched can be tried beforehand: the
questions to the catalog, the check of the archive, and its unpacking up to the top
directory.  An installation that stops there keeps what was finished, changes nothing else,
and has asked for nothing further on.
-/

namespace PartDepot

open Disk

namespace Packages

variable {p : Packages} {d d' : Disk} {home : Place} {w w' : World} {dep : Dependency} {e : Failure}

/-! ## Trying a package -/

/-- The installation of a package up to the point where its place would be touched. -/
def trial (p : Packages) (dep : Dependency) : Act Failure Unit := do
  let (archive, _) ← p.fetchArchive dep
  p.rehearse archive

theorem install_of_trial_error (h : p.trial dep w = (.error e, w')) :
    p.install dep w = (.error e, w') := by
  unfold trial at h
  rw [install_eq]
  rcases hfetch : p.fetchArchive dep w with ⟨e' | ⟨archive, digest⟩, v⟩
  · exact Act.bind_error_again hfetch h _
  · rw [Act.bind_of_ok hfetch] at h ⊢
    dsimp only at h ⊢
    rw [extract_eq]
    exact Act.bind_of_error (opening_of_rehearse_error h _) _

theorem trial_asks (p : Packages) (dep : Dependency) : (p.trial dep).Asks (p.Concerns dep) := by
  have htells : (p.trial dep).Tells (p.Mentions dep) :=
    (p.fetchArchive_tells dep).bind fun _ => p.opening_tells _ fun _ => Act.tells_pure _
  exact htells.asks fun _ _ he => he.concerns

/-- The modules directory and directories above it may be new where there was none;
everything else is as it was. -/
structure Untouched (p : Packages) (d d' : Disk) : Prop where
  here : d'.here = d.here
  node : ∀ q, d'.node? q = d.node? q ∨
    d.node? q = none ∧ d'.node? q = some .dir ∧ (d.makeDirs p.modulesDir).2.node? q = some .dir
  home : ∀ home, d.Leads p.modulesDir home → ∀ q, d'.node? q = d.node? q

namespace Untouched

theorem of_sameBut (h : d.SameBut (fun _ => False) d') : p.Untouched d d' :=
  ⟨h.here, fun q => .inl (h.node q id), fun _ _ q => h.node q id⟩

theorem of_made (h : (d.makeDirs p.modulesDir).2.SameBut (fun _ => False) d') :
    p.Untouched d d' := by
  refine ⟨h.here.trans (d.makeDirs_extends p.modulesDir).here, fun q => ?_, fun home hleads q => ?_⟩
  · rw [h.node q id]
    exact (d.node?_makeDirs p.modulesDir q).imp_right fun hnew => ⟨hnew.1, hnew.2, hnew.2⟩
  · rw [h.node q id, makeDirs_modulesDir hleads]

theorem toExtends (h : p.Untouched d d') : d.Extends d' := by
  refine ⟨h.here, fun {q n} hq => ?_⟩
  rcases h.node q with hsame | ⟨hnone, -⟩
  · rw [hsame, hq]
  · simp [hq] at hnone

theorem recorded (h : p.Untouched d d') (hsome : p.recorded d ≠ []) :
    p.recorded d' = p.recorded d := by
  unfold Packages.recorded readText Disk.read at hsome ⊢
  cases hfind : d.find true p.lockPath with
  | error fault => simp [hfind, bind, Except.bind] at hsome
  | ok s =>
      cases s with
      | free q => simp [hfind, bind, Except.bind] at hsome
      | taken q n => rw [h.toExtends.find hfind]

end Untouched

/-- A trial that fails leaves everything as it is. -/
theorem trial_error (hclear : p.Tidy (w.disk.makeDirs p.modulesDir).2)
    (h : p.trial dep w = (.error e, w')) : p.Untouched w.disk w'.disk := by
  have hstill : w.Still (p.fetchArchive dep w).2 := p.fetchArchive_keeps dep w
  unfold trial at h
  rcases hfetch : p.fetchArchive dep w with ⟨e' | ⟨archive, digest⟩, v⟩
  · rw [hfetch] at hstill
    rw [Act.bind_of_error hfetch] at h
    obtain ⟨-, rfl⟩ := Prod.mk.inj h
    refine .of_sameBut ⟨?_, fun q _ => ?_⟩
    · rw [hstill.disk]
    · rw [hstill.disk]
  · rw [hfetch] at hstill
    rw [Act.bind_of_ok hfetch] at h
    obtain ⟨d, rfl, hsame⟩ := rehearse_error (by rw [hstill.disk]) hclear h
    exact .of_made hsame

/-! ## The state that is left -/

/-- No archive that the catalog delivers has a link right at its top. -/
def LinkFreeArchives (p : Packages) : Prop :=
  ∀ dep w archive digest w', p.fetchArchive dep w = (.ok (archive, digest), w') → LinkFree archive

/-- Where no body that a network answers with has a link right at its top, no archive has. -/
theorem linkFreeArchives_of_replies (hempty : LinkFree ByteArray.empty)
    (h : ∀ n r status bytes, p.catalog.network.reply n r = .answer status bytes → LinkFree bytes) :
    p.LinkFreeArchives := by
  intro dep w archive digest w' hfetch
  obtain ⟨release, u, v, -, hdownload, -⟩ := fetchArchive_eq_ok hfetch
  rcases Catalog.reply?_cases (Catalog.download_reply hdownload) with rfl | ⟨r, status, hanswer⟩
  · exact hempty
  · exact h _ _ _ _ hanswer

theorem brief_linkFree (hcatalog : p.catalog = ⟨"http://c", .brief⟩) : p.LinkFreeArchives := by
  have hnone {bytes : ByteArray} (h : Tar.entriesOf bytes = []) : LinkFree bytes :=
    Tar.linkFree_of_entries (by simp [h])
  refine linkFreeArchives_of_replies (hnone (by decide +kernel)) fun n r status bytes hreply => ?_
  rw [hcatalog] at hreply
  unfold Network.brief at hreply
  dsimp only at hreply
  split at hreply
  · obtain ⟨-, rfl⟩ := Reply.answer.inj hreply
    split
    · exact hnone (by decide +kernel)
    · exact Tar.folder_linkFree
  · obtain ⟨-, rfl⟩ := Reply.answer.inj hreply
    exact hnone (by decide +kernel)

theorem Runs.linkFree {lock lock' : Lock} {log : List Delivery} (h : p.Runs lock w log lock' w')
    (hlinks : p.LinkFreeArchives) : ∀ x ∈ log, LinkFree x.archive := by
  induction h with
  | done => simp
  | next hdelivers _ _ _ _ ih =>
      obtain ⟨v, path, hfetch, -⟩ := hdelivers
      intro y hy
      rcases List.mem_cons.mp hy with rfl | hy
      · exact hlinks _ _ _ _ _ hfetch
      · exact ih y hy

theorem runs_of_installAll {lock : Lock} {deps : List Dependency}
    (h : p.installAll lock deps w = (.ok (), w')) :
    ∃ log lock', p.Runs lock w log lock' w' ∧ deps = log.map (·.dep) ∧
      ∀ rest, p.installAll lock (deps ++ rest) w = p.installAll lock' rest w' := by
  obtain ⟨log, lock', v, hruns, ⟨hdeps, hon⟩ | ⟨dep, rest, -, ⟨e, v', -, hfault⟩ |
    ⟨x, w₁, v₁, time, e, v', -, -, -, -, hfault⟩⟩⟩ := p.installAll_course lock deps w
  · have hall := hon []
    rw [List.append_nil, h] at hall
    obtain ⟨-, rfl⟩ := Prod.mk.inj hall
    exact ⟨log, lock', hruns, hdeps, hon⟩
  · have hboth := hfault.symm.trans h
    simp at hboth
  · have hboth := hfault.symm.trans h
    simp at hboth

theorem Runs.tidy {lock lock' : Lock} {log : List Delivery} (h : p.Runs lock w log lock' w')
    (hnames : ∀ x ∈ log, isName x.dep.name = true)
    (htidy : p.Tidy (w.disk.makeDirs p.modulesDir).2)
    (hreach : (∀ x ∈ log, LinkFree x.archive) ∨ p.Direct (w.disk.makeDirs p.modulesDir).2) :
    p.Tidy (w'.disk.makeDirs p.modulesDir).2 := by
  cases log with
  | nil =>
      cases h
      exact htidy
  | cons x log =>
      obtain ⟨home, -, hstocked⟩ := h.stocked (by simp) hnames rfl htidy hreach
      rw [makeDirs_modulesDir hstocked.ready.leads]
      exact hstocked.ready.tidy

theorem Delivers.isName {x : Delivery} (h : p.Delivers w x w')
    (haccepted : Manifest.isPackageName x.dep.name = true) : isName x.dep.name = true := by
  refine isName_of_isPackageName haccepted fun hdot => ?_
  obtain ⟨v, path, -, hextract⟩ := h
  obtain ⟨e, v', herror⟩ := p.extract_dot_error x.archive v
  rw [hdot, herror] at hextract
  simp at hextract

theorem Runs.isName {lock lock' : Lock} {log : List Delivery} (h : p.Runs lock w log lock' w')
    (haccepted : ∀ x ∈ log, Manifest.isPackageName x.dep.name = true) :
    ∀ x ∈ log, isName x.dep.name = true := by
  induction h with
  | done => simp
  | next hdelivers _ _ _ _ ih =>
      intro y hy
      rcases List.mem_cons.mp hy with rfl | hy
      · exact hdelivers.isName (haccepted _ List.mem_cons_self)
      · exact ih (fun z hz => haccepted z (List.mem_cons_of_mem _ hz)) y hy

theorem latest_of_last {log : List Delivery} {front back : List Dependency} {done : Dependency}
    (h : log.map (·.dep) = front ++ done :: back) (hlast : ∀ later ∈ back, later.name ≠ done.name) :
    ∃ x, latest log done.name = some x ∧ x.dep = done := by
  obtain ⟨log₁, log₂, rfl, -, hrest⟩ := List.map_eq_append_iff.mp h
  obtain ⟨x, log₃, rfl, rfl, hback⟩ := List.map_eq_cons_iff.mp hrest
  refine ⟨x, ?_, rfl⟩
  have hlater : latest log₃ x.dep.name = none := by
    rw [latest_eq_none, List.mem_map]
    rintro ⟨y, hy, hname⟩
    exact hlast y.dep (hback ▸ List.mem_map_of_mem hy) hname
  have hself : latest [x] x.dep.name = some x := by simp [latest]
  have hsplit : x :: log₃ = [x] ++ log₃ := rfl
  rw [latest_append, hsplit, latest_append, hlater, hself]
  rfl

theorem tidy_makeDirs (h : d.Rooted) (p : Packages) : p.Tidy (d.makeDirs p.modulesDir).2 :=
  fun _ _ _ => (h _).makeDirs p.modulesDir

theorem installMissing_of_missing {missing : List Dependency} {wₘ wₗ : World} {lock : Lock}
    (hmissing : (p.missing : Act Failure _) w = (.ok missing, wₘ)) (hne : missing ≠ [])
    (hlock : (p.readLock : Act Failure _) wₘ = (.ok lock, wₗ)) :
    p.installMissing w = p.installAll lock missing wₗ := by
  have hsome : missing.isEmpty = false := by simpa using hne
  unfold installMissing
  rw [Act.bind_of_ok hmissing, hsome, if_neg (by simp), Act.bind_of_ok hlock]

/-- What the lock says about a name after a run, and where the packages that were delivered are. -/
theorem Runs.kept {lock lock' : Lock} {log : List Delivery} (h : p.Runs lock w log lock' w')
    (hlock : lock.installed = p.recorded w.disk)
    (hnames : ∀ x ∈ log, Disk.isName x.dep.name = true)
    (htidy : p.Tidy (w.disk.makeDirs p.modulesDir).2)
    (hreach : (∀ x ∈ log, LinkFree x.archive) ∨ p.Direct (w.disk.makeDirs p.modulesDir).2)
    (huntouched : p.Untouched w'.disk d') :
    (∀ x name, latest log name = some x →
      (∃ entry, (p.recorded d').find? (·.name = name) = some entry ∧
        entry.version = x.dep.version) ∧
      ∃ home n, p.Stands d' home name n ∧ (LinkFree x.archive → n = .dir)) ∧
    ∀ name, latest log name = none →
      (∀ entry, (p.recorded w.disk).find? (·.name = name) = some entry →
        (p.recorded d').find? (·.name = name) = some entry) ∧
      ∀ home, w.disk.Leads p.modulesDir home → ∀ rest,
        d'.node? (home ++ [name] ++ rest) = w.disk.node? (home ++ [name] ++ rest) ∨
          ∃ l : Lock, d'.node? (home ++ [name] ++ rest) = some (.file l.render.toUTF8) := by
  have hrecorded {name : String} {entry : InstalledPackage}
      (hentry : lock'.get? name = some entry) :
      (p.recorded d').find? (·.name = name) = some entry := by
    have hsame := h.recorded hlock
    have hsome : p.recorded w'.disk ≠ [] := by
      rw [← hsame]
      intro hnil
      simp [Lock.get?, hnil] at hentry
    rw [huntouched.recorded hsome, ← hsame]
    exact hentry
  constructor
  · intro x name hlatest
    have hx := mem_of_latest hlatest
    obtain ⟨home, -, hstocked⟩ := h.stocked (List.ne_nil_of_mem hx) hnames rfl htidy hreach
    obtain ⟨entry, hentry, hversion, -⟩ := (h.get? name).2 x hlatest
    refine ⟨⟨entry, hrecorded hentry, hversion⟩, ?_⟩
    obtain ⟨n, hstands, hlinks⟩ := hstocked.stands (name_of_latest hlatest ▸ hnames x hx) hlatest
    exact ⟨home, n, ⟨huntouched.toExtends.find hstands.found, hstands.notFile⟩, hlinks⟩
  · intro name hnone
    refine ⟨fun entry hentry => hrecorded ?_, fun home hleads rest => ?_⟩
    · rw [(h.get? name).1 hnone, Lock.get?, hlock]
      exact hentry
    · have hleads' : w'.disk.Leads p.modulesDir home ∧
          (w'.disk.node? (home ++ [name] ++ rest) = w.disk.node? (home ++ [name] ++ rest) ∨
            ∃ l : Lock, w'.disk.node? (home ++ [name] ++ rest) = some (.file l.render.toUTF8)) := by
        rw [makeDirs_modulesDir hleads] at htidy hreach
        have hstocked := h.stocked_of_ready hnames ⟨hleads, htidy home hleads⟩ hreach
        exact ⟨hstocked.ready.leads, hstocked.spares.node (latest_eq_none.mp hnone) rest⟩
      rw [huntouched.home home hleads'.1]
      exact hleads'.2

/-- An installation whose next package fails its trial stops there.  The lock file and all packages
are as they were when the package before it was recorded: those that were installed, and not
replaced by another version, are in the lock and in their places, and those whose names had not come
up are as they were at the start.  No package further on was asked for. -/
theorem installMissing_stops {before after : List Dependency} {w₀ wₘ wₗ w₁ w₂ : World} {lock : Lock}
    (haccepted : ∀ dep ∈ p.wanted, Manifest.isPackageName dep.name = true)
    (hrooted : w₀.disk.Rooted)
    (hreach : p.LinkFreeArchives ∨ p.Direct (w₀.disk.makeDirs p.modulesDir).2)
    (hmissing : (p.missing : Act Failure _) w₀ = (.ok (before ++ dep :: after), wₘ))
    (hlock : (p.readLock : Act Failure _) wₘ = (.ok lock, wₗ))
    (hbefore : p.installAll lock before wₗ = (.ok (), w₁))
    (htrial : p.trial dep w₁ = (.error e, w₂)) :
    p.installMissing w₀ = (.error (.context s!"Failed to install {dep.text}" e), w₂) ∧
      (before = [] → w₁.disk = w₀.disk) ∧
      p.Untouched w₁.disk w₂.disk ∧
      (∀ content, w₁.disk.read p.lockPath = .ok content → w₂.disk.read p.lockPath = .ok content) ∧
      (∀ front done back, before = front ++ done :: back →
        (∀ later ∈ back, later.name ≠ done.name) →
        (∃ entry, (p.recorded w₂.disk).find? (·.name = done.name) = some entry ∧
          entry.version = done.version) ∧
        ∃ home n, p.Stands w₂.disk home done.name n ∧ (p.LinkFreeArchives → n = .dir)) ∧
      (∀ name, (∀ done ∈ before, done.name ≠ name) →
        (∀ entry, (p.recorded w₀.disk).find? (·.name = name) = some entry →
          (p.recorded w₂.disk).find? (·.name = name) = some entry) ∧
        ∀ home, w₀.disk.Leads p.modulesDir home → ∀ rest,
          w₂.disk.node? (home ++ [name] ++ rest) = w₀.disk.node? (home ++ [name] ++ rest) ∨
            ∃ l : Lock, w₂.disk.node? (home ++ [name] ++ rest) = some (.file l.render.toUTF8)) ∧
      ∃ sent, w₂.requests = w₀.requests ++ sent ∧
        ∀ r ∈ sent, ∃ asked ∈ before ++ [dep], p.Concerns asked r := by
  obtain ⟨left, wₘ', hmissing', hleft, hstillₘ, hrequestsₘ⟩ := p.missing_apply Failure w₀
  obtain ⟨hlist, rfl⟩ := Prod.mk.inj (hmissing'.symm.trans hmissing)
  obtain rfl := Except.ok.inj hlist
  obtain ⟨lock', wₗ', hlock', hentries, hstillₗ, hrequestsₗ⟩ := p.readLock_apply Failure wₘ'
  obtain ⟨hsame, rfl⟩ := Prod.mk.inj (hlock'.symm.trans hlock)
  obtain rfl := Except.ok.inj hsame
  have hdisk : wₗ'.disk = w₀.disk := hstillₗ.disk.trans hstillₘ.disk
  obtain ⟨log, lock₁, hruns, rfl, hon⟩ := runs_of_installAll hbefore
  have hnames := hruns.isName fun x hx => haccepted _ ((hleft x.dep).mp
    (List.mem_append_left _ (List.mem_map_of_mem hx))).1
  have htidy : p.Tidy (wₗ'.disk.makeDirs p.modulesDir).2 := hdisk ▸ tidy_makeDirs hrooted p
  have hreach' : (∀ x ∈ log, LinkFree x.archive) ∨ p.Direct (wₗ'.disk.makeDirs p.modulesDir).2 :=
    hreach.imp hruns.linkFree (hdisk ▸ ·)
  have huntouched := trial_error (hruns.tidy hnames htidy hreach') htrial
  rw [hstillₘ.disk] at hentries
  obtain ⟨hdone, hothers⟩ := hruns.kept (hdisk ▸ hentries) hnames htidy hreach' huntouched
  refine ⟨?_, fun hnil => ?_, huntouched, fun content hread => ?_,
    fun front done back hsplit hlast => ?_, fun name hname => ?_, ?_⟩
  · rw [installMissing_of_missing hmissing (by simp) hlock, hon]
    exact installAll_of_error (install_of_trial_error htrial) lock₁ after
  · obtain rfl := List.map_eq_nil_iff.mp hnil
    cases hruns
    exact hdisk
  · unfold Disk.read at hread ⊢
    cases hfind : w₁.disk.find true p.lockPath with
    | error fault => simp [hfind, bind, Except.bind] at hread
    | ok s =>
        cases s with
        | free q => simp [hfind, bind, Except.bind] at hread
        | taken q n =>
            rw [huntouched.toExtends.find hfind]
            rwa [hfind] at hread
  · obtain ⟨x, hlatest, rfl⟩ := latest_of_last hsplit hlast
    obtain ⟨hentry, home, n, hstands, hdir⟩ := hdone x _ hlatest
    exact ⟨hentry, home, n, hstands,
      fun hlinks => hdir (hruns.linkFree hlinks x (mem_of_latest hlatest))⟩
  · have hnone : latest log name = none := by
      rw [latest_eq_none, List.mem_map]
      rintro ⟨x, hx, hself⟩
      exact hname x.dep (List.mem_map_of_mem hx) hself
    rw [← hdisk]
    exact hothers name hnone
  · obtain ⟨sent, hsent, hall⟩ := p.installAll_asks (log.map (·.dep)) lock' wₗ'
    obtain ⟨more, hmore, hall'⟩ := p.trial_asks dep w₁
    rw [hbefore] at hsent
    rw [htrial] at hmore
    refine ⟨sent ++ more, ?_, fun r hr => ?_⟩
    · dsimp only at hsent hmore
      rw [hmore, hsent, hrequestsₗ, hrequestsₘ, List.append_assoc]
    · rcases List.mem_append.mp hr with hr | hr
      · obtain ⟨asked, hasked, hconcerns⟩ := hall r hr
        exact ⟨asked, List.mem_append_left _ hasked, hconcerns⟩
      · exact ⟨dep, by simp, hall' r hr⟩

/-- Two versions of a package, and a package that the brief network does not know. -/
def briefly : Packages :=
  ⟨[⟨"a", "1.0.0"⟩, ⟨"a", "2.0.0"⟩, ⟨"b", "1.0.0"⟩], ⟨"/s"⟩, ⟨"http://c", .brief⟩⟩

theorem briefly_missing :
    (briefly.missing : Act Failure _) World.bare = (.ok briefly.wanted, World.bare) ∧
      (briefly.readLock : Act Failure _) World.bare = (.ok (Lock.empty ⟨0, 0⟩), World.bare) :=
  missing_bare rfl (by decide +kernel) (by decide +kernel)

theorem briefly_trial : ∃ w₁ e w₂, briefly.installAll (Lock.empty ⟨0, 0⟩)
    [⟨"a", "1.0.0"⟩, ⟨"a", "2.0.0"⟩] World.bare = (.ok (), w₁) ∧
      briefly.trial ⟨"b", "1.0.0"⟩ w₁ = (.error e, w₂) := by
  obtain ⟨-, w₁, hbefore, hgate, hcount⟩ := installAll_versions (p := briefly) rfl rfl
  have hrefused (r : Request) : briefly.catalog.network.reply w₁.requests.length r =
      .answer 404 ByteArray.empty := by
    rw [hcount]
    rfl
  obtain ⟨e, w₂, hfetch⟩ := fetchArchive_of_refusal ⟨"b", "1.0.0"⟩ hgate hrefused
  refine ⟨w₁, e, w₂, hbefore, ?_⟩
  unfold trial
  rw [Act.bind_apply, hfetch]

theorem briefly_accepted : ∀ dep ∈ briefly.wanted, Manifest.isPackageName dep.name = true := by
  decide +kernel

/-- The last of two versions stays when the package after them is not found. -/
theorem installMissing_stops_after_versions :
    ∃ e w, briefly.installMissing World.bare = (.error e, w) ∧
      (∃ entry, (briefly.recorded w.disk).find? (·.name = "a") = some entry ∧
        entry.version = "2.0.0") ∧
      ∃ home, briefly.Stands w.disk home "a" .dir := by
  obtain ⟨hmissing, hlock⟩ := briefly_missing
  obtain ⟨w₁, e, w₂, hbefore, htrial⟩ := briefly_trial
  have hlinks : briefly.LinkFreeArchives := brief_linkFree rfl
  have hfirst : (briefly.missing : Act Failure _) World.bare =
      (.ok ([⟨"a", "1.0.0"⟩, ⟨"a", "2.0.0"⟩] ++ ⟨"b", "1.0.0"⟩ :: []), World.bare) := hmissing
  obtain ⟨hrun, -, -, -, hdone, -⟩ := installMissing_stops briefly_accepted World.bare_rooted
    (.inl hlinks) hfirst hlock hbefore htrial
  obtain ⟨hentry, home, n, hstands, hdir⟩ := hdone [⟨"a", "1.0.0"⟩] ⟨"a", "2.0.0"⟩ [] rfl (by simp)
  exact ⟨_, w₂, hrun, hentry, home, hdir hlinks ▸ hstands⟩

/-- The first of two versions was installed before the package that is not found, but the
lock has it no more. -/
theorem installMissing_stops_without_version :
    ∃ w₁ e w₂, (briefly.missing : Act Failure _) World.bare =
        (.ok [⟨"a", "1.0.0"⟩, ⟨"a", "2.0.0"⟩, ⟨"b", "1.0.0"⟩], World.bare) ∧
      briefly.installAll (Lock.empty ⟨0, 0⟩) [⟨"a", "1.0.0"⟩, ⟨"a", "2.0.0"⟩] World.bare =
        (.ok (), w₁) ∧
      briefly.trial ⟨"b", "1.0.0"⟩ w₁ = (.error e, w₂) ∧
      (∃ e', briefly.installMissing World.bare = (.error e', w₂)) ∧
      ¬briefly.Present w₂.disk ⟨"a", "1.0.0"⟩ := by
  obtain ⟨hmissing, hlock⟩ := briefly_missing
  obtain ⟨w₁, e, w₂, hbefore, htrial⟩ := briefly_trial
  obtain ⟨log, lock, hruns, hlog, hon⟩ := runs_of_installAll hbefore
  have hlinks : briefly.LinkFreeArchives := brief_linkFree rfl
  have hnames := hruns.isName fun x hx => briefly_accepted x.dep (by
    have hdep := List.mem_map_of_mem (f := (·.dep)) hx
    rw [← hlog] at hdep
    exact List.mem_append_left [⟨"b", "1.0.0"⟩] hdep)
  have htidy := tidy_makeDirs World.bare_rooted briefly
  have hreach := Or.inl (b := briefly.Direct (World.bare.disk.makeDirs briefly.modulesDir).2)
    (hruns.linkFree hlinks)
  have huntouched := trial_error (hruns.tidy hnames htidy hreach) htrial
  have hrecorded : (Lock.empty ⟨0, 0⟩).installed = briefly.recorded World.bare.disk := by
    decide +kernel
  have hlast : log.map (·.dep) = [⟨"a", "1.0.0"⟩] ++ ⟨"a", "2.0.0"⟩ :: [] := hlog.symm
  obtain ⟨x, hlatest, hx⟩ := latest_of_last hlast (by simp)
  obtain ⟨⟨entry, hentry, hversion⟩, -⟩ :=
    (hruns.kept hrecorded hnames htidy hreach huntouched).1 x _ hlatest
  have hrun : ∃ e', briefly.installMissing World.bare = (.error e', w₂) := by
    rw [installMissing_of_missing hmissing (by simp [briefly]) hlock]
    exact ⟨_, (hon [⟨"b", "1.0.0"⟩]).trans
      (installAll_of_error (install_of_trial_error htrial) lock [])⟩
  refine ⟨w₁, e, w₂, hmissing, hbefore, htrial, hrun, fun hpresent => ?_⟩
  have hsame := hpresent.1
  rw [hentry, Option.any_some, hversion, hx] at hsame
  simp at hsame

end Packages

end PartDepot
