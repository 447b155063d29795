import PartDepot.Proofs.Stopping

/-!
# Installations that succeed

After an installation that succeeds, some version of every package that is wanted is in the lock and
in its place.  Where each package is wanted at one version only, nothing is missing then, and
installing again asks for nothing and changes nothing.
-/

namespace PartDepot

open Disk

namespace Packages

variable {p : Packages} {d d' : Disk} {home : Place} {w w' : World} {dep : Dependency}

theorem Stands.isDir {name : String} (h : p.Stands d home name .dir) :
    d.isDir (p.installPath name) = true := by
  unfold Disk.isDir
  rw [find_follow (by simp [h.found]), h.found]

/-- A package that is present, and not behind a link, stands in the modules directory. -/
theorem Present.stands (h : p.Present d dep) (hname : isName dep.name = true)
    (hplain : ∀ home target, d.Leads p.modulesDir home →
      d.node? (home ++ [dep.name]) ≠ some (.link target)) :
    ∃ home, d.Leads p.modulesDir home ∧ p.Stands d home dep.name .dir := by
  have hdir := h.2
  unfold Disk.isDir at hdir
  split at hdir
  · next q hfind =>
    obtain ⟨home, hleads⟩ := leads_of_find_join (isPiece_of_isName hname) hfind
    have hspot : d.find false (p.installPath dep.name) = .ok (d.spotAt (home ++ [dep.name])) :=
      hleads.find_name_again rfl hname hfind
    -- Nothing is followed where no link stands, so both ways to look up the name agree.
    have hsame : d.find true (p.installPath dep.name) = d.find false (p.installPath dep.name) := by
      refine find_follow fun r target hlink => ?_
      rw [hspot] at hlink
      have hnode := congrArg Spot.node? (Except.ok.inj hlink)
      rw [spotAt_node?] at hnode
      exact hplain home target hleads hnode
    rw [hsame, hspot] at hfind
    have hplace := congrArg Spot.place (Except.ok.inj hfind)
    rw [spotAt_place] at hplace
    obtain rfl : home ++ [dep.name] = q := hplace
    exact ⟨home, hleads, hspot.trans hfind, by simp⟩
  · simp at hdir

/-- What is present in the place of the modules directory itself stays there. -/
theorem isDir_dot (hdir : d.isDir (p.installPath ".") = true)
    (hkept : ∀ home, d.Leads p.modulesDir home → d'.here = d.here ∧ d'.Leads p.modulesDir home) :
    d'.isDir (p.installPath ".") = true := by
  unfold Disk.isDir at hdir
  split at hdir
  · next q hfind =>
    obtain ⟨home, hhome⟩ := leads_of_find_join ⟨by decide, by decide⟩ hfind
    unfold Disk.isDir
    rw [installPath, (hkept home hhome).2.find_dot_again (hkept home hhome).1 hfind]
  · simp at hdir

/-- What installing begins with, and that it ends there if nothing is missing. -/
theorem installMissing_begins (p : Packages) (w : World) :
    ∃ missing lock v, (∀ dep, dep ∈ missing ↔ dep ∈ p.wanted ∧ ¬p.Present w.disk dep) ∧
      lock.installed = p.recorded w.disk ∧ w.Still v ∧ v.requests = w.requests ∧
      p.installMissing w = p.installAll lock missing v := by
  obtain ⟨missing, wₘ, hmissing, hiff, hstillₘ, hrequestsₘ⟩ := p.missing_apply Failure w
  obtain ⟨lock, wₗ, hlock, hentries, hstillₗ, hrequestsₗ⟩ := p.readLock_apply Failure wₘ
  rw [hstillₘ.disk] at hentries
  by_cases hne : missing = []
  · refine ⟨missing, lock, wₘ, hiff, hentries, hstillₘ, hrequestsₘ, ?_⟩
    subst hne
    unfold installMissing
    rw [Act.bind_apply, hmissing]
    rfl
  · refine ⟨missing, lock, wₗ, hiff, hentries, World.Frame.trans hstillₘ hstillₗ,
      hrequestsₗ.trans hrequestsₘ, installMissing_of_missing hmissing hne hlock⟩

/-- Where nothing is missing, installing changes nothing and asks for nothing. -/
theorem installMissing_of_present (h : ∀ dep ∈ p.wanted, p.Present w.disk dep) :
    ∃ v, p.installMissing w = (.ok (), v) ∧ v.disk = w.disk ∧ v.requests = w.requests := by
  obtain ⟨missing, lock, v, hiff, -, hstill, hrequests, hrun⟩ := p.installMissing_begins w
  have hnone : missing = [] :=
    List.eq_nil_iff_forall_not_mem.mpr fun dep hdep =>
      ((hiff dep).mp hdep).2 (h dep ((hiff dep).mp hdep).1)
  rw [hnone] at hrun
  exact ⟨v, hrun, hstill.disk, hrequests⟩

/-- After an installation that succeeds, every wanted package is present at some version that is
wanted of it: the last that was installed, or the one that was present before. -/
theorem present_of_installMissing
    (haccepted : ∀ dep ∈ p.wanted, Manifest.isPackageName dep.name = true)
    (hrooted : w.disk.Rooted) (hlinks : p.LinkFreeArchives)
    (hplain : ∀ dep ∈ p.wanted, ∀ home target, w.disk.Leads p.modulesDir home →
      w.disk.node? (home ++ [dep.name]) ≠ some (.link target))
    (h : p.installMissing w = (.ok (), w')) :
    ∀ dep ∈ p.wanted, ∃ kept ∈ p.wanted, kept.name = dep.name ∧ p.Present w'.disk kept := by
  obtain ⟨missing, lock, v, hiff, hentries, hstill, -, hrun⟩ := p.installMissing_begins w
  have hdisk := hstill.disk
  rw [hrun] at h
  obtain ⟨log, lock', hruns, rfl, -⟩ := runs_of_installAll h
  have hwanted (x : Delivery) (hx : x ∈ log) : x.dep ∈ p.wanted :=
    ((hiff x.dep).mp (List.mem_map_of_mem hx)).1
  have hnames := hruns.isName fun x hx => haccepted x.dep (hwanted x hx)
  have htidy : p.Tidy (v.disk.makeDirs p.modulesDir).2 := hdisk ▸ tidy_makeDirs hrooted p
  have hreach : (∀ x ∈ log, LinkFree x.archive) ∨ p.Direct (v.disk.makeDirs p.modulesDir).2 :=
    .inl (hruns.linkFree hlinks)
  have hsaved := hruns.recorded (hdisk ▸ hentries)
  intro dep hdep
  cases hlatest : latest log dep.name with
  | some x =>
      have hx := mem_of_latest hlatest
      have hname := name_of_latest hlatest
      obtain ⟨home, -, hstocked⟩ := hruns.stocked (List.ne_nil_of_mem hx) hnames rfl htidy hreach
      obtain ⟨n, hstands, hdir⟩ := hstocked.stands (hname ▸ hnames x hx) hlatest
      obtain rfl := hdir (hruns.linkFree hlinks x hx)
      obtain ⟨entry, hentry, hversion, -⟩ := (hruns.get? dep.name).2 x hlatest
      rw [Lock.get?, hsaved, ← hname] at hentry
      rw [← hname] at hstands
      exact ⟨x.dep, hwanted x hx, hname, by rw [hentry]; simpa using hversion, hstands.isDir⟩
  | none =>
      refine ⟨dep, hdep, rfl, ?_⟩
      have hpresent : p.Present w.disk dep := by
        refine Classical.byContradiction fun habsent => latest_eq_none.mp hlatest ?_
        obtain ⟨x, hx, rfl⟩ := List.mem_map.mp ((hiff dep).mpr ⟨hdep, habsent⟩)
        exact List.mem_map_of_mem hx
      have hkept (home : Place) (hleads : w.disk.Leads p.modulesDir home) :
          p.Stocked log home w.disk w'.disk := by
        rw [← hdisk] at hleads ⊢
        rw [makeDirs_modulesDir hleads] at htidy hreach
        exact hruns.stocked_of_ready hnames ⟨hleads, htidy home hleads⟩ hreach
      constructor
      · rw [← hsaved, ← Lock.get?, (hruns.get? dep.name).1 hlatest, Lock.get?, hentries]
        exact hpresent.1
      · by_cases hdot : dep.name = "."
        · have hdir := hpresent.2
          rw [hdot] at hdir ⊢
          exact isDir_dot hdir fun home hleads =>
            ⟨(hkept home hleads).spares.here, (hkept home hleads).ready.leads⟩
        · have hname := isName_of_isPackageName (haccepted dep hdep) hdot
          obtain ⟨home, hleads, hstands⟩ := hpresent.stands hname (hplain dep hdep)
          exact ((hkept home hleads).spares.stands hname (latest_eq_none.mp hlatest) hstands).isDir

/-- An installation that succeeds leaves no package without a version that was wanted of it.  If
every package is wanted at one version, nothing is missing then, and a second installation asks for
nothing and leaves every file as it is. -/
theorem installMissing_reaches
    (haccepted : ∀ dep ∈ p.wanted, Manifest.isPackageName dep.name = true)
    (hrooted : w.disk.Rooted) (hlinks : p.LinkFreeArchives)
    (hplain : ∀ dep ∈ p.wanted, ∀ home target, w.disk.Leads p.modulesDir home →
      w.disk.node? (home ++ [dep.name]) ≠ some (.link target))
    (h : p.installMissing w = (.ok (), w')) {v : World} (hdisk : v.disk = w'.disk) :
    (∃ left v', (p.missing : Act Failure _) v = (.ok left, v') ∧
      (∀ dep ∈ p.wanted, ∃ kept ∈ p.wanted, kept.name = dep.name ∧ kept ∉ left) ∧
      ((∀ a ∈ p.wanted, ∀ b ∈ p.wanted, a.name = b.name → a.version = b.version) → left = [])) ∧
    ((∀ a ∈ p.wanted, ∀ b ∈ p.wanted, a.name = b.name → a.version = b.version) →
      ∃ v', p.installMissing v = (.ok (), v') ∧ v'.disk = v.disk ∧ v'.requests = v.requests) := by
  have hkept := present_of_installMissing haccepted hrooted hlinks hplain h
  rw [← hdisk] at hkept
  have hall (honce : ∀ a ∈ p.wanted, ∀ b ∈ p.wanted, a.name = b.name → a.version = b.version) :
      ∀ dep ∈ p.wanted, p.Present v.disk dep := by
    intro dep hdep
    obtain ⟨kept, hwanted, hname, hpresent⟩ := hkept dep hdep
    have hsame : kept = dep := by
      have hversion := honce kept hwanted dep hdep hname
      cases kept
      cases dep
      simp_all
    rwa [← hsame]
  obtain ⟨left, v', hmissing, hleft, -, -⟩ := p.missing_apply Failure v
  refine ⟨⟨left, v', hmissing, fun dep hdep => ?_, fun honce => ?_⟩, fun honce =>
    installMissing_of_present (hall honce)⟩
  · obtain ⟨kept, hwanted, hname, hpresent⟩ := hkept dep hdep
    exact ⟨kept, hwanted, hname, fun hmem => ((hleft kept).mp hmem).2 hpresent⟩
  · refine List.eq_nil_iff_forall_not_mem.mpr fun dep hmem => ?_
    have hdep := (hleft dep).mp hmem
    exact hdep.2 (hall honce dep hdep.1)

/-- A package is installed where there was nothing, and is not missing any more. -/
theorem installMissing_reaches_one :
    let p : Packages := ⟨[⟨"a", "1.0.0"⟩], ⟨"/s"⟩, ⟨"http://c", .brief⟩⟩
    ∃ w v, p.installMissing World.bare = (.ok (), w) ∧
      (p.missing : Act Failure _) w = (.ok [], v) ∧
      ∃ v', p.installMissing w = (.ok (), v') ∧ v'.disk = w.disk ∧ v'.requests = w.requests := by
  intro p
  obtain ⟨hmissing, hlock⟩ := missing_bare (p := p) rfl (by decide +kernel) (by decide +kernel)
  obtain ⟨⟨w, hall⟩, -⟩ := installAll_versions (p := p) rfl rfl
  have hrun : p.installMissing World.bare = (.ok (), w) :=
    (installMissing_of_missing hmissing (by simp [p]) hlock).trans hall
  have hplain : ∀ dep ∈ p.wanted, ∀ home target, World.bare.disk.Leads p.modulesDir home →
      World.bare.disk.node? (home ++ [dep.name]) ≠ some (.link target) := by
    intro dep _ home target _ hlink
    simp [node?, World.bare] at hlink
  obtain ⟨⟨left, v, hleft, -, hnone⟩, hagain⟩ := installMissing_reaches (by decide +kernel)
    World.bare_rooted (brief_linkFree rfl) hplain hrun (v := w) rfl
  have honce : ∀ a ∈ p.wanted, ∀ b ∈ p.wanted, a.name = b.name → a.version = b.version := by
    decide +kernel
  exact ⟨w, v, hrun, hnone honce ▸ hleft, hagain honce⟩

/-- Where two versions of a package are wanted, one is missing after an installation that
succeeds. -/
theorem installMissing_misses_version :
    let p : Packages := ⟨[⟨"a", "1.0.0"⟩, ⟨"a", "2.0.0"⟩], ⟨"/s"⟩, ⟨"http://c", .brief⟩⟩
    ∃ w left v, p.installMissing World.bare = (.ok (), w) ∧
      (p.missing : Act Failure _) w = (.ok left, v) ∧ left ≠ [] := by
  intro p
  obtain ⟨hmissing, hlock⟩ := missing_bare (p := p) rfl (by decide +kernel) (by decide +kernel)
  obtain ⟨-, w, hall, -⟩ := installAll_versions (p := p) rfl rfl
  obtain ⟨left, v, hleft, hiff, -⟩ := p.missing_apply Failure w
  refine ⟨w, left, v, (installMissing_of_missing hmissing (by simp [p]) hlock).trans hall, hleft,
    fun hnil => ?_⟩
  have hpresent (dep : Dependency) (hdep : dep ∈ p.wanted) : p.Present w.disk dep := by
    refine Classical.byContradiction fun habsent => ?_
    have hmem := (hiff dep).mpr ⟨hdep, habsent⟩
    simp [hnil] at hmem
  have hone := (hpresent ⟨"a", "1.0.0"⟩ List.mem_cons_self).1
  have htwo := (hpresent ⟨"a", "2.0.0"⟩ (List.mem_cons_of_mem _ List.mem_cons_self)).1
  -- The lock has no more than one entry that is found for a name.
  cases hentry : (p.recorded w.disk).find? (·.name = "a") with
  | none => simp [hentry] at hone
  | some entry =>
      rw [hentry, Option.any_some, decide_eq_true_iff] at hone htwo
      simp [hone] at htwo

end Packages

end PartDepot
