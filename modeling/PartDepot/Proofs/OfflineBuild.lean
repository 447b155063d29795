import PartDepot.Command.Run
import PartDepot.Proofs.Filling
import PartDepot.Proofs.Outside

/-!
# Building offline

What a run that fetches parts promises is kept by a build under a closed gate: it succeeds, sends no
request and changes no file.  For this the cache must be set apart from the project.
-/

namespace PartDepot

/-- Where answers depend on the request alone and the time stands still, one look tells whether an
answer reads back. -/
theorem Catalog.readsBack_of_steady {c : Catalog} (hsteady : c.network.Steady) {time : Timestamp}
    {id : PartId} (h : ((c.answer? 0 id).all fun payload =>
      (CachedArtifact.parse (CachedArtifact.mk id time payload).render).isSome) = true) :
    c.ReadsBack (fun _ => time) id := by
  intro before n payload hanswer
  rw [Catalog.answer?_steady hsteady 0 before, hanswer, Option.all_some] at h
  exact h

/-! ## The run that fetches -/

theorem Report.isSuccess_iff (attempted : Nat) (visits : List (Visit BuildTarget)) :
    (Report.mk attempted (visits.filterMap Visit.failure?)).isSuccess = true ↔
      ∀ v ∈ visits, v.result = .ok () := by
  unfold Report.isSuccess
  rw [List.isEmpty_iff, List.filterMap_eq_nil_iff]
  refine forall₂_congr fun v _ => ?_
  unfold Visit.failure?
  cases v.result <;> simp

theorem Report.result_of_success {r : Report} (h : r.isSuccess = true) : r.result = .ok () := by
  unfold Report.isSuccess at h
  simp [Report.result, Fanout.result, h]

theorem Report.result_of_failure {r : Report} (h : r.isSuccess = false) :
    r.result = .error (.message (Fanout.combined BuildTarget.name r.failures)) := by
  unfold Report.isSuccess at h
  simp [Report.result, Fanout.result, h]

/-- A successful run of the workflow made the installer ready and visited the targets. -/
theorem Workflow.visits_of_fetchMissingParts {installer : Installer} {targets : List BuildTarget}
    {work : Work BuildTarget} {w w' : World} {report : Report}
    (h : fetchMissingParts installer targets work w = (.ok report, w')) :
    ∃ ready attempts last,
      prepare installer { w with offline := false } = (.ok (), ready) ∧
        Visits work ready attempts last ∧ attempts.map (·.target) = targets ∧
        report = ⟨targets.length, attempts.filterMap Visit.failure?⟩ ∧ w'.disk = last.disk := by
  rcases hprepare : prepare installer { w with offline := false } with ⟨halt | done, ready⟩
  · simp [fetchMissingParts_of_stop targets work hprepare] at h
  · obtain ⟨attempts, last, hvisits, htargets, hrun⟩ :=
      fetchMissingParts_of_ready targets work hprepare
    obtain ⟨hreport, rfl⟩ := Prod.mk.inj (hrun.symm.trans h)
    exact ⟨ready, attempts, last, rfl, hvisits, htargets, (Except.ok.inj hreport).symm, rfl⟩

namespace Command

theorem selection_of_found {entry : Option String} {builds : List String} {w : World}
    {project : Project} {targets : List BuildTarget}
    (hproject : Project.discover w.disk entry = .ok project)
    (hselect : project.manifest.select entry builds = .ok targets) :
    selection entry builds w = (.ok (project, targets), w) := by
  simp [selection, Act.bind_apply, Act.map_apply, Act.mapError, Act.ofExcept, hproject, hselect]

theorem conclude_of_success {r : Report} (h : r.isSuccess = true) (w : World) :
    conclude r w = (.ok (), w) := by
  simp [conclude, Act.ofExcept, h, r.result_of_success h]

theorem isSuccess_of_conclude {r : Report} {w w' : World} (h : conclude r w = (.ok (), w')) :
    r.isSuccess = true := by
  cases hsuccess : r.isSuccess with
  | true => rfl
  | false =>
      simp [conclude, Act.bind_apply, Act.ofExcept, Act.log, Act.change, hsuccess,
        r.result_of_failure hsuccess] at h

theorem visits_of_fetchParts {s : Settings} {network : Network} {entry : Option String}
    {builds : List String} {refresh : Bool} {w w' : World} {project : Project}
    {targets : List BuildTarget} (hproject : Project.discover w.disk entry = .ok project)
    (hselect : project.manifest.select entry builds = .ok targets)
    (h : fetchParts s network entry builds refresh w = (.ok (), w')) :
    let catalog := Catalog.ofUrl s.apiUrl network
    let packages : Packages := ⟨project.manifest.dependencies, project.stateDir, catalog⟩
    let cache : Cache := ⟨s.cacheDir, if refresh then Freshness.always else Freshness.never⟩
    ∃ ready attempts last,
      Workflow.prepare packages.installer { w with offline := false } = (.ok (), ready) ∧
        Visits (Resolver.work ⟨cache, catalog.fetchPart⟩) ready attempts last ∧
        attempts.map (·.target) = targets ∧ (∀ v ∈ attempts, v.result = .ok ()) ∧
        w'.disk = last.disk := by
  intro catalog packages cache
  unfold fetchParts at h
  rw [Act.bind_of_ok (selection_of_found hproject hselect)] at h
  dsimp only at h
  rw [Act.bind_apply, Act.mapError] at h
  rcases hfetch : Workflow.fetchMissingParts packages.installer targets
      (Resolver.work ⟨cache, catalog.fetchPart⟩) w with ⟨halt | report, left⟩
  · have hfetch' := hfetch
    simp only [packages, cache, catalog] at hfetch'
    simp [resolver, hfetch'] at h
  · obtain ⟨ready, attempts, last, hprepare, hvisits, htargets, hreport, hdisk⟩ :=
      Workflow.visits_of_fetchMissingParts hfetch
    simp only [packages, cache, catalog] at hfetch
    simp only [resolver, hfetch, Act.bind_apply] at h
    rcases hconclude : conclude report left with ⟨e | done, told⟩
    · simp [hconclude] at h
    · have hsuccess := isSuccess_of_conclude hconclude
      rw [conclude_of_success hsuccess] at hconclude
      obtain ⟨-, rfl⟩ := Prod.mk.inj hconclude
      rw [conclude_of_success hsuccess] at h
      have hw : w'.disk = left.disk := by
        obtain ⟨-, rfl⟩ := Prod.mk.inj h
        rfl
      rw [hreport, Report.isSuccess_iff] at hsuccess
      exact ⟨ready, attempts, last, hprepare, hvisits, htargets, hsuccess, hw.trans hdisk⟩

end Command

/-! ## The run that builds -/

/-- If the gate is closed it stays so, and no file is changed and no request sent. -/
def World.Idle (w w' : World) : Prop :=
  w.offline = true → w'.offline = true ∧ w'.disk = w.disk ∧ w'.requests = w.requests

instance : World.Frame World.Idle where
  refl _ hclosed := ⟨hclosed, rfl, rfl⟩
  trans := by
    intro u v w huv hvw hclosed
    obtain ⟨hv, hdisk, hrequests⟩ := huv hclosed
    obtain ⟨hw, hdisk', hrequests'⟩ := hvw hv
    exact ⟨hw, hdisk'.trans hdisk, hrequests'.trans hrequests⟩
  noted w e he hclosed := by
    refine ⟨hclosed, rfl, ?_⟩
    cases e with
    | sent request offline => exact absurd rfl (he request offline)
    | _ => simp [World.requests, World.record]
  ticked _ hclosed := ⟨hclosed, rfl, rfl⟩
  sent w r hopen hclosed := by simp [hopen] at hclosed

theorem Resolver.resolve_idle (r : Resolver) (id : PartId) : (r.resolve id).Keeps World.Idle :=
  r.resolve_keeps id fun w hopen hclosed => by simp [hopen] at hclosed

section Fresh

variable {cache : Cache} (catalog : Catalog) {w : World}

theorem Resolver.resolve_of_fresh {id : PartId} (hfresh : cache.isFresh w.disk id = true) :
    ∃ a w', Resolver.resolve ⟨cache, catalog.fetchPart⟩ id w = (.ok (.hit a), w') ∧ w.Still w' := by
  have hresolves := Resolver.resolve_resolves cache catalog id w
  rcases hrun : Resolver.resolve ⟨cache, catalog.fetchPart⟩ id w with ⟨r, v⟩
  rw [hrun] at hresolves
  cases hresolves with
  | hit _ hv => exact ⟨_, v, rfl, hv⟩
  | blocked hstale | unanswered hstale | stored hstale | unstored hstale => simp [hfresh] at hstale

theorem Resolver.resolveAll_of_fresh {ids : List PartId}
    (hfresh : ∀ id ∈ ids, cache.isFresh w.disk id = true) :
    ∃ w', Resolver.resolveAll ⟨cache, catalog.fetchPart⟩ ids w = (.ok (0, []), w') ∧
      w.Still w' := by
  induction ids generalizing w with
  | nil => exact ⟨w, rfl, World.Frame.refl w⟩
  | cons id ids ih =>
      obtain ⟨a, v, hone, hv⟩ :=
        Resolver.resolve_of_fresh catalog (hfresh id List.mem_cons_self)
      obtain ⟨w', hall, hw'⟩ := ih (w := v) fun other hother => by
        rw [hv.disk]
        exact hfresh other (List.mem_cons_of_mem _ hother)
      refine ⟨w', ?_, World.Frame.trans hv hw'⟩
      rw [Resolver.resolveAll_cons, Act.bind_of_ok hone, Act.bind_of_ok hall]
      rfl

theorem Resolver.work_of_fresh {t : BuildTarget}
    (hfresh : ∀ id ∈ t.parts, cache.isFresh w.disk id = true) :
    ∃ w', Resolver.work ⟨cache, catalog.fetchPart⟩ t w = (.ok (), w') ∧ w.Still w' := by
  obtain ⟨v, hall, hv⟩ := Resolver.resolveAll_of_fresh catalog hfresh
  have hsaid := World.Frame.noted (R := World.Still) v (.logged .info
    s!"All {t.parts.length} part(s) for '{t.name}' are cached ({0} newly fetched)") (by simp)
  refine ⟨_, ?_, World.Frame.trans hv hsaid⟩
  unfold Resolver.work Resolver.build
  simp [Act.mapError, Act.bind_apply, hall, Act.log, Act.change]

theorem Visits.all_ok_of_fresh {last : World} {visits : List (Visit BuildTarget)}
    (hvisits : Visits (Resolver.work ⟨cache, catalog.fetchPart⟩) w visits last)
    (hfresh : ∀ v ∈ visits, ∀ id ∈ v.target.parts, cache.isFresh w.disk id = true) :
    ∀ v ∈ visits, v.result = .ok () := by
  induction hvisits with
  | done => simp
  | @next w last v rest hnotes hwork _ ih =>
      have hseen := hnotes.still
      obtain ⟨w', hone, hleft⟩ := Resolver.work_of_fresh catalog (w := v.seen)
        fun id hid => by
          rw [hseen.disk]
          exact hfresh v List.mem_cons_self id hid
      obtain ⟨hresult, hworld⟩ := Prod.mk.inj (hwork.symm.trans hone)
      have hdisk : v.left.disk = w.disk := by
        rw [hworld, hleft.disk, hseen.disk]
      intro u hu
      rcases List.mem_cons.mp hu with rfl | hu
      · exact hresult
      · refine ih (fun x hx id hid => ?_) u hu
        rw [hdisk]
        exact hfresh x (List.mem_cons_of_mem _ hx) id hid

end Fresh

namespace Command

/-- Where all parts are fresh, a build under a closed gate succeeds without any effect. -/
theorem build_of_fresh {s : Settings} (network : Network) {entry : Option String}
    {builds : List String} {w : World} {project : Project} {targets : List BuildTarget}
    (hproject : Project.discover w.disk entry = .ok project)
    (hselect : project.manifest.select entry builds = .ok targets)
    (hfresh : ∀ t ∈ targets, ∀ id ∈ t.parts,
      Cache.isFresh ⟨s.cacheDir, Freshness.never⟩ w.disk id = true) :
    ∃ w', build s network entry builds w = (.ok (), w') ∧ w.Idle w' := by
  let builder := resolver s (Catalog.ofUrl s.apiUrl network) Freshness.never
  obtain ⟨attempts, last, hvisits, htargets, hrun⟩ :=
    Workflow.buildTargets_visits (ε := Failure) targets builder.work w
  have hok : ∀ v ∈ attempts, v.result = .ok () := by
    refine hvisits.all_ok_of_fresh _ fun v hv id hid => hfresh v.target ?_ id hid
    rw [← htargets]
    exact List.mem_map_of_mem hv
  have hsuccess := (Report.isSuccess_iff targets.length attempts).mpr hok
  have hblocked : isOfflineBlocked ⟨targets.length, attempts.filterMap Visit.failure?⟩ = false := by
    have hnone : attempts.filterMap Visit.failure? = [] := List.isEmpty_iff.mp hsuccess
    simp [isOfflineBlocked, hnone]
  have hidle : w.Idle last := by
    have hkeeps := Workflow.buildTargets_keeps (ε := Failure) (R := World.Idle)
      (builder.work_keeps builder.resolve_idle) targets w
    rw [hrun] at hkeeps
    exact hkeeps
  refine ⟨_, ?_, World.Frame.trans hidle
    (World.Frame.noted last (.logged .info "Build complete") (by simp))⟩
  unfold build
  rw [Act.bind_of_ok (selection_of_found hproject hselect)]
  dsimp only
  rw [Act.bind_of_ok hrun, hblocked, if_neg Bool.false_ne_true,
    Act.bind_of_ok (conclude_of_success hsuccess last)]
  rfl

theorem ready_of_prepare {project : Project} {entry : Option String} {c : Cache}
    {packages : Packages} {w ready : World} (hapart : project.Apart entry c w.disk)
    (hwanted : packages.wanted = project.manifest.dependencies)
    (hplace : packages.stateDir = project.stateDir)
    (hprepare : Workflow.prepare packages.installer w = (.ok (), ready)) :
    w.disk.SameBut (project.Owns w.disk) ready.disk ∧
      ∃ k, ∀ n, ready.clock n = w.clock (n + k) := by
  obtain ⟨state, hroot, hreach, hholds, howns⟩ := hapart.exists_stateDir
  have hstate : packages.stateDir = state.root.join ".partfetch" := by
    rw [hplace, Project.stateDir, hroot]
  have hnames : ∀ dep ∈ packages.wanted, Manifest.isPackageName dep.name = true := by
    rw [hwanted]
    exact Project.isPackageName_of_discover hapart.discover_eq
  have hinstall := Packages.installMissing_within hstate hreach hnames
  have hkeeps : (Workflow.prepare packages.installer).Keeps (World.Within (state.Holds w.disk)) :=
    Workflow.prepare_keeps packages.missing_keeps (hinstall.mapError _)
  have hready := hkeeps w
  rw [hprepare] at hready
  exact ⟨(hready.disk hholds).same.mono howns, hready.clock⟩

section Run

variable {env : Environment} {network : Network} {i : Invocation} {s : Settings}
  {entry : Option String} {builds : List String} (hsettings : Settings.read env env = .ok s)

include hsettings

/-- A task that prints nothing is run with the gate that the settings and the invocation ask for. -/
theorem run_of_task {work : Act Failure Unit}
    (hwork : perform s network i.task = work >>= fun _ => pure "") (w : World) :
    let left := work { w with offline := s.offline || i.offline }
    run env network i w = (left.1.map fun _ => "", left.2) := by
  intro left
  have hleft : work { w with offline := s.offline || i.offline } = left := rfl
  unfold run
  simp only [Act.bind_apply, Act.mapError, Act.ofExcept, hsettings, Act.change, hwork, hleft]
  rcases left with ⟨_ | _, _⟩ <;> rfl

theorem run_of_build (htask : i.task = .build entry builds) (w : World) :
    let left := build s network entry builds { w with offline := s.offline || i.offline }
    run env network i w = (left.1.map fun _ => "", left.2) := by
  apply run_of_task hsettings
  rw [htask]
  rfl

theorem run_of_fetchParts {refresh : Bool} (htask : i.task = .fetchParts entry builds refresh)
    (w : World) :
    let left := fetchParts s network entry builds refresh
      { w with offline := s.offline || i.offline }
    run env network i w = (left.1.map fun _ => "", left.2) := by
  apply run_of_task hsettings
  rw [htask]
  rfl

theorem fetchParts_of_run {refresh : Bool} {w w' : World} {out : String}
    (htask : i.task = .fetchParts entry builds refresh)
    (h : run env network i w = (.ok out, w')) :
    fetchParts s network entry builds refresh { w with offline := s.offline || i.offline } =
      (.ok (), w') := by
  rw [run_of_fetchParts hsettings htask] at h
  rcases hfetch : fetchParts s network entry builds refresh
      { w with offline := s.offline || i.offline } with ⟨e | done, left⟩
  · simp [hfetch, Except.map] at h
  · rw [hfetch] at h
    obtain ⟨-, rfl⟩ := Prod.mk.inj h
    rfl

end Run

/-- When fetching parts has succeeded, a build of the same selection under a closed gate succeeds,
without a request and without a change to the files: whatever the gate was set to before, whether
the parts were refreshed, and whatever the catalog says by then. -/
theorem build_after_fetchParts {env env' : Environment} {network network' : Network}
    {i i' : Invocation} {s s' : Settings} {entry : Option String} {builds : List String}
    {refresh : Bool} {project : Project} {targets : List BuildTarget} {w w₁ w₂ : World}
    {out : String} (hsettings : Settings.read env env = .ok s)
    (hsettings' : Settings.read env' env' = .ok s') (hdir : s'.cacheDir = s.cacheDir)
    (htask : i.task = .fetchParts entry builds refresh) (htask' : i'.task = .build entry builds)
    (hoffline : (s'.offline || i'.offline) = true)
    (hproject : Project.discover w.disk entry = .ok project)
    (hselect : project.manifest.select entry builds = .ok targets)
    (hapart : project.Apart entry ⟨s.cacheDir, Freshness.never⟩ w.disk)
    (hread : ∀ t ∈ targets, ∀ id ∈ t.parts,
      (Catalog.ofUrl s.apiUrl network).ReadsBack w.clock id)
    (hfetch : Command.run env network i w = (.ok out, w₁)) (hdisk : w₂.disk = w₁.disk) :
    ∃ w₃, Command.run env' network' i' w₂ = (.ok "", w₃) ∧ w₃.disk = w₂.disk ∧
      w₃.requests = w₂.requests := by
  have hfetched := fetchParts_of_run hsettings htask hfetch
  obtain ⟨ready, attempts, last, hprepare, hvisits, htargets, hok, hlast⟩ :=
    visits_of_fetchParts (w := { w with offline := s.offline || i.offline }) hproject hselect
      hfetched
  obtain ⟨hready, hclock⟩ :=
    ready_of_prepare (w := { w with offline := false }) hapart rfl rfl hprepare
  have hdirect := hapart.direct ready.disk hready
  obtain ⟨hfills, hreadable⟩ := hvisits.fills _ fun v hv id hid =>
    (hread v.target (htargets ▸ List.mem_map_of_mem hv) id hid).later hclock
  have hfinal : w₂.disk = last.disk := hdisk.trans hlast
  have hproject' : Project.discover w₂.disk entry = .ok project := by
    have hfilled := (hfills.grown _ (.refl hdirect)).toFilled
    rw [hfinal]
    exact hapart.found ready.disk last.disk hready ⟨hfilled.here, hfilled.node⟩
  have hfresh : ∀ t ∈ targets, ∀ id ∈ t.parts,
      Cache.isFresh ⟨s'.cacheDir, Freshness.never⟩ w₂.disk id = true := by
    intro t ht id hid
    rw [← htargets] at ht
    obtain ⟨v, hv, rfl⟩ := List.mem_map.mp ht
    rw [hdir, hfinal]
    exact (hreadable hdirect hok v hv id hid).isFresh
  let start : World := { w₂ with offline := s'.offline || i'.offline }
  obtain ⟨w₃, hbuild, hidle⟩ := build_of_fresh (s := s') (w := start) network'
    hproject' hselect hfresh
  obtain ⟨-, hsame, hrequests⟩ := hidle hoffline
  refine ⟨w₃, ?_, hsame, hrequests⟩
  rw [run_of_build hsettings' htask', hbuild]
  rfl

/-- Parts that were refreshed while online are all that a build without a network needs. -/
theorem build_after_refresh :
    let env : Environment := [("PARTFETCH_API_URL", "http://depot"), ("PARTFETCH_CACHE_DIR", "/c")]
    let network : Network := ⟨fun _ => true, fun _ _ => .answer 200 "{}".toUTF8⟩
    let manifest := "name: b\nbuilds:\n  default:\n    parts: [C1]\n"
    let d : Disk := ⟨[(["p"], .dir), (["p", "partfetch.yaml"], .file manifest.toUTF8)], []⟩
    let w : World := ⟨d, true, fun _ => ⟨0, 0⟩, Listing.asStored, []⟩
    let entry := some "p/main.ato:App"
    let left := (run env network ⟨.fetchParts entry [] true, .info, false⟩ w).2
    ∃ w₃, run env Network.unreachable ⟨.build entry [], .info, true⟩ left = (.ok "", w₃) ∧
      w₃.disk = left.disk ∧ w₃.requests = left.requests := by
  intro env network manifest d w entry left
  let id : PartId := ⟨"C1", by decide, by decide⟩
  let project : Project := ⟨⟨"b", [("default", ⟨none, [id]⟩)], []⟩, ⟨"p"⟩⟩
  let targets : List BuildTarget := [⟨"App", entry, [id]⟩]
  have hsettings : Settings.read env env = .ok ⟨false, "http://depot", ⟨"/c"⟩, 30⟩ := by rfl
  have hproject : Project.discover d entry = .ok project := eq_ok_of_toOption (by decide +kernel)
  have hselect : project.manifest.select entry [] = .ok targets := by rfl
  have houtside : Cache.Outside ⟨⟨"/c"⟩, Freshness.never⟩ d (d.along project.root) := by
    refine ⟨fun q target hq => ?_, by decide +kernel, by decide +kernel, by decide +kernel⟩
    have hne : q ≠ [] := by
      rintro rfl
      simp [Disk.node?] at hq
    have hmem := Disk.mem_nodes_of_node? hne hq
    simp [d] at hmem
  have hapart : project.Apart entry ⟨⟨"/c"⟩, Freshness.never⟩ d :=
    Project.apart_of_outside houtside (by decide +kernel) (by decide +kernel) hproject
  have hread : ∀ t ∈ targets, ∀ part ∈ t.parts,
      (Catalog.ofUrl "http://depot" network).ReadsBack w.clock part := by
    intro t ht part hpart
    obtain rfl := List.mem_singleton.mp ht
    obtain rfl := List.mem_singleton.mp hpart
    exact Catalog.readsBack_of_steady (fun _ _ _ => rfl) (by decide +kernel)
  have hout : (run env network ⟨.fetchParts entry [] true, .info, false⟩ w).1 = .ok "" :=
    eq_ok_of_toOption (by decide +kernel)
  have hfetch : run env network ⟨.fetchParts entry [] true, .info, false⟩ w = (.ok "", left) :=
    Prod.ext hout rfl
  have hdisk : w.disk = d := rfl
  -- What these values are is not needed any more, and would be evaluated again.
  clear_value left targets project entry w d env network
  subst hdisk
  exact build_after_fetchParts hsettings hsettings rfl rfl rfl rfl hproject hselect hapart hread
    hfetch rfl

/-- A cache directory that is not inside of the project is not enough. Once it is made, the
entry may lead through it to another project; and an entry of the cache that is a link may be
replaced when another one leads through it. -/
theorem build_fails_after_fetchParts :
    let env : Environment := [("PARTFETCH_API_URL", "http://depot"), ("PARTFETCH_CACHE_DIR", "/c")]
    let network : Network := ⟨fun _ => true, fun _ _ => .answer 200 "{}".toUTF8⟩
    let manifest (parts : String) : Node :=
      .file ("name: b\nbuilds:\n  a:\n    parts: [" ++ parts ++ "]\n").toUTF8
    let entry : Node := .file "part_id: C2\nfetched_at: 2024-01-02T03:04:05Z\npayload: 1\n".toUTF8
    let clock : Nat → Timestamp := fun _ => ⟨0, 0⟩
    let fetch (at? : Option String) (d : Disk) :=
      run env network ⟨.fetchParts at? [] false, .info, false⟩
        ⟨d, false, clock, Listing.asStored, []⟩
    let build (at? : Option String) (w : World) := run env network ⟨.build at? [], .info, true⟩ w
    let found (at? : Option String) (d : Disk) :=
      (Project.discover d at?).toOption.map (·.root.text)
    let projects : Disk := ⟨[(["p"], .dir), (["p", "partfetch.yaml"], manifest "C1"),
      (["x"], .dir), (["x", "partfetch.yaml"], manifest "C2")], []⟩
    let byway := some "p/../c/../x"
    let links : Disk := ⟨[(["p"], .dir), (["p", "partfetch.yaml"], manifest "C2, C1"),
      (["c"], .dir), (["c", "C1.yaml"], .link "../o"), (["c", "C2.yaml"], .link "C1.yaml/C2.yaml"),
      (["o"], .dir), (["o", "C2.yaml"], entry)], ["p"]⟩
    (Catalog.ofUrl "http://depot" network).ReadsBack clock ⟨"C1", by decide, by decide⟩ ∧
      (found byway projects = some "p" ∧ (fetch byway projects).1.toOption = some "" ∧
        found byway (fetch byway projects).2.disk = some "p/../c/../x" ∧
        (build byway (fetch byway projects).2).1.toOption = none) ∧
      found none links = some "/p" ∧ (fetch none links).1.toOption = some "" ∧
        (build none (fetch none links).2).1.toOption = none := by
  refine ⟨Catalog.readsBack_of_steady (fun _ _ _ => rfl) (by decide +kernel), ?_, ?_⟩
  · decide +kernel
  · decide +kernel

end Command

end PartDepot
