import PartDepot.Proofs.OfflineBuild
import PartDepot.Proofs.Reaching
import PartDepot.Proofs.Sparing
import PartDepot.Proofs.Telling

/-!
# How the command ends

The command succeeds just if nothing that was asked of it is lacking, and what it says at
the end agrees with that: it declares to be complete only on success, and else counts and
names the targets that failed.
-/

namespace PartDepot

/-! ## Installing what is missing -/

namespace Packages

variable {p : Packages}

/-- The packages that an installation gets to, and whether each of them is installed and
recorded. It ends with the first that is not. -/
def attempts (p : Packages) : Lock → List Dependency → World → List (Dependency × Bool)
  | _, [], _ => []
  | lock, dep :: rest, w =>
    match p.advance lock dep w with
    | (.ok saved, v) => (dep, true) :: p.attempts saved rest v
    | (.error _, _) => [(dep, false)]

theorem installAll_eq_ok_iff {lock : Lock} {deps : List Dependency} {w : World} :
    (p.installAll lock deps w).1 = .ok () ↔ p.attempts lock deps w = deps.map (·, true) := by
  induction deps generalizing lock w with
  | nil => exact ⟨fun _ => rfl, fun _ => rfl⟩
  | cons dep rest ih =>
      rw [installAll_eq, attempts]
      rcases hadvance : p.advance lock dep w with ⟨e | saved, v⟩
      · simp [Act.bind_of_error hadvance]
      · simp [Act.bind_of_ok hadvance, ih]

/-- The installation for a run succeeds just if every package that was missing is installed. -/
theorem prepare_begins (p : Packages) (w : World) :
    ∃ missing lock v, (∀ dep, dep ∈ missing ↔ dep ∈ p.wanted ∧ ¬p.Present w.disk dep) ∧
      lock.installed = p.recorded w.disk ∧ w.Still v ∧
      ((Workflow.prepare p.installer w).1 = .ok () ↔
        p.attempts lock missing v = missing.map (·, true)) := by
  obtain ⟨missing, listed, hmissing, hiff, hstill, -⟩ := p.missing_apply Panic w
  by_cases hnone : missing = []
  · obtain ⟨lock, -, -, hentries, -, -⟩ := p.readLock_apply Panic w
    subst hnone
    have hcomplete : p.installer.missing w = (.ok [], listed) := hmissing
    refine ⟨[], lock, w, hiff, hentries, World.Frame.refl w, ?_⟩
    rw [Workflow.prepare_of_complete hcomplete]
    simp [attempts]
  · have hlacking : p.installer.missing w = (.ok missing, listed) := hmissing
    obtain ⟨seen, hseen, hprepare⟩ := Workflow.prepare_of_missing hlacking hnone
    have hbefore : w.Still seen := World.Frame.trans hstill hseen.still
    obtain ⟨missing', lock, v, hiff', hentries, hv, -, hrun⟩ := p.installMissing_begins seen
    rw [hbefore.disk] at hiff' hentries
    refine ⟨missing', lock, v, hiff', hentries, World.Frame.trans hbefore hv, ?_⟩
    rw [hprepare, ← installAll_eq_ok_iff, ← hrun]
    unfold installer Act.mapError
    dsimp only
    rcases p.installMissing seen with ⟨e | done, last⟩ <;> simp

end Packages

/-! ## What the environment says of the gate -/

theorem Settings.parseFlag_of_read {env user : Environment} {s : Settings}
    (h : read env user = .ok s) :
    parseFlag offlineVariable (env.lookup offlineVariable) = .ok s.offline := by
  unfold read at h
  rcases hflag : parseFlag offlineVariable (env.lookup offlineVariable) with e | offline
  · rw [hflag] at h
    simp [bind, Except.bind] at h
  · rw [hflag] at h
    simp only [bind, Except.bind] at h
    split at h
    · obtain rfl := Except.ok.inj h
      rfl
    · rcases hdir : defaultCacheDir user with e | dir
      · simp [hdir] at h
      · rw [hdir] at h
        obtain rfl := Except.ok.inj h
        rfl

/-! ## What is said at the end -/

theorem Fanout.name_infix_combined {τ : Type} (name : τ → String)
    {failures : List (TargetFailure τ)} {f : TargetFailure τ} (hf : f ∈ failures) :
    (name f.target).toList <:+: (combined name failures).toList := by
  let line (f : TargetFailure τ) : String := s!"\n  - {name f.target}: {f.failure.line}"
  have hline : (name f.target).toList <:+: (line f).toList := by
    have hparts : line f = "\n  - " ++ name f.target ++ ": " ++ f.failure.line := rfl
    refine ⟨"\n  - ".toList, ": ".toList ++ f.failure.line.toList, ?_⟩
    simp only [hparts, String.toList_append, List.append_assoc]
  have hlines : (line f).toList <:+: (String.join (failures.map line)).toList := by
    obtain ⟨before, after, rfl⟩ := List.append_of_mem hf
    refine ⟨(String.join (before.map line)).toList, (String.join (after.map line)).toList, ?_⟩
    simp [String.join_append, String.join_cons, String.toList_append]
  refine hline.trans (hlines.trans ?_)
  unfold combined
  rw [String.toList_append]
  exact (List.suffix_append _ _).isInfix

namespace Command

/-- The message that so many of the targets failed. -/
def countText (failed attempted : Nat) : String := s!"{failed} of {attempted} build(s) failed"

/-- The last words of a run: the messages for success, or how many targets failed. -/
def closing (r : Report) (finals : List String) : List (LogLevel × String) :=
  if r.isSuccess then finals.map (LogLevel.info, ·)
    else [(.error, countText r.failures.length r.attempted)]

/-- The events of messages. -/
def saying (said : List (LogLevel × String)) : List Event := said.map fun m => .logged m.1 m.2

theorem records_saying (said : List (LogLevel × String)) : records .info (saying said) = said := by
  have hall (level : LogLevel) : Verbosity.shows .info level = true := by cases level <;> rfl
  unfold records saying
  induction said with
  | nil => rfl
  | cons m rest ih => simp [recordsFrom, hall, spanText, ih]

theorem Chapter.records_saying_append {body : List Event} (h : Chapter body)
    (said : List (LogLevel × String)) :
    records .info (body ++ saying said) = records .info body ++ said := by
  rw [h.records_append, records_saying]

/-- What is said and how a run ends agrees with what it came to: whether it got to the
targets, and which of them can be had. -/
structure Truthful (final : String) (targets : List BuildTarget) (begun : Prop)
    (obtainable : BuildTarget → Bool) (result : Except Failure String) (told : List Event) :
    Prop where
  exit : result.isOk = true ↔ begun ∧ ∀ t ∈ targets, obtainable t = true
  final : (.info, final) ∈ records .info told ↔ result.isOk = true
  /-- The targets that failed are counted, and the failure names each of them. -/
  failed : begun → (∃ t ∈ targets, obtainable t = false) →
    (.error, countText (targets.filter fun t => !obtainable t).length targets.length) ∈
      records .info told ∧
      ∃ message, result = .error (.message message) ∧
        ∀ t ∈ targets, obtainable t = false → t.name.toList <:+: message.toList

namespace Chapter

variable {body : List Event} {final : String} {targets : List BuildTarget} {begun : Prop}
  {obtainable : BuildTarget → Bool} (h : Chapter body)

include h

theorem truthful_of_success (hbegun : begun) (hall : ∀ t ∈ targets, obtainable t = true)
    (hints : List (LogLevel × String)) (more : List String) :
    Truthful final targets begun obtainable (.ok "")
      (body ++ saying (hints ++ (final :: more).map (LogLevel.info, ·))) := by
  refine ⟨iff_of_true rfl ⟨hbegun, hall⟩, iff_of_true ?_ rfl, fun _ hlacking => ?_⟩
  · rw [h.records_saying_append]
    simp
  · obtain ⟨t, ht, hlack⟩ := hlacking
    simp [hall t ht] at hlack

variable (hfinal : ∀ phrase ∈ "build\x7btarget=" :: Event.phrases, ¬phrase.toList <+: final.toList)

include hfinal

/-- A run that did not get to the targets fails and does not declare success. -/
theorem truthful_of_stop (hstop : ¬begun) (e : Failure) :
    Truthful final targets begun obtainable (.error e) body := by
  refine ⟨iff_of_false Bool.false_ne_true fun hexit => hstop hexit.1, ?_,
    fun hbegun => absurd hbegun hstop⟩
  exact iff_of_false (h.not_mem_records hfinal) Bool.false_ne_true

theorem truthful_of_failures {failures : List (TargetFailure BuildTarget)} (hsome : failures ≠ [])
    (hfailures : failures.map (·.target) = targets.filter fun t => !obtainable t)
    {hints : List (LogLevel × String)} (hhints : ∀ m ∈ hints, m.1 = .error) :
    Truthful final targets begun obtainable
      (.error (.message (Fanout.combined BuildTarget.name failures)))
      (body ++ saying (hints ++ [(.error, countText failures.length targets.length)])) := by
  have hfailing (t : BuildTarget) : t ∈ failures.map (·.target) ↔ t ∈ targets ∧
      obtainable t = false := by
    rw [hfailures, List.mem_filter, Bool.not_eq_true']
  refine ⟨iff_of_false Bool.false_ne_true fun hexit => ?_, iff_of_false ?_ Bool.false_ne_true,
    fun _ _ => ⟨?_, _, rfl, ?_⟩⟩
  · obtain ⟨f, hf⟩ := List.exists_mem_of_ne_nil _ hsome
    obtain ⟨ht, hlack⟩ := (hfailing f.target).mp (List.mem_map_of_mem hf)
    simp [hexit.2 _ ht] at hlack
  · rw [h.records_saying_append, List.mem_append, List.mem_append]
    rintro (hbody | hhint | hcount)
    · exact h.not_mem_records hfinal hbody
    · exact LogLevel.noConfusion (hhints _ hhint)
    · simp at hcount
  · rw [h.records_saying_append, ← hfailures, List.length_map]
    simp
  · intro t ht hlack
    obtain ⟨f, hf, rfl⟩ := List.mem_map.mp ((hfailing t).mpr ⟨ht, hlack⟩)
    exact Fanout.name_infix_combined BuildTarget.name hf

/-- A run over targets ends truthfully if exactly those failed that cannot be had. -/
theorem truthful {failures : List (TargetFailure BuildTarget)} (hbegun : begun)
    (hfailures : failures.map (·.target) = targets.filter fun t => !obtainable t)
    (more : List String) {hints : List (LogLevel × String)} (hhints : ∀ m ∈ hints, m.1 = .error) :
    let r : Report := ⟨targets.length, failures⟩
    Truthful final targets begun obtainable (r.result.map fun _ => "")
      (body ++ saying (hints ++ closing r (final :: more))) := by
  intro r
  unfold closing
  cases hsuccess : r.isSuccess with
  | true =>
      have hempty : failures = [] := List.isEmpty_iff.mp hsuccess
      have hnone : targets.filter (fun t => !obtainable t) = [] := by
        rw [← hfailures, hempty, List.map_nil]
      have hall : ∀ t ∈ targets, obtainable t = true := by
        intro t ht
        simpa using List.filter_eq_nil_iff.mp hnone t ht
      rw [r.result_of_success hsuccess]
      exact h.truthful_of_success hbegun hall hints more
  | false =>
      have hsome : failures ≠ [] := by
        rintro rfl
        simp [r, Report.isSuccess] at hsuccess
      rw [r.result_of_failure hsuccess]
      exact h.truthful_of_failures hfinal hsome hfailures hhints

end Chapter

theorem conclude_of_failure {r : Report} (h : r.isSuccess = false) (w : World) :
    ∃ e, r.result = .error e ∧ conclude r w = (.error e,
      w.record (.logged .error (countText r.failures.length r.attempted))) := by
  have hresult := r.result_of_failure h
  refine ⟨_, hresult, ?_⟩
  simp [conclude, Act.bind_apply, Act.ofExcept, Act.log, Act.change, h, hresult, countText]

/-- The failures of a run are counted, or what there is to say about its success is said. -/
theorem conclude_then (report : Report) (finals : List String) {say : Act Failure Unit}
    (hsay : ∀ w, say w =
      (.ok (), { w with journal := w.journal ++ saying (finals.map (LogLevel.info, ·)) }))
    (w : World) :
    ((conclude report >>= fun _ => say) w).1 = report.result ∧
      ((conclude report >>= fun _ => say) w).2.journal =
        w.journal ++ saying (closing report finals) := by
  cases hsuccess : report.isSuccess with
  | true =>
      rw [Act.bind_of_ok (conclude_of_success hsuccess w), hsay, report.result_of_success hsuccess,
        closing, if_pos hsuccess]
      exact ⟨rfl, rfl⟩
  | false =>
      obtain ⟨e, hresult, hconclude⟩ := conclude_of_failure hsuccess w
      rw [Act.bind_of_error hconclude, hresult, closing, if_neg (by simp [hsuccess])]
      exact ⟨rfl, rfl⟩

/-! ## Building -/

/-- The hint of a build that lacks parts. -/
def hint : String := "Some parts are not cached. Run `partfetch fetch-parts` while online first."

theorem countText_ne_hint (failed attempted : Nat) : countText failed attempted ≠ hint := by
  intro hsame
  have hlast := congrArg (fun s : String => s.toList.getLast?) hsame
  have hend : (countText failed attempted).toList.getLast? = some 'd' := by
    have hparts : countText failed attempted =
        toString failed ++ " of " ++ toString attempted ++ " build(s) failed" := rfl
    rw [hparts, String.toList_append, List.getLast?_append]
    rfl
  rw [hend] at hlast
  exact absurd hlast (by decide)

section Tasks

variable {s : Settings} {network : Network} {entry : Option String} {builds : List String}
  {w left : World} {project : Project} {targets : List BuildTarget} {report : Report}

theorem build_apply (hproject : Project.discover w.disk entry = .ok project)
    (hselect : project.manifest.select entry builds = .ok targets)
    (hrun : (Workflow.buildTargets targets
        (resolver s (Catalog.ofUrl s.apiUrl network) Freshness.never).work w :
          Except Failure Report × World) = (.ok report, left)) :
    (build s network entry builds w).1 = report.result ∧
      (build s network entry builds w).2.journal = left.journal ++
        saying ((if isOfflineBlocked report then [(.error, hint)] else []) ++
          closing report ["Build complete"]) := by
  have hsay (w : World) : (Act.log .info "Build complete" : Act Failure Unit) w =
      (.ok (), { w with journal := w.journal ++ saying [(.info, "Build complete")] }) := rfl
  have hend := conclude_then report ["Build complete"] hsay
  unfold build
  rw [Act.bind_of_ok (selection_of_found hproject hselect)]
  dsimp only
  rw [Act.bind_of_ok hrun]
  cases isOfflineBlocked report with
  | false => exact hend left
  | true =>
      obtain ⟨hresult, hjournal⟩ := hend (left.record (.logged .error hint))
      refine ⟨hresult, hjournal.trans ?_⟩
      simp [World.record, saying]

/-- What a build comes to. -/
theorem build_truthful (hproject : Project.discover w.disk entry = .ok project)
    (hselect : project.manifest.select entry builds = .ok targets) (hsteady : network.Steady)
    (hplain : w.offline = false → Cache.Plain ⟨s.cacheDir, Freshness.never⟩ w.disk) :
    let cache : Cache := ⟨s.cacheDir, Freshness.never⟩
    let out := build s network entry builds w
    ∃ told, out.2.journal = w.journal ++ told ∧
      Truthful "Build complete" targets True
        (·.isObtainable cache (Catalog.ofUrl s.apiUrl network) w) (out.1.map fun _ => "") told ∧
      ((.error, hint) ∈ records .info told ↔
        w.offline = true ∧ ∃ t ∈ targets, ∃ id ∈ t.parts, cache.isFresh w.disk id = false) := by
  intro cache out
  let catalog := Catalog.ofUrl s.apiUrl network
  obtain ⟨visits, last, hvisits, htargets, hrun⟩ := Workflow.buildTargets_visits
    (ε := Failure) targets (Resolver.work ⟨cache, catalog.fetchPart⟩) w
  obtain ⟨body, hbody, hchapter⟩ := Workflow.buildTargets_chapter (ε := Failure)
    (Resolver.work_spoken cache catalog) targets w
  have hfailures := hvisits.map_target_failures hsteady (World.Offers.refl hplain)
  obtain ⟨hresult, hwritten⟩ := build_apply hproject hselect hrun
  let report : Report := ⟨targets.length, visits.filterMap Visit.failure?⟩
  have hblocked : isOfflineBlocked report = true ↔
      w.offline = true ∧ ∃ t ∈ targets, ∃ id ∈ t.parts, cache.isFresh w.disk id = false := by
    rw [isOfflineBlocked_iff hvisits, ← htargets]
    simp only [List.mem_map, exists_exists_and_eq_and, Cache.mustRefresh_eq, Bool.not_eq_true']
  rw [htargets] at hfailures
  rw [hrun] at hbody
  dsimp only at hbody
  rw [hbody, List.append_assoc] at hwritten
  refine ⟨_, hwritten, ?_, ?_⟩
  · rw [hresult]
    apply hchapter.truthful (by decide) trivial hfailures []
    intro m hm
    split at hm
    · rw [List.mem_singleton.mp hm]
    · simp at hm
  · have hbodyHint : (LogLevel.error, hint) ∉ records .info body :=
      hchapter.not_mem_records (by decide)
    have hclosing : (LogLevel.error, hint) ∉ closing report ["Build complete"] := by
      unfold closing
      split
      · simp
      · simp [(countText_ne_hint report.failures.length report.attempted).symm]
    rw [hchapter.records_saying_append, List.mem_append, List.mem_append, ← hblocked,
      or_iff_right hbodyHint, or_iff_left hclosing]
    split
    · next hset => simp [report, hset]
    · next hset => simp [report, hset]

/-! ## Fetching -/

/-- What is said when everything was fetched. -/
def fetched : String := "Part fetching complete! All required parts are now cached."

theorem fetchParts_of_stop {refresh : Bool} {halt : Halt FetchError}
    (hproject : Project.discover w.disk entry = .ok project)
    (hselect : project.manifest.select entry builds = .ok targets)
    (hrun : Workflow.fetchMissingParts
      (Packages.installer ⟨project.manifest.dependencies, project.stateDir,
        Catalog.ofUrl s.apiUrl network⟩) targets
      (resolver s (Catalog.ofUrl s.apiUrl network)
        (if refresh then Freshness.always else Freshness.never)).work w = (.error halt, left)) :
    fetchParts s network entry builds refresh w = (.error halt.fetchFailure, left) := by
  unfold fetchParts
  rw [Act.bind_of_ok (selection_of_found hproject hselect)]
  exact Act.bind_of_error (Act.mapError_of_error hrun _) _

theorem fetchParts_apply {refresh : Bool} (hproject : Project.discover w.disk entry = .ok project)
    (hselect : project.manifest.select entry builds = .ok targets)
    (hrun : Workflow.fetchMissingParts
      (Packages.installer ⟨project.manifest.dependencies, project.stateDir,
        Catalog.ofUrl s.apiUrl network⟩) targets
      (resolver s (Catalog.ofUrl s.apiUrl network)
        (if refresh then Freshness.always else Freshness.never)).work w = (.ok report, left)) :
    (fetchParts s network entry builds refresh w).1 = report.result ∧
      (fetchParts s network entry builds refresh w).2.journal =
        left.journal ++ saying (closing report
          [fetched, "You can now build offline by setting PARTFETCH_OFFLINE=1"]) := by
  let offline : String := "You can now build offline by setting PARTFETCH_OFFLINE=1"
  have hsay (w : World) :
      (Act.log .info fetched >>= fun _ => Act.log .info offline : Act Failure Unit) w =
      (.ok (), { w with journal := w.journal ++ saying [(.info, fetched), (.info, offline)] }) := by
    rw [Act.log_bind, Act.log, Act.change]
    simp [World.record, saying]
  have hend := conclude_then report [fetched, offline] hsay
  unfold fetchParts
  rw [Act.bind_of_ok (selection_of_found hproject hselect)]
  dsimp only
  rw [Act.bind_of_ok (Act.mapError_of_ok hrun _)]
  exact hend left

/-- What fetching parts comes to. The gate is open meanwhile, whatever it was, and the parts are had
from the cache as it is after the installation. -/
theorem fetchParts_truthful {refresh : Bool} (ready : World)
    (hproject : Project.discover w.disk entry = .ok project)
    (hselect : project.manifest.select entry builds = .ok targets) (hsteady : network.Steady) :
    let catalog := Catalog.ofUrl s.apiUrl network
    let cache : Cache := ⟨s.cacheDir, if refresh then Freshness.always else Freshness.never⟩
    let packages : Packages := ⟨project.manifest.dependencies, project.stateDir, catalog⟩
    let start : World := { w with offline := false }
    let out := fetchParts s network entry builds refresh w
    (Workflow.prepare packages.installer start).2 = ready →
      ((Workflow.prepare packages.installer start).1 = .ok () → cache.Plain ready.disk) →
      ∃ missing lock v told,
        (∀ dep, dep ∈ missing ↔ dep ∈ packages.wanted ∧ ¬packages.Present w.disk dep) ∧
        lock.installed = packages.recorded w.disk ∧ start.Still v ∧
        out.2.journal = w.journal ++ told ∧
        Truthful fetched targets (packages.attempts lock missing v = missing.map (·, true))
          (·.isObtainable cache catalog ready) (out.1.map fun _ => "") told := by
  intro catalog cache packages start out hready hplain
  obtain ⟨missing, lock, v, hmissing, hentries, hstill, hbegins⟩ := packages.prepare_begins start
  obtain ⟨body, hbody, hchapter⟩ := Workflow.fetchMissingParts_chapter packages
    (Resolver.work_spoken cache catalog) targets w
  rcases hprepare : Workflow.prepare packages.installer start with ⟨halt | done, begun⟩
  · have hrun :=
      Workflow.fetchMissingParts_of_stop targets (Resolver.work ⟨cache, catalog.fetchPart⟩) hprepare
    have hout := fetchParts_of_stop hproject hselect hrun
    rw [hrun] at hbody
    rw [hprepare] at hbegins
    refine ⟨missing, lock, v, body, hmissing, hentries, hstill, ?_, ?_⟩
    · simp only [out, hout]
      exact hbody
    · simp only [out, hout]
      apply hchapter.truthful_of_stop (by decide)
      simp [← hbegins]
  · obtain ⟨visits, last, hvisits, htargets, hrun⟩ :=
      Workflow.fetchMissingParts_of_ready targets (Resolver.work ⟨cache, catalog.fetchPart⟩)
        hprepare
    obtain ⟨hresult, hwritten⟩ := fetchParts_apply hproject hselect hrun
    rw [hprepare] at hready hplain
    subst hready
    have hfailures := hvisits.map_target_failures hsteady (World.Offers.refl fun _ => hplain rfl)
    have hnone : ∀ m ∈ ([] : List (LogLevel × String)), m.1 = .error := by simp
    rw [htargets] at hfailures
    rw [hrun] at hbody
    rw [hprepare] at hbegins
    dsimp only at hbody
    rw [hbody, List.append_assoc] at hwritten
    refine ⟨missing, lock, v, _, hmissing, hentries, hstill, hwritten, ?_⟩
    simp only [out]
    rw [hresult]
    exact hchapter.truthful (by decide) (hbegins.mp rfl) hfailures
      ["You can now build offline by setting PARTFETCH_OFFLINE=1"] hnone

/-! ## The command -/

/-- How the command ends is the truth about what it was asked for. A build succeeds just if each
part of each target was usable in the cache or, under an open gate, can be fetched and stored;
fetching succeeds just if every package that was missing is installed and each part of each target
could be had after that, with the gate open for both. What is said at the end agrees: success is
declared just where there is success, the failed targets are counted and named, and the hint to
fetch parts is given just if a closed gate kept a part from being refreshed.  Under an open gate
this needs a plain cache; and what can be had after the installation is what could be had before
it, where the project spares the cache. -/
theorem outcome_truthful {env : Environment} {i : Invocation}
    (hsettings : Settings.read env env = .ok s) (hsteady : network.Steady)
    (hproject : Project.discover w.disk entry = .ok project)
    (hselect : project.manifest.select entry builds = .ok targets) :
    let catalog := Catalog.ofUrl s.apiUrl network
    let out := run env network i w
    let obtainable (v : World) (cache : Cache) (offline : Bool) (t : BuildTarget) : Bool :=
      t.parts.all fun id => cache.isFresh v.disk id ||
        !offline && (catalog.answer? v.requests.length id).isSome && cache.canStore v.disk id
    parseFlag offlineVariable (env.lookup offlineVariable) = .ok s.offline ∧
    (i.task = .build entry builds →
      let cache : Cache := ⟨s.cacheDir, Freshness.never⟩
      let offline := s.offline || i.offline
      (offline = false → cache.Plain w.disk) →
      ∃ told, out.2.journal = w.journal ++ told ∧
        Truthful "Build complete" targets True (obtainable w cache offline) out.1 told ∧
        ((.error, hint) ∈ records .info told ↔
          offline = true ∧ ∃ t ∈ targets, ∃ id ∈ t.parts, cache.mustRefresh w id = true)) ∧
    ∀ refresh, i.task = .fetchParts entry builds refresh →
      let cache : Cache := ⟨s.cacheDir, if refresh then Freshness.always else Freshness.never⟩
      let packages : Packages := ⟨project.manifest.dependencies, project.stateDir, catalog⟩
      let prepared := Workflow.prepare packages.installer { w with offline := false }
      let ready := prepared.2
      ((prepared.1 = .ok () → cache.Plain ready.disk) →
        ∃ missing lock v told,
          (∀ dep, dep ∈ missing ↔ dep ∈ packages.wanted ∧ ¬packages.Present w.disk dep) ∧
          lock.installed = packages.recorded w.disk ∧ v.disk = w.disk ∧ v.offline = false ∧
          out.2.journal = w.journal ++ told ∧
          Truthful fetched targets (packages.attempts lock missing v = missing.map (·, true))
            (obtainable ready cache false) out.1 told) ∧
      (cache.Plain w.disk → project.Spares cache w.disk → cache.Plain ready.disk ∧
        ∀ t, obtainable ready cache false t = obtainable w cache false t) := by
  intro catalog out obtainable
  refine ⟨Settings.parseFlag_of_read hsettings, fun htask => ?_, fun refresh htask => ?_⟩
  · intro cache offline hplain
    obtain ⟨told, hjournal, htruthful, hhint⟩ := build_truthful (w := { w with offline }) hproject
      hselect hsteady hplain
    simp only [out, run_of_build hsettings htask, Cache.mustRefresh_eq, Bool.not_eq_true']
    exact ⟨told, hjournal, htruthful, hhint⟩
  · intro cache packages prepared ready
    have hgate : ready.offline = false := packages.prepare_sameGate { w with offline := false }
    have hready (t : BuildTarget) :
        t.isObtainable cache catalog ready = obtainable ready cache false t := by
      unfold BuildTarget.isObtainable World.canObtain World.canFetch
      rw [hgate]
    constructor
    · intro hplain
      obtain ⟨missing, lock, v, told, hmissing, hentries, hstill, hjournal, htruthful⟩ :=
        fetchParts_truthful (w := { w with offline := s.offline || i.offline }) ready hproject
          hselect hsteady rfl hplain
      simp only [out, run_of_fetchParts hsettings htask]
      rw [← funext hready]
      exact ⟨missing, lock, v, told, hmissing, hentries, hstill.disk, hstill.offline, hjournal,
        htruthful⟩
    · intro hplain hspares
      have hnames := Project.isPackageName_of_discover hproject
      have hoffers : World.Offers cache catalog { w with offline := false } ready :=
        hspares.offers (w := { w with offline := false }) hplain (p := packages) rfl hnames catalog
      refine ⟨hoffers.plain rfl, fun t => ?_⟩
      rw [← hready t, hoffers.isObtainable_eq hsteady t]
      rfl

end Tasks

/-- Where one part of two is cached, a build without the gate open lacks the target that lists both,
names it and gives the hint, and fetching parts makes up for it. -/
theorem outcome_of_half_cached :
    let env : Environment := [("PARTFETCH_API_URL", "http://depot"), ("PARTFETCH_CACHE_DIR", "/c")]
    let network : Network := ⟨fun _ => true, fun _ _ => .answer 200 "{}".toUTF8⟩
    let manifest := "name: b\nbuilds:\n  full:\n    parts: [C1]\n  half:\n    parts: [C1, C2]\n"
    let text := "part_id: C1\nfetched_at: 2024-01-02T03:04:05Z\npayload: null\n"
    let d : Disk :=
      ⟨[(["p"], .dir), (["p", "partfetch.yaml"], .file manifest.toUTF8), (["c"], .dir),
      (["c", "C1.yaml"], .file text.toUTF8)], ["p"]⟩
    let w : World := ⟨d, false, fun _ => ⟨0, 0⟩, Listing.asStored, []⟩
    let build := run env network ⟨.build none [], .info, true⟩ w
    let fetch := run env network ⟨.fetchParts none [] false, .info, true⟩ w
    (build.1.isOk = false ∧ (.error, "1 of 2 build(s) failed") ∈ records .info build.2.journal ∧
      (.error, hint) ∈ records .info build.2.journal ∧
      ∃ message, build.1 = .error (.message message) ∧ "half".toList <:+: message.toList) ∧
    fetch.1.isOk = true ∧ (.info, fetched) ∈ records .info fetch.2.journal := by
  intro env network manifest text d w build fetch
  let s : Settings := ⟨false, "http://depot", ⟨"/c"⟩, 30⟩
  let one : PartId := ⟨"C1", by decide, by decide⟩
  let two : PartId := ⟨"C2", by decide, by decide⟩
  let full : BuildTarget := ⟨"full", none, [one]⟩
  let half : BuildTarget := ⟨"half", none, [one, two]⟩
  let project : Project :=
    ⟨⟨"b", [("full", ⟨none, [one]⟩), ("half", ⟨none, [one, two]⟩)], []⟩, ⟨"/p"⟩⟩
  have hsettings : Settings.read env env = .ok s := by rfl
  have hproject : Project.discover w.disk none = .ok project :=
    eq_ok_of_toOption (by decide +kernel)
  have hselect : project.manifest.select none [] = .ok [full, half] := by rfl
  have hrooted : d.Rooted := Disk.rooted_of_standing (by decide +kernel) (by decide +kernel)
  have houtside : Cache.Outside ⟨s.cacheDir, Freshness.never⟩ d (d.along project.root) := by
    refine ⟨Disk.noLink_of_nodes (by simp [d]), ?_, ?_, ?_⟩
    all_goals decide +kernel
  have hplain : Cache.Plain ⟨s.cacheDir, Freshness.never⟩ w.disk := houtside.plainCache hrooted
  have hspares : project.Spares ⟨s.cacheDir, Freshness.never⟩ w.disk :=
    Project.spares_of_outside houtside (by decide +kernel) (by decide +kernel) hproject
  have hsteady : network.Steady := fun _ _ _ => rfl
  let cache : Cache := ⟨s.cacheDir, Freshness.never⟩
  let obtainable (offline : Bool) (t : BuildTarget) : Bool := t.parts.all fun id =>
    cache.isFresh w.disk id || !offline &&
      ((Catalog.ofUrl s.apiUrl network).answer? w.requests.length id).isSome &&
        cache.canStore w.disk id
  have hlack : obtainable true half = false := by decide +kernel
  have hcount : ([full, half].filter fun t => !obtainable true t).length = 1 := by decide +kernel
  have hall : ∀ t ∈ [full, half], obtainable false t = true := by decide +kernel
  have hrefresh : cache.mustRefresh w two = true := by decide +kernel
  have hjournal : w.journal = [] := rfl
  have hdeps : project.manifest.dependencies = [] := rfl
  have hname : half.name = "half" := rfl
  have htwo : two ∈ half.parts := by decide
  have hdisk : w.disk = d := rfl
  -- What these values are is not needed any more, and would be evaluated again.
  clear_value half full one two project w d env network
  subst hdisk
  constructor
  · obtain ⟨-, hbuild, -⟩ := outcome_truthful (i := ⟨.build none [], .info, true⟩) hsettings hsteady
      hproject hselect
    obtain ⟨told, htold, htruthful, hhint⟩ := hbuild rfl fun _ => hplain
    rw [hjournal, List.nil_append] at htold
    have hfailing : ∃ t ∈ [full, half], obtainable true t = false := ⟨half, by simp, hlack⟩
    obtain ⟨hcounted, message, hmessage, hnamed⟩ := htruthful.failed trivial hfailing
    refine ⟨?_, ?_, ?_, message, hmessage, ?_⟩
    · simp only [build, hmessage]
      rfl
    · have htext : countText 1 2 = "1 of 2 build(s) failed" := by decide +kernel
      rw [← htext, htold, ← hcount]
      exact hcounted
    · rw [← htold] at hhint
      exact hhint.mpr ⟨rfl, half, by simp, two, htwo, hrefresh⟩
    · rw [← hname]
      exact hnamed half (by simp) hlack
  · obtain ⟨-, -, hfetch⟩ := outcome_truthful (i := ⟨.fetchParts none [] false, .info, true⟩)
      hsettings hsteady hproject hselect
    obtain ⟨houtcome, hbefore⟩ := hfetch false rfl
    obtain ⟨hready, hsame⟩ := hbefore hplain hspares
    obtain ⟨missing, lock, v, told, hmissing, -, -, -, htold, htruthful⟩ :=
      houtcome fun _ => hready
    have hnone : missing = [] := by
      refine List.eq_nil_iff_forall_not_mem.mpr fun dep hdep => ?_
      have hwanted := ((hmissing dep).mp hdep).1
      simp [hdeps] at hwanted
    have hsuccess := htruthful.exit.mpr
      ⟨by rw [hnone]; rfl, fun t ht => (hsame t).trans (hall t ht)⟩
    rw [hjournal, List.nil_append] at htold
    refine ⟨hsuccess, ?_⟩
    have hsaid := htruthful.final.mpr hsuccess
    rw [← htold] at hsaid
    exact hsaid

/-- A cache behind a directory that is missing.  A part that is not to be seen in the cache,
and that the catalog does not know, comes to light when another one is stored; and both
commands are complete. -/
theorem complete_behind_missing :
    let env : Environment :=
      [("PARTFETCH_API_URL", "http://depot"), ("PARTFETCH_CACHE_DIR", "/a/../c")]
    let known (r : PartDepot.Request) : Bool := r.url = "http://depot/v1/parts/C2"
    let network : Network := ⟨fun _ => true,
      fun _ r => if known r then .answer 200 "{}".toUTF8 else .answer 404 ByteArray.empty⟩
    let manifest := "name: b\nbuilds:\n  a:\n    parts: [C2, C1]\n"
    let text := "part_id: C1\nfetched_at: 2024-01-02T03:04:05Z\npayload: null\n"
    let d : Disk :=
      ⟨[(["p"], .dir), (["p", "partfetch.yaml"], .file manifest.toUTF8), (["c"], .dir),
      (["c", "C1.yaml"], .file text.toUTF8)], ["p"]⟩
    let w : World := ⟨d, false, fun _ => ⟨0, 0⟩, Listing.asStored, []⟩
    let id : PartId := ⟨"C1", by decide, by decide⟩
    let build := run env network ⟨.build none [], .info, false⟩ w
    let fetch := run env network ⟨.fetchParts none [] false, .info, false⟩ w
    network.Steady ∧ (∀ q, d.NoLink q) ∧ Cache.isFresh ⟨⟨"/a/../c"⟩, Freshness.never⟩ d id = false ∧
      (Catalog.ofUrl "http://depot" network).answer? 0 id = none ∧
      (build.1.isOk = true ∧ (.info, "Build complete") ∈ records .info build.2.journal) ∧
      fetch.1.isOk = true ∧ (.info, fetched) ∈ records .info fetch.2.journal := by
  intro env known network manifest text d w id build fetch
  refine ⟨fun _ _ _ => rfl, Disk.noLink_of_nodes (by simp [d]), ?_⟩
  decide +kernel

end Command

end PartDepot
