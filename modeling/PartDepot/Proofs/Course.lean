import PartDepot.Workflow

/-!
# The course of a run

A run over targets is told as a list of visits, one for each piece of work that was carried
out, with the world it found and the world it left.  What happens between two visits are
notes in the journal and nothing else.  The work and the installer are arbitrary: they may
fail, panic and set the gate.
-/

namespace PartDepot

/-- The later world differs from the earlier one by notes in the journal, none of them a request. -/
def World.Notes (w w' : World) : Prop :=
  ∃ notes, (∀ request offline, Event.sent request offline ∉ notes) ∧
    w' = { w with journal := w.journal ++ notes }

namespace World

theorem Notes.refl (w : World) : w.Notes w := ⟨[], by simp, by simp⟩

theorem Notes.trans {u v w : World} (h : u.Notes v) (h' : v.Notes w) : u.Notes w := by
  obtain ⟨early, hearly, rfl⟩ := h
  obtain ⟨late, hlate, rfl⟩ := h'
  refine ⟨early ++ late, fun request offline hsent => ?_, by simp⟩
  rcases List.mem_append.mp hsent with hsent | hsent
  · exact hearly request offline hsent
  · exact hlate request offline hsent

theorem Notes.record (w : World) {e : Event} (he : ∀ request offline, e ≠ .sent request offline) :
    w.Notes (w.record e) :=
  ⟨[e], fun request offline hsent => he request offline (List.mem_singleton.mp hsent).symm, rfl⟩

theorem Notes.offline_eq {w w' : World} (h : w.Notes w') : w'.offline = w.offline := by
  obtain ⟨notes, -, rfl⟩ := h
  rfl

end World

/-! ## Visits -/

/-- A piece of work that was carried out. -/
structure Visit (τ : Type) where
  target : τ
  seen : World
  result : Except (Halt Failure) Unit
  left : World

namespace Visit

variable {τ : Type}

def failure? (v : Visit τ) : Option (TargetFailure τ) :=
  match v.result with
  | .ok () => none
  | .error halt => some ⟨v.target, halt.failure⟩

end Visit

/-- One visit after the other, from a world to a world; every visit finds what the one
before it left, but for notes. -/
inductive Visits {τ : Type} (work : Work τ) : World → List (Visit τ) → World → Prop
  | done {w w' : World} : w.Notes w' → Visits work w [] w'
  | next {w w' : World} {v : Visit τ} {rest : List (Visit τ)} : w.Notes v.seen →
      work v.target v.seen = (v.result, v.left) → Visits work v.left rest w' →
      Visits work w (v :: rest) w'

namespace Visits

variable {τ : Type} {work : Work τ}

theorem after_notes {w w' last : World} {visits : List (Visit τ)} (h : w.Notes w')
    (hvisits : Visits work w' visits last) : Visits work w visits last := by
  cases hvisits with
  | done h' => exact .done (h.trans h')
  | next h' hwork hrest => exact .next (h.trans h') hwork hrest

theorem gates {w last : World} {visits : List (Visit τ)} (h : Visits work w visits last) :
    visits.map (·.seen.offline) =
      (w.offline :: visits.map (·.left.offline)).take visits.length := by
  induction h with
  | done => rfl
  | next hnotes _ _ ih => simp [hnotes.offline_eq, ih]

end Visits

namespace Fanout

variable {ε τ : Type}

theorem runOne_visit (name : String) (work : Work τ) (t : τ) (w : World) :
    ∃ (v : Visit τ) (w' : World), v.target = t ∧ w.Notes v.seen ∧
      work v.target v.seen = (v.result, v.left) ∧ v.left.Notes w' ∧
      (runOne name (work t) : Act ε _) w = (.ok (v.failure?.map (·.failure)), w') := by
  let seen :=
    (w.record (.began name w.offline)).record (.logged .info s!"Processing build '{name}'")
  have hseen : w.Notes seen :=
    (World.Notes.record w (by simp)).trans (World.Notes.record _ (by simp))
  rcases hwork : work t seen with ⟨result, left⟩
  have hended : left.Notes (left.record (.ended name)) := World.Notes.record left (by simp)
  cases result with
  | ok done =>
      refine ⟨⟨t, seen, .ok done, left⟩, left.record (.ended name), rfl, hseen, hwork, hended, ?_⟩
      simp [runOne, Act.bind_apply, Act.pure_apply, Act.change, Act.log, Act.attempt, seen, hwork,
        Visit.failure?]
  | error halt =>
      let told := s!"Build '{name}' failed: {halt.failure.line}"
      refine ⟨⟨t, seen, .error halt, left⟩,
        (left.record (.ended name)).record (.logged .error told), rfl, hseen, hwork,
        hended.trans (World.Notes.record _ (by simp)), ?_⟩
      simp [runOne, Act.bind_apply, Act.map_apply, Act.change, Act.log, Act.attempt, seen, hwork,
        Visit.failure?, told]

/-- Every target is visited, in order, and the failures among the visits are reported. -/
theorem run_visits (name : τ → String) (work : Work τ) (targets : List τ) (w : World) :
    ∃ visits last, Visits work w visits last ∧ visits.map (·.target) = targets ∧
      (run name work targets : Act ε _) w = (.ok (visits.filterMap Visit.failure?), last) := by
  induction targets generalizing w with
  | nil => exact ⟨[], w, .done (.refl w), rfl, rfl⟩
  | cons t targets ih =>
      obtain ⟨v, w', htarget, hseen, hwork, hleft, hone⟩ :=
        runOne_visit (ε := ε) (name t) work t w
      obtain ⟨visits, last, hvisits, htargets, hrun⟩ := ih w'
      refine ⟨v :: visits, last, .next hseen hwork (hvisits.after_notes hleft), ?_, ?_⟩
      · simp [htarget, htargets]
      · have htold : (v.failure?.map (·.failure)).map (TargetFailure.mk t) = v.failure? := by
          rw [← htarget]
          unfold Visit.failure?
          cases v.result <;> rfl
        unfold run
        rw [Act.bind_apply, hone]
        simp only [Act.bind_apply, hrun, Act.pure_apply, htold, List.filterMap_cons]
        cases v.failure? <;> rfl

end Fanout

/-! ## Fetching for targets -/

/-- What can happen between the opening of the gate and its restoration: the visit to the installer
if there was one, the visits to the targets, the result, and the world at the end. -/
inductive Course (installer : Installer) (targets : List BuildTarget) (work : Work BuildTarget)
    (start : World) : List (Visit Unit) → List (Visit BuildTarget) →
      Except (Halt FetchError) Report → World → Prop
  /-- Finding out what is missing panicked. -/
  | unlisted {panic : Panic} {last : World} : installer.missing start = (.error panic, last) →
      Course installer targets work start [] [] (.error (.panicked panic)) last
  /-- Nothing was missing. -/
  | complete {listed last : World} {attempts : List (Visit BuildTarget)} :
      installer.missing start = (.ok [], listed) → Visits work listed attempts last →
      attempts.map (·.target) = targets →
      Course installer targets work start [] attempts
        (.ok ⟨targets.length, attempts.filterMap Visit.failure?⟩) last
  /-- Something was missing and was not installed. -/
  | stopped {missing : List Dependency} {listed : World} {install : Visit Unit}
      {halt : Halt Failure} :
      installer.missing start = (.ok missing, listed) → missing ≠ [] →
      listed.Notes install.seen → installer.install install.seen = (install.result, install.left) →
      install.result = .error halt →
      Course installer targets work start [install] []
        (.error (halt.map .dependencyInstall)) install.left
  /-- Something was missing and was installed. -/
  | installed {missing : List Dependency} {listed last : World} {install : Visit Unit}
      {attempts : List (Visit BuildTarget)} :
      installer.missing start = (.ok missing, listed) → missing ≠ [] →
      listed.Notes install.seen → installer.install install.seen = (install.result, install.left) →
      install.result = .ok () → Visits work install.left attempts last →
      attempts.map (·.target) = targets →
      Course installer targets work start [install] attempts
        (.ok ⟨targets.length, attempts.filterMap Visit.failure?⟩) last

namespace Course

variable {installer : Installer} {targets : List BuildTarget} {work : Work BuildTarget}
  {start last : World} {installs : List (Visit Unit)} {attempts : List (Visit BuildTarget)}
  {result : Except (Halt FetchError) Report}

/-- The world after the visit to the installer, or after finding out what is missing. -/
def readied (installer : Installer) (start : World) (installs : List (Visit Unit)) : World :=
  (installs.map (·.left)).headD (installer.missing start).2

/-- The installer sees the gate as it was when it was known what is missing. -/
theorem install_gate (h : Course installer targets work start installs attempts result last) :
    ∀ install ∈ installs, install.seen.offline = (installer.missing start).2.offline := by
  cases h with
  | unlisted | complete => simp
  | stopped hmissing _ hnotes | installed hmissing _ hnotes =>
      simpa [hmissing] using hnotes.offline_eq

theorem attempts_gates (h : Course installer targets work start installs attempts result last) :
    attempts.map (·.seen.offline) =
      ((readied installer start installs).offline :: attempts.map (·.left.offline)).take
        attempts.length := by
  cases h with
  | unlisted | stopped => rfl
  | complete hmissing hvisits => simpa [readied, hmissing] using hvisits.gates
  | installed _ _ _ _ _ hvisits => simpa [readied] using hvisits.gates

end Course

namespace Workflow

def fetchOpen (installer : Installer) (targets : List BuildTarget) (work : Work BuildTarget) :
    Act (Halt FetchError) Report := do
  prepare installer
  Act.log .info "Fetching missing parts..."
  buildTargets targets work

theorem buildTargets_visits {ε : Type} (targets : List BuildTarget) (work : Work BuildTarget)
    (w : World) : ∃ attempts last, Visits work w attempts last ∧
      attempts.map (·.target) = targets ∧
      (buildTargets targets work : Act ε _) w =
        (.ok ⟨targets.length, attempts.filterMap Visit.failure?⟩, last) := by
  obtain ⟨attempts, last, hvisits, htargets, hrun⟩ :=
    Fanout.run_visits (ε := ε) BuildTarget.name work targets w
  refine ⟨attempts, last, hvisits, htargets, ?_⟩
  simp [buildTargets, Act.map_apply, hrun]

theorem prepare_of_panic {installer : Installer} {w listed : World} {panic : Panic}
    (h : installer.missing w = (.error panic, listed)) :
    prepare installer w = (.error (.panicked panic), listed) := by
  simp [prepare, Act.bind_apply, Act.mapError, h]

theorem prepare_of_complete {installer : Installer} {w listed : World}
    (h : installer.missing w = (.ok [], listed)) : prepare installer w = (.ok (), listed) := by
  simp [prepare, Act.bind_apply, Act.pure_apply, Act.mapError, h]

/-- When something is missing, the installer is called, once and with nothing but notes before. -/
theorem prepare_of_missing {installer : Installer} {w listed : World} {missing : List Dependency}
    (h : installer.missing w = (.ok missing, listed)) (hmissing : missing ≠ []) :
    ∃ seen, listed.Notes seen ∧
      prepare installer w =
        Act.mapError (Halt.map .dependencyInstall) installer.install seen := by
  let said := listed.record (.logged .info s!"Installing {missing.length} missing dependencies")
  refine ⟨said.record (.installing said.offline), ?_, ?_⟩
  · exact (World.Notes.record listed (by simp)).trans (World.Notes.record said (by simp))
  · simp [prepare, Act.bind_apply, Act.mapError, Act.log, Act.change, h, hmissing, said]

theorem visits_of_prepare {installer : Installer} {w ready : World} (targets : List BuildTarget)
    (work : Work BuildTarget) (h : prepare installer w = (.ok (), ready)) :
    ∃ attempts last, Visits work ready attempts last ∧ attempts.map (·.target) = targets ∧
      fetchOpen installer targets work w =
        (.ok ⟨targets.length, attempts.filterMap Visit.failure?⟩, last) := by
  let said := ready.record (.logged .info "Fetching missing parts...")
  obtain ⟨attempts, last, hvisits, htargets, hbuild⟩ :=
    buildTargets_visits (ε := Halt FetchError) targets work said
  have hsaid : ready.Notes said := World.Notes.record ready (by simp)
  refine ⟨attempts, last, hvisits.after_notes hsaid, htargets, ?_⟩
  simp [fetchOpen, Act.bind_apply, Act.log, Act.change, h, hbuild, said]

theorem fetchMissingParts_eq (installer : Installer) (targets : List BuildTarget)
    (work : Work BuildTarget) :
    fetchMissingParts installer targets work =
      Act.withOffline false (fetchOpen installer targets work) := rfl

theorem fetchMissingParts_of_stop {installer : Installer} {w ready : World} {halt : Halt FetchError}
    (targets : List BuildTarget) (work : Work BuildTarget)
    (h : prepare installer { w with offline := false } = (.error halt, ready)) :
    fetchMissingParts installer targets work w =
      (.error halt, { ready with offline := w.offline }) := by
  rw [fetchMissingParts_eq, Act.withOffline, fetchOpen, Act.bind_apply, h]

theorem fetchMissingParts_of_ready {installer : Installer} {w ready : World}
    (targets : List BuildTarget) (work : Work BuildTarget)
    (h : prepare installer { w with offline := false } = (.ok (), ready)) :
    ∃ attempts last, Visits work ready attempts last ∧ attempts.map (·.target) = targets ∧
      fetchMissingParts installer targets work w =
        (.ok ⟨targets.length, attempts.filterMap Visit.failure?⟩,
          { last with offline := w.offline }) := by
  obtain ⟨attempts, last, hvisits, htargets, hrun⟩ := visits_of_prepare targets work h
  refine ⟨attempts, last, hvisits, htargets, ?_⟩
  rw [fetchMissingParts_eq, Act.withOffline, hrun]

theorem fetchOpen_course (installer : Installer) (targets : List BuildTarget)
    (work : Work BuildTarget) (start : World) :
    ∃ installs attempts, Course installer targets work start installs attempts
      (fetchOpen installer targets work start).1 (fetchOpen installer targets work start).2 := by
  rcases hmissing : installer.missing start with ⟨panic | missing, listed⟩
  · have hrun : fetchOpen installer targets work start = (.error (.panicked panic), listed) := by
      simp [fetchOpen, Act.bind_apply, prepare_of_panic hmissing]
    rw [hrun]
    exact ⟨[], [], .unlisted hmissing⟩
  by_cases hnone : missing = []
  · subst hnone
    obtain ⟨attempts, last, hvisits, htargets, hrun⟩ :=
      visits_of_prepare targets work (prepare_of_complete hmissing)
    rw [hrun]
    exact ⟨[], attempts, .complete hmissing hvisits htargets⟩
  obtain ⟨seen, hnotes, hprepare⟩ := prepare_of_missing hmissing hnone
  rcases hinstall : installer.install seen with ⟨halt | done, left⟩
  · have hrun : fetchOpen installer targets work start =
        (.error (halt.map .dependencyInstall), left) := by
      simp [fetchOpen, Act.bind_apply, hprepare, Act.mapError, hinstall]
    rw [hrun]
    exact ⟨[⟨(), seen, .error halt, left⟩], [], .stopped hmissing hnone hnotes hinstall rfl⟩
  · have hready : prepare installer start = (.ok (), left) := by
      rw [hprepare]
      simp [Act.mapError, hinstall]
    obtain ⟨attempts, last, hvisits, htargets, hrun⟩ := visits_of_prepare targets work hready
    rw [hrun]
    exact ⟨[⟨(), seen, .ok (), left⟩], attempts,
      .installed hmissing hnone hnotes hinstall rfl hvisits htargets⟩

/-- Fetching follows one of the courses, with the gate open at the start, and brings back the gate
of before on each of them. The installer sees the gate as finding out what is missing left it, the
first target as it was left after that, and every other target as the one before it left it. -/
theorem fetchMissingParts_course (installer : Installer) (targets : List BuildTarget)
    (work : Work BuildTarget) (w : World) :
    let start : World := { w with offline := false }
    let listed := (installer.missing start).2
    let out := fetchMissingParts installer targets work w
    out.2.offline = w.offline ∧
      ∃ installs attempts last,
        Course installer targets work start installs attempts out.1 last ∧
          out.2 = { last with offline := w.offline } ∧
          (∀ install ∈ installs, install.seen.offline = listed.offline) ∧
          (listed.offline = start.offline → ∀ install ∈ installs, install.seen.offline = false) ∧
          attempts.map (·.seen.offline) =
            ((Course.readied installer start installs).offline ::
              attempts.map (·.left.offline)).take attempts.length := by
  intro start listed out
  obtain ⟨installs, attempts, hcourse⟩ := fetchOpen_course installer targets work start
  have hinstall := hcourse.install_gate
  refine ⟨rfl, installs, attempts, _, hcourse, rfl, hinstall, fun hkept install h => ?_,
    hcourse.attempts_gates⟩
  exact (hinstall install h).trans hkept

end Workflow

end PartDepot
