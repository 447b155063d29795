import PartDepot.Command.Log
import PartDepot.Proofs.Lookups

/-!
# What a run says

Every message that the library logs begins with one of a few phrases, and the target that is worked
on stands in front of a message only until the work on it has ended.  So a message that begins with
none of the phrases was logged by the command itself, around the run.
-/

namespace PartDepot

/-- What the messages of the library begin with. -/
def Event.phrases : List String :=
  ["Processing build '", "Build '", "All ", "Fetching part ", "Fetching missing parts...",
    "Ignoring unusable cache entry for ", "Ignoring unreadable lock file: ", "Installing ",
    "Downloading ", "Installed "]

/-- A message of the library. -/
def Event.Phrased (message : String) : Prop := ∃ phrase ∈ phrases, phrase.toList <+: message.toList

/-- What is written within the work on a target, or around all of it. -/
inductive Event.Spoken : Event → Prop
  | logged {level : LogLevel} {message : String} : Phrased message → Spoken (.logged level message)
  | sent {r : Request} {offline : Bool} : Spoken (.sent r offline)
  | installing {offline : Bool} : Spoken (.installing offline)

namespace Event

theorem Phrased.append {message : String} (h : Phrased message) (more : String) :
    Phrased (message ++ more) := by
  obtain ⟨phrase, hphrase, hfront⟩ := h
  refine ⟨phrase, hphrase, ?_⟩
  rw [String.toList_append]
  exact hfront.trans (List.prefix_append _ _)

theorem phrased_of_mem {phrase : String} (h : phrase ∈ phrases) : Phrased phrase :=
  ⟨phrase, h, List.prefix_refl _⟩

end Event

namespace Command

open Event

/-- The target that stands in front of messages after these events. -/
def spanAfter : Option String → List Event → Option String
  | span, [] => span
  | span, e :: rest =>
    match e with
    | .began target _ => spanAfter (some target) rest
    | .ended _ => spanAfter none rest
    | _ => spanAfter span rest

theorem spanAfter_append (span : Option String) (events more : List Event) :
    spanAfter span (events ++ more) = spanAfter (spanAfter span events) more := by
  induction events generalizing span with
  | nil => rfl
  | cons e events ih => cases e <;> exact ih _

theorem spanAfter_spoken {span : Option String} {events : List Event} (h : ∀ e ∈ events, e.Spoken) :
    spanAfter span events = span := by
  induction events with
  | nil => rfl
  | cons e events ih =>
      have hrest := ih fun e' he' => h e' (List.mem_cons_of_mem _ he')
      cases h e List.mem_cons_self <;> exact hrest

theorem recordsFrom_append (v : Verbosity) (span : Option String) (events more : List Event) :
    recordsFrom v span (events ++ more) =
      recordsFrom v span events ++ recordsFrom v (spanAfter span events) more := by
  induction events generalizing span with
  | nil => rfl
  | cons e events ih =>
      cases e with
      | logged level message =>
          rw [List.cons_append, recordsFrom, recordsFrom, ih]
          split <;> rfl
      | sent | began | ended | installing => exact ih _

/-- A record is a message that was logged, or begins with the target that was worked on. -/
theorem exists_logged_of_mem_records {span : Option String} {events : List Event} {level : LogLevel}
    {text : String} (h : (level, text) ∈ recordsFrom .info span events) :
    .logged level text ∈ events ∨ "build\x7btarget=".toList <+: text.toList := by
  induction events generalizing span with
  | nil => simp [recordsFrom] at h
  | cons e events ih =>
      have hrest {other : Option String} (hmem : (level, text) ∈ recordsFrom .info other events) :
          .logged level text ∈ e :: events ∨ "build\x7btarget=".toList <+: text.toList :=
        (ih hmem).imp_left (List.mem_cons_of_mem _)
      cases e with
      | logged level' message =>
          have hshows : Verbosity.shows .info level' = true := by cases level' <;> rfl
          rw [recordsFrom, if_pos hshows] at h
          rcases List.mem_cons.mp h with hself | hmem
          · obtain ⟨rfl, rfl⟩ := Prod.mk.inj hself
            cases span with
            | none => exact .inl (by simp [spanText])
            | some target =>
                right
                simp only [spanText, Verbosity.shows, if_true, String.toList_append,
                  List.append_assoc]
                exact List.prefix_append _ _
          · exact hrest hmem
      | sent | began | ended | installing => exact hrest h

/-! ## Chapters -/

/-- A part of the journal in which the library speaks, and all work that begins has ended. -/
structure Chapter (told : List Event) : Prop where
  phrased : ∀ level message, .logged level message ∈ told → Phrased message
  closed : spanAfter none told = none

namespace Chapter

variable {told more : List Event}

theorem of_spoken (h : ∀ e ∈ told, e.Spoken) : Chapter told := by
  refine ⟨fun level message hmem => ?_, spanAfter_spoken h⟩
  cases h _ hmem with
  | logged hphrased => exact hphrased

theorem append (h : Chapter told) (h' : Chapter more) : Chapter (told ++ more) := by
  refine ⟨fun level message hmem => ?_, ?_⟩
  · rcases List.mem_append.mp hmem with hmem | hmem
    · exact h.phrased level message hmem
    · exact h'.phrased level message hmem
  · rw [spanAfter_append, h.closed, h'.closed]

/-- The work on a target from its beginning to its end. -/
theorem work {name : String} {offline : Bool} (h : ∀ e ∈ told, e.Spoken) :
    Chapter (.began name offline :: told ++ [.ended name]) := by
  refine ⟨fun level message hmem => ?_, ?_⟩
  · have hmem' : .logged level message ∈ told := by simpa using hmem
    exact (of_spoken h).phrased level message hmem'
  · rw [List.cons_append, spanAfter, spanAfter_append, spanAfter_spoken h]
    rfl

/-- What follows on a chapter is not about a target. -/
theorem records_append (h : Chapter told) (more : List Event) :
    records .info (told ++ more) = records .info told ++ records .info more := by
  unfold records
  rw [recordsFrom_append, h.closed]

/-- What begins with none of the phrases is not said in a chapter. -/
theorem not_mem_records (h : Chapter told) {level : LogLevel} {text : String}
    (hother : ∀ phrase ∈ "build\x7btarget=" :: phrases, ¬phrase.toList <+: text.toList) :
    (level, text) ∉ records .info told := by
  intro hmem
  rcases exists_logged_of_mem_records hmem with hlogged | htarget
  · obtain ⟨phrase, hphrase, hfront⟩ := h.phrased level text hlogged
    exact hother phrase (List.mem_cons_of_mem _ hphrase) hfront
  · exact hother _ List.mem_cons_self htarget

end Chapter

end Command

/-! ## Who speaks -/

open Event Act

theorem Catalog.Consults.spoken {c : Catalog} {id : PartId} {e : Event} (h : c.Consults id e) :
    e.Spoken := by
  cases h with
  | sent => exact .sent
  | fetching =>
      have hphrase : Phrased "Fetching part " := phrased_of_mem (by decide)
      exact .logged ((hphrase.append _).append _)
  | ignoring e =>
      have hphrase : Phrased "Ignoring unusable cache entry for " := phrased_of_mem (by decide)
      exact .logged (((hphrase.append _).append _).append _)

theorem Packages.Mentions.spoken {p : Packages} {dep : Dependency} {e : Event}
    (h : p.Mentions dep e) : e.Spoken := by
  cases h with
  | sent => exact .sent
  | downloading url =>
      have hphrase : Phrased "Downloading " := phrased_of_mem (by decide)
      exact .logged (((hphrase.append _).append _).append _)
  | installed path =>
      have hphrase : Phrased "Installed " := phrased_of_mem (by decide)
      exact .logged (((hphrase.append _).append _).append _)

/-! ## Parts -/

section Parts

variable (cache : Cache) (catalog : Catalog)

theorem Resolver.resolveAll_spoken (ids : List PartId) :
    (Resolver.resolveAll ⟨cache, catalog.fetchPart⟩ ids).Tells Spoken := by
  induction ids with
  | nil => exact tells_pure _
  | cons id ids ih =>
      have hfirst : (Resolver.resolve ⟨cache, catalog.fetchPart⟩ id).Tells Spoken :=
        (Resolver.resolve_tells cache catalog id).mono fun _ he => he.spoken
      rw [resolveAll_cons]
      exact hfirst.bind fun _ => ih.bind fun _ => tells_pure _

theorem Resolver.work_spoken (t : BuildTarget) :
    (Resolver.work ⟨cache, catalog.fetchPart⟩ t).Tells Spoken := by
  have hphrase : Phrased "All " := phrased_of_mem (by decide)
  unfold work build
  refine Tells.mapError (((Resolver.resolveAll_spoken cache catalog t.parts).mapError _).bind
    fun found => ?_) _
  dsimp only
  split
  · apply tells_log
    exact .logged ((((((hphrase.append _).append _).append _).append _).append _).append _)
  · exact tells_fail _

end Parts

/-! ## Targets -/

namespace Fanout

variable {ε τ : Type}

theorem runOne_chapter (name : String) {work : Act (Halt Failure) Unit} (hwork : work.Tells Spoken)
    (w : World) : ∃ told, (runOne name work w : Except ε (Option Failure) × World).2.journal =
      w.journal ++ told ∧ Command.Chapter told := by
  have hbegun : Phrased "Processing build '" := phrased_of_mem (by decide)
  have hfailed : Phrased "Build '" := phrased_of_mem (by decide)
  let begun : Event := .logged .info s!"Processing build '{name}'"
  have hspoken : begun.Spoken := .logged ((hbegun.append _).append _)
  obtain ⟨told, htold, hall⟩ := hwork (entered name w)
  have hchapter : Command.Chapter (.began name w.offline :: (begun :: told) ++ [.ended name]) := by
    apply Command.Chapter.work
    intro e he
    rcases List.mem_cons.mp he with rfl | he
    · exact hspoken
    · exact hall e he
  have hentered : (entered name w).journal = w.journal ++ [.began name w.offline, begun] := by
    simp [entered, World.record, begun]
  rw [runOne_apply]
  rcases hrun : work (entered name w) with ⟨result, done⟩
  have hdone : (done.record (.ended name)).journal =
      w.journal ++ (.began name w.offline :: (begun :: told) ++ [.ended name]) := by
    rw [hrun] at htold
    dsimp only at htold
    rw [World.record, htold, hentered]
    simp
  cases result with
  | ok _ => exact ⟨_, hdone, hchapter⟩
  | error halt =>
      let failed : Event := .logged .error s!"Build '{name}' failed: {halt.failure.line}"
      have hsaid : Command.Chapter [failed] := by
        apply Command.Chapter.of_spoken
        intro e he
        obtain rfl := List.mem_singleton.mp he
        exact .logged (((hfailed.append _).append _).append _)
      refine ⟨_, ?_, hchapter.append hsaid⟩
      rw [← List.append_assoc, ← hdone]
      rfl

theorem run_chapter (name : τ → String) {work : Work τ} (hwork : ∀ t, (work t).Tells Spoken)
    (targets : List τ) (w : World) :
    ∃ told, (run name work targets w : Except ε _ × World).2.journal = w.journal ++ told ∧
      Command.Chapter told := by
  induction targets generalizing w with
  | nil => exact ⟨[], (List.append_nil _).symm, .of_spoken (by simp)⟩
  | cons t targets ih =>
      obtain ⟨first, hfirst, hchapter⟩ := runOne_chapter (ε := ε) (name t) (hwork t) w
      unfold run
      rw [bind_apply]
      rcases hone : (runOne (name t) (work t) w : Except ε _ × World) with ⟨e | failure, v⟩
      · rw [hone] at hfirst
        exact ⟨first, hfirst, hchapter⟩
      · rw [hone] at hfirst
        obtain ⟨others, hothers, hchapters⟩ := ih v
        refine ⟨first ++ others, ?_, hchapter.append hchapters⟩
        dsimp only at hfirst ⊢
        rw [← List.append_assoc, ← hfirst, ← hothers, bind_pure_apply]

end Fanout

/-! ## Packages -/

theorem Packages.readLock_spoken {ε : Type} (p : Packages) :
    (p.readLock : Act ε Lock).Tells Spoken := by
  have hphrase : Phrased "Ignoring unreadable lock file: " := phrased_of_mem (by decide)
  have hfresh {ε : Type} : (Lock.fresh : Act ε Lock).Tells Spoken :=
    tells_now.bind fun _ => tells_pure _
  have hload : (Lock.load p.lockPath).Tells Spoken := by
    unfold Lock.load
    refine (tells_look _).bind fun standing => ?_
    split
    · exact hfresh
    · refine (tells_of_journal fun w => ?_).bind fun text => ?_
      · unfold Act.ask
        split <;> rfl
      · split
        · exact tells_pure _
        · exact tells_fail _
  unfold readLock
  refine hload.attempt.bind fun found => ?_
  cases found with
  | ok lock => exact tells_pure _
  | error e => exact (tells_log (.logged (hphrase.append _))).bind fun _ => hfresh

theorem Packages.installMissing_spoken (p : Packages) : p.installMissing.Tells Spoken := by
  have hmissing : (p.missing : Act Failure _).Tells Spoken :=
    p.readLock_spoken.bind fun _ => tells_look _
  unfold installMissing
  refine hmissing.bind fun missing => ?_
  split
  · exact tells_pure _
  · refine p.readLock_spoken.bind fun lock => (p.installAll_tells missing lock).mono ?_
    rintro e ⟨dep, -, he⟩
    exact he.spoken

theorem Packages.prepare_spoken (p : Packages) : (Workflow.prepare p.installer).Tells Spoken := by
  have hphrase : Phrased "Installing " := phrased_of_mem (by decide)
  have hmissing : p.installer.missing.Tells Spoken := p.readLock_spoken.bind fun _ => tells_look _
  unfold Workflow.prepare
  refine (hmissing.mapError _).bind fun missing => ?_
  split
  · exact tells_pure _
  · refine (tells_log (.logged ((hphrase.append _).append _))).bind fun _ => ?_
    intro w
    have hinstall :
        (Act.mapError (Halt.map FetchError.dependencyInstall) p.installer.install).Tells Spoken :=
      (p.installMissing_spoken.mapError _).mapError _
    obtain ⟨told, htold, hall⟩ := hinstall (w.record (.installing w.offline))
    refine ⟨.installing w.offline :: told, ?_, fun e he => ?_⟩
    · have hrun : w.journal ++ .installing w.offline :: told =
          (w.record (.installing w.offline)).journal ++ told := by simp [World.record]
      rw [hrun, ← htold]
      rfl
    · rcases List.mem_cons.mp he with rfl | he
      · exact .installing
      · exact hall e he

/-! ## Runs -/

namespace Workflow

variable {work : Work BuildTarget}

theorem buildTargets_chapter {ε : Type} (hwork : ∀ t, (work t).Tells Spoken)
    (targets : List BuildTarget) (w : World) :
    ∃ told, (buildTargets targets work w : Except ε Report × World).2.journal =
      w.journal ++ told ∧ Command.Chapter told := by
  rw [buildTargets_run]
  exact Fanout.run_chapter BuildTarget.name hwork targets w

theorem fetchMissingParts_chapter (p : Packages) (hwork : ∀ t, (work t).Tells Spoken)
    (targets : List BuildTarget) (w : World) :
    ∃ told, (fetchMissingParts p.installer targets work w).2.journal = w.journal ++ told ∧
      Command.Chapter told := by
  let start : World := { w with offline := false }
  have hjournal : (fetchMissingParts p.installer targets work w).2.journal =
      (fetchOpen p.installer targets work start).2.journal := by
    rw [fetchMissingParts_eq, withOffline]
  obtain ⟨first, hfirst, hspoken⟩ := p.prepare_spoken start
  rw [hjournal, fetchOpen, bind_apply]
  rcases hprepare : prepare p.installer start with ⟨e | done, ready⟩
  · rw [hprepare] at hfirst
    exact ⟨first, hfirst, .of_spoken hspoken⟩
  · let begun : Event := .logged .info "Fetching missing parts..."
    have hbegun : Command.Chapter [begun] := by
      apply Command.Chapter.of_spoken
      intro e he
      obtain rfl := List.mem_singleton.mp he
      exact .logged (phrased_of_mem (by decide))
    obtain ⟨others, hothers, hchapter⟩ :=
      buildTargets_chapter (ε := Halt FetchError) hwork targets (ready.record begun)
    have hready : (ready.record begun).journal = w.journal ++ (first ++ [begun]) := by
      rw [hprepare] at hfirst
      dsimp only at hfirst
      rw [World.record, hfirst, List.append_assoc]
    refine ⟨first ++ [begun] ++ others, ?_, ?_⟩
    · rw [← List.append_assoc, ← hready, ← hothers]
      rfl
    · exact ((Command.Chapter.of_spoken hspoken).append hbegun).append hchapter

end Workflow

end PartDepot
