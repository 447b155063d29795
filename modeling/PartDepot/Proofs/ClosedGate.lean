import PartDepot.Proofs.Deciding
import PartDepot.Proofs.Resolving

/-!
# Builds under a closed gate

A build under a closed gate only looks: it finds out for every target which of its parts
would have to be fetched, reports all of them, and leaves everything as it is.  The source
is never asked, so it may be anything.
-/

namespace PartDepot

namespace World.Notes

variable {w w' : World}

theorem disk_eq (h : w.Notes w') : w'.disk = w.disk := by
  obtain ⟨notes, -, rfl⟩ := h
  rfl

theorem requests_eq (h : w.Notes w') : w'.requests = w.requests := by
  obtain ⟨notes, hnotes, rfl⟩ := h
  have hnone : ({ w with journal := notes } : World).requests = [] := by
    unfold World.requests
    rw [List.filterMap_eq_nil_iff]
    intro e he
    cases e with
    | sent r offline => exact absurd he (hnotes r offline)
    | _ => rfl
  calc
    ({ w with journal := w.journal ++ notes } : World).requests
      = w.requests ++ ({ w with journal := notes } : World).requests := List.filterMap_append
    _ = w.requests := by rw [hnone, List.append_nil]

end World.Notes

namespace Cache

/-- What a cache answers when it is asked whether a part has to be refreshed. -/
def mustRefresh (c : Cache) (w : World) (id : PartId) : Bool :=
  match (c.needsRefresh id w : Except Empty Bool × World).1 with
  | .ok answer => answer
  | .error e => e.elim

theorem mustRefresh_eq (c : Cache) (w : World) (id : PartId) :
    c.mustRefresh w id = !c.isFresh w.disk id := by
  unfold mustRefresh
  rw [c.needsRefresh_eq]

theorem mustRefresh_of_notes (c : Cache) {w w' : World} (h : w.Notes w') :
    c.mustRefresh w' = c.mustRefresh w := by
  funext id
  rw [mustRefresh_eq, mustRefresh_eq, h.disk_eq]

end Cache

namespace Resolver

variable (r : Resolver) {w : World}

/-! ## One part after the other -/

theorem resolve_closed (id : PartId) (hclosed : w.offline = true) :
    ∃ resolution told, r.resolve id w = (.ok resolution, told) ∧ w.Notes told ∧
      ∀ others, resolution.tally (0, others) =
        (0, if r.cache.mustRefresh w id then id.text :: others else others) := by
  rw [r.cache.mustRefresh_eq]
  cases hfresh : r.cache.isFresh w.disk id with
  | true =>
      obtain ⟨a, hload, haccept⟩ := Cache.isFresh_iff.mp hfresh
      exact ⟨.hit a, w, r.resolve_of_accepted id hload haccept, .refl w, fun others => rfl⟩
  | false =>
      have hrefuse : ∀ a, r.cache.load w.disk id = .ok a → r.cache.shallRefresh a = true := by
        intro a hload
        cases haccept : r.cache.shallRefresh a with
        | true => rfl
        | false => simp [Cache.isFresh_iff.mpr ⟨a, hload, haccept⟩] at hfresh
      obtain ⟨told, hnotes, hresolve⟩ := r.resolve_of_refused id hrefuse
      rw [if_pos hclosed] at hresolve
      exact ⟨.blocked id, told, hresolve, hnotes, fun others => rfl⟩

/-- The loop over the parts of a target never ends early: no part fails, and the blocked ones are
those to be refreshed, in order and as often as they are listed. -/
theorem resolveAll_closed (ids : List PartId) (hclosed : w.offline = true) :
    ∃ told, r.resolveAll ids w =
        (.ok (0, (ids.filter (r.cache.mustRefresh w)).map (·.text)), told) ∧ w.Notes told := by
  induction ids generalizing w with
  | nil => exact ⟨w, rfl, .refl w⟩
  | cons id ids ih =>
      obtain ⟨first, told, hfirst, hnotes, htally⟩ := r.resolve_closed id hclosed
      obtain ⟨last, hrest, hlast⟩ := ih (hnotes.offline_eq.trans hclosed)
      refine ⟨last, ?_, hnotes.trans hlast⟩
      rw [r.cache.mustRefresh_of_notes hnotes] at hrest
      rw [resolveAll_cons, Act.bind_of_ok hfirst, Act.bind_pure_apply, hrest]
      dsimp only [Except.map]
      rw [htally, List.filter_cons]
      split <;> rfl

/-! ## One target after the other -/

/-- What is to be said about a target that cannot be built without fetching. -/
def refusal? (r : Resolver) (w : World) (t : BuildTarget) : Option (TargetFailure BuildTarget) :=
  if t.parts.any (r.cache.mustRefresh w) then
    some ⟨t, .fetch (.missingArtifacts ((t.parts.filter (r.cache.mustRefresh w)).map (·.text)))⟩
  else none

theorem map_target_refusal? (r : Resolver) (w : World) (t : BuildTarget) :
    (r.refusal? w t).map (·.target) =
      Option.guard (fun t => t.parts.any (r.cache.mustRefresh w)) t := by
  unfold refusal? Option.guard
  split <;> rfl

theorem work_closed (t : BuildTarget) (hclosed : w.offline = true) :
    ∃ told, w.Notes told ∧ r.work t w = (match r.refusal? w t with
      | none => .ok ()
      | some f => .error (.failed f.failure), told) := by
  obtain ⟨told, hall, hnotes⟩ := r.resolveAll_closed t.parts hclosed
  unfold work build refusal?
  simp only [Act.mapError, Act.bind_apply, hall]
  cases hlack : t.parts.any (r.cache.mustRefresh w) with
  | true =>
      have hsome : ((t.parts.filter (r.cache.mustRefresh w)).map (·.text)).isEmpty = false := by
        simpa using hlack
      refine ⟨told, hnotes, ?_⟩
      simp [hsome, Act.fail]
  | false =>
      have hnone : t.parts.filter (r.cache.mustRefresh w) = [] := by simpa using hlack
      have hsaid := World.Notes.record told (e := .logged .info
        s!"All {t.parts.length} part(s) for '{t.name}' are cached ({0} newly fetched)") (by simp)
      refine ⟨_, hnotes.trans hsaid, ?_⟩
      simp [hnone, Act.log, Act.change]

theorem refusal?_of_notes {w' : World} (h : w.Notes w') : r.refusal? w' = r.refusal? w := by
  funext t
  unfold refusal?
  rw [r.cache.mustRefresh_of_notes h]

theorem failure?_of_closed {v : Visit BuildTarget} (hclosed : v.seen.offline = true)
    (hwork : r.work v.target v.seen = (v.result, v.left)) :
    v.failure? = r.refusal? v.seen v.target ∧ v.seen.Notes v.left := by
  obtain ⟨told, hnotes, hclosedwork⟩ := r.work_closed v.target hclosed
  obtain ⟨hresult, rfl⟩ := Prod.mk.inj (hwork.symm.trans hclosedwork)
  refine ⟨?_, hnotes⟩
  unfold Visit.failure?
  rw [hresult]
  unfold refusal?
  cases v.target.parts.any (r.cache.mustRefresh v.seen) <;> rfl

theorem failures_of_closed {last : World} {visits : List (Visit BuildTarget)}
    (h : Visits r.work w visits last) (hclosed : w.offline = true) :
    visits.filterMap Visit.failure? = (visits.map (·.target)).filterMap (r.refusal? w) ∧
      w.Notes last := by
  induction h with
  | done hnotes => exact ⟨rfl, hnotes⟩
  | @next w last v rest hseen hwork _ ih =>
      obtain ⟨hone, hleft⟩ := r.failure?_of_closed (hseen.offline_eq.trans hclosed) hwork
      have hfrom := hseen.trans hleft
      obtain ⟨hrest, hlast⟩ := ih (hfrom.offline_eq.trans hclosed)
      rw [r.refusal?_of_notes hseen] at hone
      rw [r.refusal?_of_notes hfrom] at hrest
      refine ⟨?_, hfrom.trans hlast⟩
      rw [List.map_cons, List.filterMap_cons, List.filterMap_cons, hone, hrest]

end Resolver

/-- A build under a closed gate reports the targets with a part that has to be refreshed, in order,
and for each of them these parts, as the target lists them. No target fails in another way; and
nothing is sent, no file is touched and the gate stays closed. -/
theorem Workflow.buildTargets_closed {ε : Type} (r : Resolver) (targets : List BuildTarget)
    {w : World} (hclosed : w.offline = true) :
    ∃ failures last,
      (Workflow.buildTargets targets r.work : Act ε Report) w =
          (.ok ⟨targets.length, failures⟩, last) ∧
        failures.map (·.target) = targets.filter (fun t => t.parts.any (r.cache.mustRefresh w)) ∧
        (∀ f ∈ failures, f.failure = .fetch (.missingArtifacts
          ((f.target.parts.filter (r.cache.mustRefresh w)).map (·.text)))) ∧
        last.disk = w.disk ∧ last.requests = w.requests ∧ last.offline = true := by
  obtain ⟨visits, last, hvisits, htargets, hrun⟩ :=
    Workflow.buildTargets_visits (ε := ε) targets r.work w
  obtain ⟨hfailures, hnotes⟩ := r.failures_of_closed hvisits hclosed
  rw [htargets] at hfailures
  refine ⟨_, last, hrun, ?_, ?_, hnotes.disk_eq, hnotes.requests_eq,
    hnotes.offline_eq.trans hclosed⟩
  · rw [hfailures, List.map_filterMap, ← List.filterMap_eq_filter]
    exact congrArg (List.filterMap · targets) (funext (r.map_target_refusal? w))
  · intro f hf
    rw [hfailures, List.mem_filterMap] at hf
    obtain ⟨t, -, ht⟩ := hf
    unfold Resolver.refusal? at ht
    split at ht
    · obtain rfl := Option.some.inj ht
      rfl
    · simp at ht

/-- A broken entry and a missing one are reported together, and a source that would spoil all is not
asked. -/
theorem Workflow.buildTargets_closed_with_broken_entry :
    let text := "part_id: C1\nfetched_at: 2024-01-02T03:04:05Z\npayload: null\n"
    let d : Disk := ⟨[(["c"], .dir), (["c", "C1.yaml"], .file text.toUTF8),
      (["c", "C2.yaml"], .file "part_id: [".toUTF8)], []⟩
    let w : World := ⟨d, true, fun _ => ⟨0, 0⟩, Listing.asStored, []⟩
    let r : Resolver :=
      ⟨⟨⟨"/c"⟩, Freshness.never⟩, fun _ w => (.ok .null, { w with disk := ⟨[], []⟩ })⟩
    let sound : PartId := ⟨"C1", by decide, by decide⟩
    let broken : PartId := ⟨"C2", by decide, by decide⟩
    let absent : PartId := ⟨"C3", by decide, by decide⟩
    let a : BuildTarget := ⟨"a", none, [sound, absent, broken, absent]⟩
    let b : BuildTarget := ⟨"b", none, [sound]⟩
    ∃ last, (Workflow.buildTargets [a, b] r.work : Act Failure Report) w =
        (.ok ⟨2, [⟨a, .fetch (.missingArtifacts ["C3", "C2", "C3"])⟩]⟩, last) ∧
      last.disk = d := by
  intro text d w r sound broken absent a b
  obtain ⟨failures, last, hrun, htargets, hfailure, hdisk, -, -⟩ :=
    Workflow.buildTargets_closed (ε := Failure) r [a, b] (w := w) rfl
  have hone : failures.map (·.target) = [a] := by
    rw [htargets]
    decide +kernel
  have hlist : (a.parts.filter (r.cache.mustRefresh w)).map (·.text) = ["C3", "C2", "C3"] := by
    decide +kernel
  obtain ⟨⟨target, failure⟩, rfl, rfl⟩ : ∃ f, failures = [f] ∧ f.target = a := by
    simpa [List.map_eq_singleton_iff] using hone
  have hwhy : failure = .fetch (.missingArtifacts ["C3", "C2", "C3"]) := by
    rw [← hlist]
    exact hfailure _ List.mem_cons_self
  rw [hwhy] at hrun
  exact ⟨last, hrun, hdisk⟩

end PartDepot
