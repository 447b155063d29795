import PartDepot.Proofs.Course

/-!
# Attempts at all targets

A run over targets attempts each of them once, in order, whatever becomes of the others, and what is
noted of the attempts is all that went wrong and nothing else.
-/

namespace PartDepot

/-- What is noted of one visit after the other: nothing of those that succeeded, the failure itself
of those that failed, and the text of the panic of those that panicked, where it has one. -/
inductive Noted {τ : Type} : List (Visit τ) → List (TargetFailure τ) → Prop
  | nothing : Noted [] []
  | succeeded {v : Visit τ} {visits : List (Visit τ)} {failures : List (TargetFailure τ)} :
      v.result = .ok () → Noted visits failures → Noted (v :: visits) failures
  | failed {v : Visit τ} {e : Failure} {visits : List (Visit τ)}
      {failures : List (TargetFailure τ)} :
      v.result = .error (.failed e) → Noted visits failures →
      Noted (v :: visits) (⟨v.target, e⟩ :: failures)
  | panicked {v : Visit τ} {said : String} {visits : List (Visit τ)}
      {failures : List (TargetFailure τ)} :
      v.result = .error (.panicked (.text said)) → Noted visits failures →
      Noted (v :: visits) (⟨v.target, .message ("build panicked: " ++ said)⟩ :: failures)
  | panickedSilently {v : Visit τ} {visits : List (Visit τ)} {failures : List (TargetFailure τ)} :
      v.result = .error (.panicked .other) → Noted visits failures →
      Noted (v :: visits) (⟨v.target, .message "build panicked: unknown panic"⟩ :: failures)

theorem noted_failures {τ : Type} (visits : List (Visit τ)) :
    Noted visits (visits.filterMap Visit.failure?) := by
  induction visits with
  | nil => exact .nothing
  | cons v visits ih =>
      rw [List.filterMap_cons]
      cases hresult : v.result with
      | ok done =>
          rw [show v.failure? = none by rw [Visit.failure?, hresult]]
          exact .succeeded hresult ih
      | error halt =>
          rw [show v.failure? = some ⟨v.target, halt.failure⟩ by rw [Visit.failure?, hresult]]
          cases halt with
          | failed e => exact .failed hresult ih
          | panicked panic =>
              cases panic with
              | text said => exact .panicked hresult ih
              | other => exact .panickedSilently hresult ih

namespace Fanout

variable {ε τ : Type}

/-- The lines of a report on failures: how many there are, then each with its target and all it went
through, the outermost first. -/
def reportLines (name : τ → String) (failures : List (TargetFailure τ)) : List String :=
  s!"{failures.length} build target(s) failed:" ::
    failures.map fun f => "  - " ++ name f.target ++ ": " ++ ": ".intercalate f.failure.chain

theorem intercalate_newline (first : String) (rest : List String) :
    "\n".intercalate (first :: rest) = first ++ String.join (rest.map ("\n" ++ ·)) := by
  induction rest generalizing first with
  | nil => simp [String.join]
  | cons next rest ih =>
      rw [String.intercalate_cons_cons, ih, List.map_cons, String.join_cons, String.append_assoc,
        String.append_assoc]

theorem combined_eq (name : τ → String) (failures : List (TargetFailure τ)) :
    combined name failures = "\n".intercalate (reportLines name failures) := by
  rw [reportLines, intercalate_newline, List.map_map]
  rfl

/-- A run over targets never fails itself. It attempts each position of the list once and in order,
and what it yields is noted of these attempts: so the result is a success if nothing is noted, and
else a failure whose text has a line for each note. -/
theorem run_attempts_all (name : τ → String) (work : Work τ) (targets : List τ) (w : World) :
    ∃ visits failures last, (run name work targets : Act ε _) w = (.ok failures, last) ∧
      Visits work w visits last ∧ visits.map (·.target) = targets ∧ Noted visits failures ∧
      (result name failures = .ok () ↔ failures = []) ∧
      (failures ≠ [] →
        result name failures =
          .error (.message ("\n".intercalate (reportLines name failures)))) := by
  obtain ⟨visits, last, hvisits, htargets, hrun⟩ := run_visits (ε := ε) name work targets w
  have hfailed (hne : visits.filterMap Visit.failure? ≠ []) :
      result name (visits.filterMap Visit.failure?) = .error (.message
        ("\n".intercalate (reportLines name (visits.filterMap Visit.failure?)))) := by
    rw [result, if_neg (by simpa using hne), combined_eq]
  refine ⟨visits, _, last, hrun, hvisits, htargets, noted_failures visits,
    ⟨fun hok => Classical.byContradiction fun hne => ?_, fun hnone => ?_⟩, hfailed⟩
  · rw [hfailed hne] at hok
    cases hok
  · rw [hnone]
    rfl

end Fanout

end PartDepot
