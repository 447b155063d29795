import PartDepot.Command.Run
import PartDepot.Proofs.ClosedGate
import PartDepot.Proofs.Targets

/-!
# Failures and the gate

Offline mode is why a target fails under a closed gate, always, and never why it fails under an open
one.  So the failures of a run tell how the gate was.
-/

namespace PartDepot

open Act

/-- The gate of the later world is as that of the earlier one. -/
def World.SameGate (w w' : World) : Prop := w'.offline = w.offline

instance : World.Frame World.SameGate where
  refl _ := rfl
  trans h h' := Eq.trans h' h
  noted _ _ _ := rfl
  ticked _ := rfl
  sent _ _ _ := rfl

theorem Packages.prepare_sameGate (p : Packages) :
    (Workflow.prepare p.installer).Keeps World.SameGate :=
  Workflow.prepare_keeps p.missing_keeps
    ((p.installMissing_keeps_of_disk fun _ _ => rfl).mapError _)

/-! ## Under an open gate -/

/-- Under an open gate, which stays open, the action yields something with a property, or it fails
for another reason than offline mode. -/
structure Act.Unblocked {α : Type} (P : α → Prop) (m : Act FetchError α) : Prop where
  gate : ∀ w, w.offline = false → (m w).2.offline = false
  ok : ∀ w, w.offline = false → ∀ a, (m w).1 = .ok a → P a
  error : ∀ w, w.offline = false → ∀ e, (m w).1 = .error e → e.isOfflineBlock = false

namespace Act.Unblocked

variable {α β : Type} {P : α → Prop} {Q : β → Prop}

/-- The action cannot fail. -/
theorem of_ok {m : Act FetchError α} (h : ∀ w, w.offline = false →
    (m w).2.offline = false ∧ ∃ a, (m w).1 = .ok a ∧ P a) : m.Unblocked P := by
  refine ⟨fun w hopen => (h w hopen).1, fun w hopen a ha => ?_, fun w hopen e he => ?_⟩
  · obtain ⟨-, b, hb, hP⟩ := h w hopen
    obtain rfl := Except.ok.inj (hb.symm.trans ha)
    exact hP
  · obtain ⟨-, b, hb, -⟩ := h w hopen
    simp [hb] at he

theorem of_pure {a : α} (h : P a) : (pure a : Act FetchError α).Unblocked P :=
  of_ok fun _ hopen => ⟨hopen, a, rfl, h⟩

theorem of_ofExcept {x : Except FetchError α} (h : ∀ e, x = .error e → e.isOfflineBlock = false) :
    (Act.ofExcept x).Unblocked fun _ => True :=
  ⟨fun _ hopen => hopen, fun _ _ _ _ => trivial, fun _ _ => h⟩

theorem of_fail {e : FetchError} (h : e.isOfflineBlock = false) :
    (Act.fail e : Act FetchError α).Unblocked P := by
  refine ⟨fun _ hopen => hopen, fun w _ a ha => ?_, fun w _ e' he' => ?_⟩
  · simp [Act.fail] at ha
  · obtain rfl := Except.error.inj he'
    exact h

theorem bind {m : Act FetchError α} {k : α → Act FetchError β} (hm : m.Unblocked P)
    (hk : ∀ a, P a → (k a).Unblocked Q) : (m >>= k).Unblocked Q := by
  have hrun (w : World) (hopen : w.offline = false) :
      (∃ e v, (m >>= k) w = (.error e, v) ∧ v.offline = false ∧ e.isOfflineBlock = false) ∨
        ∃ a v, (m >>= k) w = k a v ∧ v.offline = false ∧ P a := by
    have hgate := hm.gate w hopen
    rw [bind_apply]
    rcases hfirst : m w with ⟨e | a, v⟩
    · rw [hfirst] at hgate
      exact .inl ⟨e, v, rfl, hgate, hm.error w hopen e (by rw [hfirst])⟩
    · rw [hfirst] at hgate
      exact .inr ⟨a, v, rfl, hgate, hm.ok w hopen a (by rw [hfirst])⟩
  refine ⟨fun w hopen => ?_, fun w hopen b hb => ?_, fun w hopen e he => ?_⟩
  · rcases hrun w hopen with ⟨e, v, hv, hgate, -⟩ | ⟨a, v, hv, hgate, hP⟩
    · rw [hv]
      exact hgate
    · rw [hv]
      exact (hk a hP).gate v hgate
  · rcases hrun w hopen with ⟨e, v, hv, -, -⟩ | ⟨a, v, hv, hgate, hP⟩
    · simp [hv] at hb
    · rw [hv] at hb
      exact (hk a hP).ok v hgate b hb
  · rcases hrun w hopen with ⟨e', v, hv, -, hblock⟩ | ⟨a, v, hv, hgate, hP⟩
    · rw [hv] at he
      obtain rfl := Except.error.inj he
      exact hblock
    · rw [hv] at he
      exact (hk a hP).error v hgate e he

end Act.Unblocked

open Act.Unblocked

namespace Catalog

variable (c : Catalog)

theorem send_unblocked (url : String) (body : Option Json) :
    (c.send url body).Unblocked fun _ => True := by
  unfold send
  cases Url.parse url with
  | error flaw => exact of_fail rfl
  | ok address =>
      dsimp only
      split
      · have hexchange : (c.exchange (requestFor address body) : Act FetchError Reply).Unblocked
            fun _ => True := of_ok fun _ hopen => ⟨hopen, _, rfl, trivial⟩
        refine hexchange.bind fun reply _ => ?_
        cases reply with
        | broken => exact of_fail rfl
        | answer status bytes =>
            dsimp only
            split
            · exact of_pure trivial
            · exact of_fail rfl
      · exact of_fail rfl

theorem segmentUrl_unblocked (segments : List String) :
    (Act.ofExcept (c.segmentUrl segments)).Unblocked fun _ => True := by
  apply of_ofExcept
  intro e he
  unfold segmentUrl at he
  split at he
  · obtain rfl := Except.error.inj he
    rfl
  · split at he
    · obtain rfl := Except.error.inj he
      rfl
    · simp at he

theorem fetchPart_unblocked (id : PartId) : (c.fetchPart id).Unblocked fun _ => True := by
  have honline (operation : String) : (ensureOnline operation).Unblocked fun _ => True := by
    refine of_ok fun w hopen => ?_
    simp [ensureOnline, hopen]
  have hlog (message : String) :
      (Act.log .info message : Act FetchError Unit).Unblocked fun _ => True :=
    of_ok fun w hopen => ⟨hopen, (), rfl, trivial⟩
  have hjson (response : CatalogResponse) :
      (Act.ofExcept response.json).Unblocked fun _ => True := by
    apply of_ofExcept
    intro e he
    unfold CatalogResponse.json at he
    split at he
    · simp at he
    · obtain rfl := Except.error.inj he
      rfl
  have hsegments : (c.getSegments ["v1", "parts", id.text]).Unblocked fun _ => True := by
    refine (honline _).bind fun _ _ => (c.segmentUrl_unblocked _).bind fun url _ => ?_
    exact (c.send_unblocked url none).bind fun _ _ => of_pure trivial
  exact (hlog _).bind fun _ _ => hsegments.bind fun response _ => hjson response

end Catalog

section Open

variable (cache : Cache) (catalog : Catalog)

theorem Cache.store_unblocked (id : PartId) (a : CachedArtifact) :
    (cache.store id a).Unblocked fun _ => True := by
  refine ⟨fun w hopen => ?_, fun _ _ _ _ => trivial, fun w _ e he => ?_⟩
  · rw [cache.store_apply]
    exact hopen
  · obtain ⟨rfl, -⟩ := cache.store_failed (Prod.ext he rfl)
    rfl

/-- Under an open gate no part is blocked. -/
theorem Resolver.resolve_unblocked (id : PartId) :
    (Resolver.resolve ⟨cache, catalog.fetchPart⟩ id).Unblocked
      fun resolution => ∀ other, resolution ≠ .blocked other := by
  have hcheck : (cache.check id : Act FetchError Cache.Status).Unblocked fun _ => True := by
    refine of_ok fun w hopen => ?_
    obtain ⟨w', hrun, hstill, -⟩ := cache.check_apply (ε := FetchError) id w
    rw [hrun]
    exact ⟨hstill.offline.trans hopen, _, rfl, trivial⟩
  have hnow : (Act.now : Act FetchError Timestamp).Unblocked fun _ => True :=
    of_ok fun w hopen => ⟨hopen, _, rfl, trivial⟩
  have hlook : (Act.look (·.offline) : Act FetchError Bool).Unblocked (· = false) :=
    of_ok fun w hopen => ⟨hopen, _, rfl, hopen⟩
  have hfetch : (Resolver.fetch ⟨cache, catalog.fetchPart⟩ id).Unblocked
      fun resolution => ∀ other, resolution ≠ .blocked other := by
    unfold fetch
    refine (catalog.fetchPart_unblocked id).bind fun payload _ => hnow.bind fun time _ => ?_
    exact (cache.store_unblocked id _).bind fun _ _ => of_pure (by simp)
  have hdecide : (do
      if ← Act.look (·.offline) then return Resolution.blocked id
      else Resolver.fetch ⟨cache, catalog.fetchPart⟩ id : Act FetchError Resolution).Unblocked
        fun resolution => ∀ other, resolution ≠ .blocked other := by
    refine hlook.bind fun offline hopen => ?_
    rw [hopen, if_neg Bool.false_ne_true]
    exact hfetch
  unfold resolve
  refine hcheck.bind fun status _ => ?_
  cases status with
  | fresh a => exact of_pure (by simp)
  | absent | stale | unusable => exact hdecide

theorem Resolver.resolveAll_unblocked (ids : List PartId) :
    (Resolver.resolveAll ⟨cache, catalog.fetchPart⟩ ids).Unblocked fun found => found.2 = [] := by
  induction ids with
  | nil => exact of_pure rfl
  | cons id ids ih =>
      rw [resolveAll_cons]
      refine (Resolver.resolve_unblocked cache catalog id).bind fun first hfirst => ?_
      refine ih.bind fun others hothers => of_pure ?_
      cases first with
      | hit a | fetched a => exact hothers
      | blocked other => exact absurd rfl (hfirst other)

end Open

/-- The failure is not due to offline mode. -/
def Failure.Other (f : Failure) : Prop := f.fetchError?.any FetchError.isOfflineBlock = false

section Targets

variable (cache : Cache) (catalog : Catalog) {w last : World}

theorem Resolver.work_unblocked (t : BuildTarget) (hopen : w.offline = false) :
    (Resolver.work ⟨cache, catalog.fetchPart⟩ t w).2.offline = false ∧
      ∀ halt, (Resolver.work ⟨cache, catalog.fetchPart⟩ t w).1 = .error halt →
        halt.failure.Other := by
  have hall := Resolver.resolveAll_unblocked cache catalog t.parts
  have hgate := hall.gate w hopen
  unfold work build
  simp only [Act.mapError, bind_apply]
  rcases hrun : Resolver.resolveAll ⟨cache, catalog.fetchPart⟩ t.parts w with
    ⟨e | ⟨fetched, blocked⟩, v⟩
  · rw [hrun] at hgate
    refine ⟨hgate, fun halt hhalt => ?_⟩
    obtain rfl := Except.error.inj hhalt
    exact hall.error w hopen e (by rw [hrun])
  · rw [hrun] at hgate
    obtain rfl : blocked = [] := hall.ok w hopen (fetched, blocked) (by rw [hrun])
    exact ⟨hgate, by simp [Act.log, Act.change]⟩

variable {cache catalog}

theorem Visits.others_of_open {visits : List (Visit BuildTarget)}
    (hvisits : Visits (Resolver.work ⟨cache, catalog.fetchPart⟩) w visits last)
    (hopen : w.offline = false) :
    ∀ f ∈ visits.filterMap Visit.failure?, f.failure.Other := by
  induction hvisits with
  | done => simp
  | @next w last v rest hnotes hwork _ ih =>
      have hleft := Resolver.work_unblocked cache catalog v.target (hnotes.offline_eq.trans hopen)
      rw [hwork] at hleft
      obtain ⟨hgate, hother⟩ := hleft
      intro f hf
      obtain ⟨u, hu, hfailure⟩ := List.mem_filterMap.mp hf
      rcases List.mem_cons.mp hu with rfl | hu
      · unfold Visit.failure? at hfailure
        split at hfailure
        · simp at hfailure
        · next halt hresult =>
          obtain rfl := Option.some.inj hfailure
          exact hother halt hresult
      · exact ih hgate f (List.mem_filterMap.mpr ⟨u, hu, hfailure⟩)

/-- Offline mode is why some target failed just if the gate is closed and some target lists
a part that has to be refreshed. -/
theorem Command.isOfflineBlocked_iff {visits : List (Visit BuildTarget)} {attempted : Nat}
    (hvisits : Visits (Resolver.work ⟨cache, catalog.fetchPart⟩) w visits last) :
    isOfflineBlocked ⟨attempted, visits.filterMap Visit.failure?⟩ = true ↔
      w.offline = true ∧ ∃ v ∈ visits, ∃ id ∈ v.target.parts, cache.mustRefresh w id = true := by
  unfold isOfflineBlocked
  rw [List.any_eq_true]
  cases hgate : w.offline with
  | false =>
      have hothers := hvisits.others_of_open hgate
      constructor
      · rintro ⟨f, hf, hblocked⟩
        have hother : f.failure.fetchError?.any FetchError.isOfflineBlock = false := hothers f hf
        simp [hother] at hblocked
      · simp
  | true =>
      have hfailures := (Resolver.failures_of_closed _ hvisits hgate).1
      rw [hfailures]
      constructor
      · rintro ⟨f, hf, -⟩
        obtain ⟨t, ht, hrefusal⟩ := List.mem_filterMap.mp hf
        obtain ⟨v, hv, rfl⟩ := List.mem_map.mp ht
        unfold Resolver.refusal? at hrefusal
        split at hrefusal
        · next hlack => exact ⟨rfl, v, hv, List.any_eq_true.mp hlack⟩
        · simp at hrefusal
      · rintro ⟨-, v, hv, hlack⟩
        have hrefusal : Resolver.refusal? ⟨cache, catalog.fetchPart⟩ w v.target = some _ :=
          if_pos (List.any_eq_true.mpr hlack)
        exact ⟨_, List.mem_filterMap.mpr ⟨v.target, List.mem_map_of_mem hv, hrefusal⟩, rfl⟩

end Targets

end PartDepot
