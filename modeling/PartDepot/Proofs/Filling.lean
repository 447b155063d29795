import PartDepot.Proofs.Stores
import PartDepot.Proofs.Targets

/-!
# Filling the cache

While targets are built, entries that can be read stay so, and a part that was obtained has one.  So
after a run in which no target failed the entries of all parts of all targets can be read, those
that were stale or broken before and those that several targets share among them.
-/

namespace PartDepot

/-- What the catalog answers about a part, stored at some time, reads back. -/
def Catalog.ReadsBack (c : Catalog) (clock : Nat → Timestamp) (id : PartId) : Prop :=
  ∀ before n payload, c.answer? before id = some payload →
    (CachedArtifact.parse (CachedArtifact.mk id (clock n) payload).render).isSome

theorem Catalog.ReadsBack.later {c : Catalog} {clock clock' : Nat → Timestamp} {id : PartId}
    (h : c.ReadsBack clock id) (hclock : ∃ k, ∀ n, clock' n = clock (n + k)) :
    c.ReadsBack clock' id := by
  intro before n payload hanswer
  obtain ⟨k, hk⟩ := hclock
  rw [hk]
  exact h before (n + k) payload hanswer

/-- The cache was worked on, and no entry that could be read was lost. -/
structure World.Fills (c : Cache) (w w' : World) : Prop where
  grown : ∀ d₁, c.Grown d₁ w.disk → c.Grown d₁ w'.disk
  readable : c.Direct (w.disk.makeDirs c.dir).2 → ∀ id, c.Readable w.disk id →
    c.Readable w'.disk id
  clock : ∃ k, ∀ n, w'.clock n = w.clock (n + k)

namespace World.Fills

variable {c : Cache} {u v w : World}

theorem of_still (h : v.Still w) : v.Fills c w := by
  refine ⟨fun d₁ hv => ?_, fun _ id hid => ?_, h.clock⟩
  · rw [h.disk]
    exact hv
  · rw [h.disk]
    exact hid

theorem trans (h : u.Fills c v) (h' : v.Fills c w) : u.Fills c w := by
  refine ⟨fun d₁ hu => h'.grown d₁ (h.grown d₁ hu), fun hdirect id hid => ?_, ?_⟩
  · have hv := h.grown u.disk (Cache.Grown.refl hdirect)
    exact h'.readable hv.direct id (h.readable hdirect id hid)
  · obtain ⟨k, hk⟩ := h.clock
    obtain ⟨k', hk'⟩ := h'.clock
    refine ⟨k' + k, fun n => ?_⟩
    rw [hk', hk, Nat.add_assoc]

end World.Fills

section Parts

variable (cache : Cache) {catalog : Catalog} {w : World}

theorem Resolver.resolve_fills {id : PartId} (hread : catalog.ReadsBack w.clock id) :
    w.Fills cache (Resolver.resolve ⟨cache, catalog.fetchPart⟩ id w).2 ∧
      (cache.Direct (w.disk.makeDirs cache.dir).2 →
        Resolution.obtained (Resolver.resolve ⟨cache, catalog.fetchPart⟩ id w).1 = true →
          cache.Readable (Resolver.resolve ⟨cache, catalog.fetchPart⟩ id w).2.disk id) := by
  have hresolves := Resolver.resolve_resolves cache catalog id w
  generalize (Resolver.resolve ⟨cache, catalog.fetchPart⟩ id w).1 = r at hresolves ⊢
  generalize (Resolver.resolve ⟨cache, catalog.fetchPart⟩ id w).2 = v at hresolves ⊢
  cases hresolves with
  | hit hfresh hv =>
      refine ⟨.of_still hv, fun _ _ => ?_⟩
      rw [hv.disk]
      exact Cache.readable_of_isFresh hfresh
  | blocked _ _ hv => exact ⟨.of_still hv, fun _ hno => by simp [Resolution.obtained] at hno⟩
  | unanswered _ _ _ hv => exact ⟨.of_still hv, fun _ hno => by simp [Resolution.obtained] at hno⟩
  | @stored payload k w' _ _ hanswer hcan hv =>
      have hparse := hread _ k payload hanswer
      refine ⟨⟨fun d₁ hgrown => hgrown.stored id _, fun hdirect other hother => ?_, hv.clock⟩,
        fun hdirect _ => ?_⟩
      · exact (Cache.readable_stored hdirect hcan hparse).2 other hother
      · exact (Cache.readable_stored hdirect hcan hparse).1
  | unstored _ _ _ hcan hv =>
      refine ⟨⟨fun d₁ hgrown => hgrown.stored id _, fun _ other hother => ?_, hv.clock⟩,
        fun _ hno => ?_⟩
      · exact Cache.readable_unstored _ hcan hother
      · simp [Resolution.obtained] at hno

theorem Resolver.resolveAll_fills {ids : List PartId}
    (hread : ∀ id ∈ ids, catalog.ReadsBack w.clock id) :
    w.Fills cache (Resolver.resolveAll ⟨cache, catalog.fetchPart⟩ ids w).2 ∧
      (cache.Direct (w.disk.makeDirs cache.dir).2 →
        (Resolver.resolveAll ⟨cache, catalog.fetchPart⟩ ids w).1.toOption.any (·.2.isEmpty) →
          ∀ id ∈ ids, cache.Readable
            (Resolver.resolveAll ⟨cache, catalog.fetchPart⟩ ids w).2.disk id) := by
  induction ids generalizing w with
  | nil => exact ⟨.of_still (World.Frame.refl w), by simp⟩
  | cons id ids ih =>
      obtain ⟨hone, hobtained⟩ := Resolver.resolve_fills cache (hread id List.mem_cons_self)
      rw [Resolver.resolveAll_cons]
      rcases hresolve : Resolver.resolve ⟨cache, catalog.fetchPart⟩ id w with ⟨e | first, v⟩
      · rw [Act.bind_of_error hresolve]
        rw [hresolve] at hone
        exact ⟨hone, fun _ hno => by simp [Except.toOption] at hno⟩
      rw [Act.bind_of_ok hresolve, Act.bind_pure_apply]
      rw [hresolve] at hone hobtained
      obtain ⟨hall, hrest⟩ := ih (w := v) fun other hother =>
        (hread other (List.mem_cons_of_mem _ hother)).later hone.clock
      rcases hresolveAll : Resolver.resolveAll ⟨cache, catalog.fetchPart⟩ ids v with ⟨e | others, u⟩
      · rw [hresolveAll] at hall
        exact ⟨hone.trans hall, fun _ hno => by simp [Except.toOption, Except.map] at hno⟩
      rw [hresolveAll] at hall hrest
      refine ⟨hone.trans hall, fun hdirect hnone other hother => ?_⟩
      have hdirect' := (hone.grown _ (.refl hdirect)).direct
      have htally : Resolution.obtained (.ok first) = true ∧ others.2.isEmpty = true := by
        have hboth : (first.tally others).2.isEmpty = true := hnone
        rw [first.tally_isEmpty others] at hboth
        exact Bool.and_eq_true_iff.mp hboth
      rcases List.mem_cons.mp hother with rfl | hother
      · exact hall.readable hdirect' _ (hobtained hdirect htally.1)
      · exact hrest hdirect' htally.2 other hother

theorem Resolver.work_fills {t : BuildTarget}
    (hread : ∀ id ∈ t.parts, catalog.ReadsBack w.clock id) :
    w.Fills cache (Resolver.work ⟨cache, catalog.fetchPart⟩ t w).2 ∧
      (cache.Direct (w.disk.makeDirs cache.dir).2 →
        (Resolver.work ⟨cache, catalog.fetchPart⟩ t w).1 = .ok () →
          ∀ id ∈ t.parts, cache.Readable
            (Resolver.work ⟨cache, catalog.fetchPart⟩ t w).2.disk id) := by
  obtain ⟨hall, hparts⟩ := Resolver.resolveAll_fills cache hread
  unfold Resolver.work Resolver.build
  simp only [Act.mapError, Act.bind_apply]
  rcases hresolve : Resolver.resolveAll ⟨cache, catalog.fetchPart⟩ t.parts w with
    ⟨e | ⟨fetched, blocked⟩, v⟩
  · rw [hresolve] at hall
    exact ⟨hall, fun _ hno => by simp at hno⟩
  rw [hresolve] at hall hparts
  dsimp only
  cases hblocked : blocked.isEmpty with
  | false => exact ⟨hall, fun _ hno => by simp [Act.fail] at hno⟩
  | true =>
      have hsaid := World.Frame.noted (R := World.Still) v (.logged .info
        s!"All {t.parts.length} part(s) for '{t.name}' are cached ({fetched} newly fetched)")
        (by simp)
      exact ⟨hall.trans (.of_still hsaid), fun hdirect _ => hparts hdirect hblocked⟩

/-- After visits none of which failed, every part of every target has an entry that can be read. -/
theorem Visits.fills {last : World} {visits : List (Visit BuildTarget)}
    (hvisits : Visits (Resolver.work ⟨cache, catalog.fetchPart⟩) w visits last)
    (hread : ∀ v ∈ visits, ∀ id ∈ v.target.parts, catalog.ReadsBack w.clock id) :
    w.Fills cache last ∧ (cache.Direct (w.disk.makeDirs cache.dir).2 →
      (∀ v ∈ visits, v.result = .ok ()) →
        ∀ v ∈ visits, ∀ id ∈ v.target.parts, cache.Readable last.disk id) := by
  induction hvisits with
  | done hnotes => exact ⟨.of_still hnotes.still, by simp⟩
  | @next w last v rest hnotes hwork _ ih =>
      have hseen : w.Fills cache v.seen := .of_still hnotes.still
      obtain ⟨hone, hparts⟩ := Resolver.work_fills cache (w := v.seen) fun id hid =>
        (hread v List.mem_cons_self id hid).later hseen.clock
      rw [hwork] at hone hparts
      have hleft := hseen.trans hone
      obtain ⟨hrest, hothers⟩ := ih fun u hu id hid =>
        (hread u (List.mem_cons_of_mem _ hu) id hid).later hleft.clock
      refine ⟨hleft.trans hrest, fun hdirect hok u hu id hid => ?_⟩
      have hdirect' := (hseen.grown _ (.refl hdirect)).direct
      have hdirect'' := (hleft.grown _ (.refl hdirect)).direct
      rcases List.mem_cons.mp hu with rfl | hu
      · exact hrest.readable hdirect'' id (hparts hdirect' (hok _ List.mem_cons_self) id hid)
      · exact hothers hdirect'' (fun x hx => hok x (List.mem_cons_of_mem _ hx)) u hu id hid

end Parts

end PartDepot
