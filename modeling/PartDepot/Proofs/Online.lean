import PartDepot.Desk
import PartDepot.Proofs.Frame

/-!
# No request under a closed gate

Every call of the catalog asks the gate before it sends anything, and every way to the network leads
through a call of the catalog.  So whatever is done on a desk, in whatever order, and whatever it
does to the gate on the way, each request went out while the gate was open.
-/

namespace PartDepot

namespace World

/-- The journal of the later world goes on from that of the earlier one, and every request in
what is new was sent under an open gate. -/
def SentOnline (w w' : World) : Prop :=
  ∃ new, w'.journal = w.journal ++ new ∧
    ∀ request offline, Event.sent request offline ∈ new → offline = false

theorem SentOnline.of_journal_eq {w w' : World} (h : w'.journal = w.journal) : w.SentOnline w' :=
  ⟨[], by simpa using h, by simp⟩

instance : World.Frame SentOnline where
  refl _ := .of_journal_eq rfl
  trans := by
    rintro u v w ⟨early, hv, hearly⟩ ⟨late, hw, hlate⟩
    refine ⟨early ++ late, by rw [hw, hv, List.append_assoc], fun request offline hsent => ?_⟩
    rcases List.mem_append.mp hsent with hsent | hsent
    · exact hearly request offline hsent
    · exact hlate request offline hsent
  noted w e he := by
    refine ⟨[e], rfl, fun request offline hsent => ?_⟩
    exact absurd (List.mem_singleton.mp hsent).symm (he request offline)
  ticked _ := .of_journal_eq rfl
  sent w r hopen := by
    refine ⟨[.sent r w.offline], rfl, fun request offline hsent => ?_⟩
    obtain ⟨-, rfl⟩ := Event.sent.inj (List.mem_singleton.mp hsent)
    exact hopen

end World

open Act World

theorem sentOnline_of_gate (w : World) (offline : Bool) : w.SentOnline { w with offline } :=
  .of_journal_eq rfl

/-! ## Parts -/

theorem Cache.store_sentOnline (c : Cache) (id : PartId) (a : CachedArtifact) :
    (c.store id a).Keeps SentOnline :=
  c.store_keeps id a (fun _ => .of_journal_eq rfl) fun _ _ => .of_journal_eq rfl

theorem Resolver.resolve_sentOnline (cache : Cache) (catalog : Catalog) (id : PartId) :
    (Resolver.resolve ⟨cache, catalog.fetchPart⟩ id).Keeps SentOnline :=
  Resolver.resolve_keeps _ id fun w _ =>
    Resolver.fetch_keeps _ id (catalog.fetchPart_keeps id) (cache.store_sentOnline id) w

/-- A script reaches the network only where it resolves a part. -/
theorem Script.run_sentOnline (cache : Cache) (catalog : Catalog) (s : Script) :
    (s.run ⟨cache, catalog.fetchPart⟩).Keeps SentOnline := by
  induction s with
  | finish result => exact keeps_ofExcept result
  | look next ih =>
      unfold Script.run
      exact (keeps_look id).bind ih
  | say level message next ih =>
      unfold Script.run
      exact (keeps_log level message).bind fun _ => ih
  | edit change next ih =>
      unfold Script.run
      exact (keeps_change fun _ => .of_journal_eq rfl).bind fun _ => ih
  | setGate offline next ih =>
      unfold Script.run
      exact (keeps_change fun w => sentOnline_of_gate w offline).bind fun _ => ih
  | now next ih =>
      unfold Script.run
      exact keeps_now.bind ih
  | resolve id next ih =>
      unfold Script.run
      exact (Resolver.resolve_sentOnline cache catalog id).attempt.bind ih

theorem Pipeline.work_sentOnline (cache : Cache) (catalog : Catalog) (pipeline : Pipeline)
    (t : BuildTarget) : (pipeline.work ⟨cache, catalog.fetchPart⟩ t).Keeps SentOnline := by
  cases pipeline with
  | parts => exact Resolver.work_keeps _ (Resolver.resolve_sentOnline cache catalog) t
  | scripted script => exact (script t).run_sentOnline cache catalog

/-! ## Packages -/

theorem Packages.installMissing_sentOnline (p : Packages) :
    p.installMissing.Keeps SentOnline :=
  p.installMissing_keeps_of_disk fun _ _ => .of_journal_eq rfl

/-! ## Steps and runs -/

theorem Catalog.call_sentOnline (c : Catalog) (call : Call) : (c.call call).Keeps SentOnline := by
  cases call with
  | get path => exact (c.get_keeps path).map _
  | getSegments segments => exact (c.getSegments_keeps segments).map _
  | post path body => exact (c.post_keeps path body).map _
  | download url => exact (c.download_keeps url).map _
  | fetchPart id => exact (c.fetchPart_keeps id).map _

theorem Desk.step_sentOnline (d : Desk) (s : Step) : d.world.SentOnline (d.step s).world := by
  cases s with
  | setGate offline => exact sentOnline_of_gate d.world offline
  | takeOverride offline => exact sentOnline_of_gate d.world offline
  | dropOverride number =>
      simp only [Desk.step]
      split
      · exact sentOnline_of_gate d.world _
      · exact World.Frame.refl d.world
  | call catalog call => exact catalog.call_sentOnline call d.world
  | resolve cache catalog id => exact Resolver.resolve_sentOnline cache catalog id d.world
  | install packages => exact packages.installMissing_sentOnline d.world
  | build cache catalog pipeline targets =>
      exact Workflow.buildTargets_keeps (pipeline.work_sentOnline cache catalog) targets d.world
  | fetch packages cache catalog pipeline targets =>
      have hinstall := packages.installMissing_sentOnline.mapError Halt.failed
      exact Workflow.fetchMissingParts_keeps packages.missing_keeps hinstall
        (pipeline.work_sentOnline cache catalog) sentOnline_of_gate targets d.world

theorem Desk.run_sentOnline (d : Desk) (steps : List Step) :
    d.world.SentOnline (d.run steps).world := by
  induction steps generalizing d with
  | nil => exact World.Frame.refl d.world
  | cons s steps ih => exact World.Frame.trans (d.step_sentOnline s) (ih (d.step s))

theorem Catalog.call_offline (c : Catalog) (call : Call) {w : World} (h : w.offline = true) :
    (c.call call w).1 = .error (.notConfigured call.operation) ∧
      (c.call call w).2.requests = w.requests := by
  cases call with
  | get path =>
      rw [Catalog.call, Catalog.get, map_bind, Catalog.ensureOnline_bind_offline _ _ h]
      exact ⟨rfl, rfl⟩
  | getSegments segments =>
      rw [Catalog.call, Catalog.getSegments, map_bind, Catalog.ensureOnline_bind_offline _ _ h]
      exact ⟨rfl, rfl⟩
  | post path body =>
      rw [Catalog.call, Catalog.post, map_bind, Catalog.ensureOnline_bind_offline _ _ h]
      exact ⟨rfl, rfl⟩
  | download url =>
      rw [Catalog.call, Catalog.download, map_bind, Catalog.ensureOnline_bind_offline _ _ h]
      exact ⟨rfl, rfl⟩
  | fetchPart id =>
      have hsaid : (w.record (.logged .info s!"Fetching part {id.text} from the catalog")).offline =
          true := h
      rw [Catalog.call, Catalog.fetchPart, map_bind, Act.bind_apply]
      simp only [Act.log, Act.change]
      rw [Catalog.getSegments, bind_assoc, map_bind, Catalog.ensureOnline_bind_offline _ _ hsaid]
      refine ⟨rfl, ?_⟩
      simp [World.requests, World.record]

/-- Whatever was done on a desk, all requests it led to were sent under an open gate; and wherever
the gate is closed, a call of any catalog is refused and adds no request. -/
theorem Desk.requests_only_online (d : Desk) (steps : List Step) :
    (∃ new, (d.run steps).world.journal = d.world.journal ++ new ∧
      ∀ request offline, Event.sent request offline ∈ new → offline = false) ∧
    ∀ (c : Catalog) (call : Call) (w : World), w.offline = true →
      (c.call call w).1 = .error (.notConfigured call.operation) ∧
        (c.call call w).2.requests = w.requests :=
  ⟨d.run_sentOnline steps, fun c call _ h => c.call_offline call h⟩

/-- Two calls around an override are sent, one under it is refused. -/
theorem Desk.requests_around_override :
    let catalog : Catalog := ⟨"http://depot", Network.ofRoutes []⟩
    let d : Desk := ⟨⟨⟨[], []⟩, false, fun _ => ⟨0, 0⟩, Listing.asStored, []⟩, []⟩
    let steps : List Step := [.call catalog (.get "a"), .takeOverride true,
      .call catalog (.get "b"), .dropOverride 0, .call catalog (.get "c")]
    let closed : World := (d.step (.takeOverride true)).world
    (d.run steps).world.requests.map (·.url) = ["http://depot/a", "http://depot/c"] ∧
      (∀ request offline, Event.sent request offline ∈ (d.run steps).world.journal →
        offline = false) ∧
      (catalog.call (.get "b") closed).1 = .error (.notConfigured (Call.get "b").operation) := by
  intro catalog d steps closed
  obtain ⟨⟨new, hjournal, hnew⟩, hclosed⟩ := Desk.requests_only_online d steps
  refine ⟨by decide +kernel, fun request offline hsent => ?_, ?_⟩
  · rw [hjournal] at hsent
    exact hnew request offline hsent
  · exact (hclosed catalog (.get "b") closed rfl).1

end PartDepot
