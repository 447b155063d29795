import PartDepot.Proofs.Course
import PartDepot.Proofs.Resolving

/-!
# Targets do not depend on each other

All targets of a run share one cache, which changes while they are built.  What does not change is
which parts can be had: one that was fresh at the start, and one that can be fetched and stored.  So
whether a target is built can be told from the world in which the run began.
-/

namespace PartDepot

/-! ## Parts that can be had -/

/-- A network whose answers depend on the request alone. -/
def Network.Steady (n : Network) : Prop := ∀ before before' r, n.reply before r = n.reply before' r

theorem Catalog.answer?_steady {c : Catalog} (h : c.network.Steady) (before before' : Nat)
    (id : PartId) : c.answer? before id = c.answer? before' id := by
  unfold Catalog.answer? Catalog.reply?
  simp only [h before before']

namespace World

/-- Whether a part can be brought into the cache: the gate is open, the catalog answers with
JSON, and the entry can be stored. -/
def canFetch (w : World) (cache : Cache) (catalog : Catalog) (id : PartId) : Bool :=
  !w.offline && (catalog.answer? w.requests.length id).isSome && cache.canStore w.disk id

/-- Whether a part can be had: it is fresh, or it can be brought into the cache. -/
def canObtain (w : World) (cache : Cache) (catalog : Catalog) (id : PartId) : Bool :=
  cache.isFresh w.disk id || w.canFetch cache catalog id

/-- The later world offers the same as the first one: storing is possible for the same parts,
and an entry differs only if its part can be fetched.  The cache has to be plain only if the
gate is open, for else nothing is stored. -/
structure Offers (cache : Cache) (catalog : Catalog) (w w' : World) : Prop where
  plain : w.offline = false → cache.Plain w'.disk
  offline : w'.offline = w.offline
  storable : ∀ id, cache.canStore w'.disk id = cache.canStore w.disk id
  entries : ∀ id, cache.entry? w'.disk id = cache.entry? w.disk id ∨
    w.canFetch cache catalog id = true

namespace Offers

variable {cache : Cache} {catalog : Catalog} {w w' : World}

theorem refl (h : w.offline = false → cache.Plain w.disk) : w.Offers cache catalog w :=
  ⟨h, rfl, fun _ => rfl, fun _ => .inl rfl⟩

theorem of_still {v : World} (h : w.Offers cache catalog w') (hv : w'.Still v) :
    w.Offers cache catalog v := by
  refine ⟨?_, hv.offline.trans h.offline, fun id => ?_, fun id => ?_⟩
  · rw [hv.disk]
    exact h.plain
  · rw [hv.disk]
    exact h.storable id
  · rw [hv.disk]
    exact h.entries id

theorem canFetch_eq (h : w.Offers cache catalog w') (hsteady : catalog.network.Steady)
    (id : PartId) : w'.canFetch cache catalog id = w.canFetch cache catalog id := by
  unfold canFetch
  rw [h.offline, h.storable, Catalog.answer?_steady hsteady]

/-- A part that is not fresh any more can be fetched, and so can one that has become fresh. -/
theorem canObtain_eq (h : w.Offers cache catalog w') (hsteady : catalog.network.Steady)
    (id : PartId) : w'.canObtain cache catalog id = w.canObtain cache catalog id := by
  unfold canObtain
  rw [h.canFetch_eq hsteady]
  rcases h.entries id with hsame | hfetch
  · rw [Cache.isFresh_congr hsame]
  · rw [hfetch, Bool.or_true, Bool.or_true]

theorem stored {v : World} (h : w.Offers cache catalog w') (hv : w'.Still v)
    (hopen : w'.offline = false) (id : PartId) (content : ByteArray)
    (hfetch : cache.canStore w'.disk id = true → w.canFetch cache catalog id = true) :
    w.Offers cache catalog { v with disk := (cache.stored w'.disk id content).2 } := by
  have hplain : cache.Plain w'.disk := h.plain (h.offline.symm.trans hopen)
  refine ⟨fun _ => hplain.stored id content, hv.offline.trans h.offline, fun other => ?_,
    fun other => ?_⟩
  · exact (hplain.canStore_stored id content other).trans (h.storable other)
  · dsimp only
    rw [hplain.entry?_stored id content other]
    split
    · next hself => exact .inr (hself.1 ▸ hfetch hself.2)
    · exact h.entries other

end Offers

end World

/-! ## Building one target -/

open World

def Resolution.obtained (r : Except FetchError Resolution) : Bool :=
  match r with
  | .ok (.hit _) | .ok (.fetched _) => true
  | _ => false

theorem Resolution.tally_isEmpty (first : Resolution) (others : Nat × List String) :
    (first.tally others).2.isEmpty = (Resolution.obtained (.ok first) && others.2.isEmpty) := by
  cases first <;> rfl

section Target

variable {cache : Cache} {catalog : Catalog} {w w' : World}

theorem Resolver.resolve_offers (hsteady : catalog.network.Steady)
    (h : w.Offers cache catalog w') (id : PartId) :
    w.Offers cache catalog (Resolver.resolve ⟨cache, catalog.fetchPart⟩ id w').2 ∧
      Resolution.obtained (Resolver.resolve ⟨cache, catalog.fetchPart⟩ id w').1 =
        w.canObtain cache catalog id := by
  have hobtain := h.canObtain_eq hsteady id
  have hfetch := h.canFetch_eq hsteady id
  have hresolves := Resolver.resolve_resolves cache catalog id w'
  generalize (Resolver.resolve ⟨cache, catalog.fetchPart⟩ id w').1 = r at hresolves ⊢
  generalize (Resolver.resolve ⟨cache, catalog.fetchPart⟩ id w').2 = v at hresolves ⊢
  rw [← hobtain, canObtain]
  cases hresolves with
  | hit hfresh hv => exact ⟨h.of_still hv, by simp [hfresh, Resolution.obtained]⟩
  | blocked hstale hclosed hv =>
      exact ⟨h.of_still hv, by simp [hstale, hclosed, canFetch, Resolution.obtained]⟩
  | unanswered hstale hopen hanswer hv =>
      exact ⟨h.of_still hv, by simp [hstale, hanswer, canFetch, Resolution.obtained]⟩
  | stored hstale hopen hanswer hcan hv =>
      have hcanFetch : w'.canFetch cache catalog id = true := by
        simp [canFetch, hopen, hanswer, hcan]
      refine ⟨h.stored hv hopen id _ fun _ => hfetch ▸ hcanFetch, ?_⟩
      simp [hstale, hcanFetch, Resolution.obtained]
  | unstored hstale hopen hanswer hcan hv =>
      refine ⟨h.stored hv hopen id _ fun hcan' => ?_, ?_⟩
      · simp [hcan] at hcan'
      · simp [hstale, hcan, canFetch, Resolution.obtained]

/-- Nothing is blocked among parts exactly if all of them can be had. -/
theorem Resolver.resolveAll_offers (hsteady : catalog.network.Steady)
    (h : w.Offers cache catalog w') (ids : List PartId) :
    w.Offers cache catalog (Resolver.resolveAll ⟨cache, catalog.fetchPart⟩ ids w').2 ∧
      ((Resolver.resolveAll ⟨cache, catalog.fetchPart⟩ ids w').1.toOption.any (·.2.isEmpty)) =
        ids.all (w.canObtain cache catalog) := by
  induction ids generalizing w' with
  | nil => exact ⟨h, rfl⟩
  | cons id ids ih =>
      obtain ⟨hone, hobtained⟩ := Resolver.resolve_offers hsteady h id
      rw [Resolver.resolveAll_cons, List.all_cons, ← hobtained]
      rcases hone' : Resolver.resolve ⟨cache, catalog.fetchPart⟩ id w' with ⟨e | first, v⟩
      · rw [Act.bind_of_error hone']
        rw [hone'] at hone
        exact ⟨hone, rfl⟩
      · rw [Act.bind_of_ok hone', Act.bind_pure_apply]
        rw [hone'] at hone
        obtain ⟨hall, hrest⟩ := ih hone
        rw [← hrest]
        rcases hall' : Resolver.resolveAll ⟨cache, catalog.fetchPart⟩ ids v with ⟨e | others, u⟩
        · rw [hall'] at hall
          exact ⟨hall, (Bool.and_false _).symm⟩
        · rw [hall'] at hall
          exact ⟨hall, first.tally_isEmpty others⟩

theorem Resolver.work_offers (hsteady : catalog.network.Steady) (h : w.Offers cache catalog w')
    (t : BuildTarget) :
    w.Offers cache catalog (Resolver.work ⟨cache, catalog.fetchPart⟩ t w').2 ∧
      (Resolver.work ⟨cache, catalog.fetchPart⟩ t w').1.isOk =
        t.parts.all (w.canObtain cache catalog) := by
  obtain ⟨hall, hparts⟩ := Resolver.resolveAll_offers hsteady h t.parts
  unfold Resolver.work Resolver.build
  simp only [Act.mapError, Act.bind_apply]
  rw [← hparts]
  rcases hall' : Resolver.resolveAll ⟨cache, catalog.fetchPart⟩ t.parts w' with
    ⟨e | ⟨fetched, blocked⟩, v⟩
  · rw [hall'] at hall
    exact ⟨hall, rfl⟩
  · rw [hall'] at hall
    dsimp only
    cases hblocked : blocked.isEmpty with
    | false =>
        exact ⟨hall, by simp [Act.fail, Except.isOk, Except.toBool, Except.toOption, hblocked]⟩
    | true =>
        have hsaid := World.Frame.noted (R := World.Still) v (.logged .info
          s!"All {t.parts.length} part(s) for '{t.name}' are cached ({fetched} newly fetched)")
          (by simp)
        refine ⟨hall.of_still hsaid, ?_⟩
        simp [Act.log, Act.change, Except.isOk, Except.toBool, Except.toOption, hblocked]

end Target

/-! ## Building many targets -/

def BuildTarget.isObtainable (t : BuildTarget) (cache : Cache) (catalog : Catalog) (w : World) :
    Bool :=
  t.parts.all (w.canObtain cache catalog)

theorem World.Offers.isObtainable_eq {cache : Cache} {catalog : Catalog} {w w' : World}
    (h : w.Offers cache catalog w') (hsteady : catalog.network.Steady) (t : BuildTarget) :
    t.isObtainable cache catalog w' = t.isObtainable cache catalog w :=
  congrArg (List.all t.parts) (funext (h.canObtain_eq hsteady))

section Targets

variable {cache : Cache} {catalog : Catalog} {w : World}

theorem World.Notes.still {w w' : World} (h : w.Notes w') : w.Still w' := by
  obtain ⟨notes, -, rfl⟩ := h
  exact ⟨rfl, rfl, 0, fun _ => rfl⟩

theorem Visits.isOk_eq (hsteady : catalog.network.Steady) {w' last : World}
    {visits : List (Visit BuildTarget)}
    (hvisits : Visits (Resolver.work ⟨cache, catalog.fetchPart⟩) w' visits last)
    (h : w.Offers cache catalog w') :
    ∀ v ∈ visits, v.result.isOk = v.target.isObtainable cache catalog w := by
  induction hvisits with
  | done => simp
  | @next w' last v rest hnotes hwork _ ih =>
      obtain ⟨hleft, hresult⟩ := Resolver.work_offers hsteady (h.of_still hnotes.still) v.target
      rw [hwork] at hleft hresult
      intro u hu
      rcases List.mem_cons.mp hu with rfl | hu
      · exact hresult
      · exact ih hleft u hu

theorem Visit.map_target_filterMap_failure? {τ : Type} (visits : List (Visit τ)) :
    (visits.filterMap Visit.failure?).map (·.target) =
      (visits.filter fun v => !v.result.isOk).map (·.target) := by
  induction visits with
  | nil => rfl
  | cons v visits ih =>
      cases hresult : v.result with
      | ok done => simpa [Visit.failure?, hresult, Except.isOk, Except.toBool] using ih
      | error halt => simpa [Visit.failure?, hresult, Except.isOk, Except.toBool] using ih

/-- Exactly those targets fail that have a part which cannot be had in the world that is offered. -/
theorem Visits.map_target_failures (hsteady : catalog.network.Steady) {w' last : World}
    {visits : List (Visit BuildTarget)}
    (hvisits : Visits (Resolver.work ⟨cache, catalog.fetchPart⟩) w' visits last)
    (h : w.Offers cache catalog w') :
    (visits.filterMap Visit.failure?).map (·.target) =
      (visits.map (·.target)).filter fun t => !t.isObtainable cache catalog w := by
  have hok := hvisits.isOk_eq hsteady h
  calc (visits.filterMap Visit.failure?).map (·.target)
      = (visits.filter fun v => !v.result.isOk).map (·.target) :=
        Visit.map_target_filterMap_failure? visits
    _ = (visits.filter fun v => !v.target.isObtainable cache catalog w).map (·.target) := by
        rw [List.filter_congr fun v hv => by rw [hok v hv]]
    _ = (visits.map (·.target)).filter fun t => !t.isObtainable cache catalog w := by
        rw [List.filter_map]
        rfl

theorem Workflow.buildTargets_failures {ε : Type} (hsteady : catalog.network.Steady)
    (hplain : w.offline = false → cache.Plain w.disk) (targets : List BuildTarget) :
    ∃ report last, (buildTargets targets (Resolver.work ⟨cache, catalog.fetchPart⟩) :
        Act ε Report) w = (.ok report, last) ∧
      report.failures.map (·.target) =
        targets.filter fun t => !t.isObtainable cache catalog w := by
  obtain ⟨visits, last, hvisits, htargets, hrun⟩ :=
    buildTargets_visits (ε := ε) targets (Resolver.work ⟨cache, catalog.fetchPart⟩) w
  refine ⟨_, last, hrun, ?_⟩
  rw [← htargets]
  exact hvisits.map_target_failures hsteady (World.Offers.refl hplain)

end Targets

theorem BuildTarget.isObtainable_iff (t : BuildTarget) (cache : Cache) (catalog : Catalog)
    (w : World) : t.isObtainable cache catalog w = true ↔
      ∀ id ∈ t.parts, cache.isFresh w.disk id = true ∨
        (w.offline = false ∧ (catalog.answer? w.requests.length id).isSome = true ∧
          cache.canStore w.disk id = true) := by
  simp [isObtainable, World.canObtain, World.canFetch, and_assoc]

/-- A target succeeds exactly if each of its parts is fresh in the first world or can be fetched and
stored from there. So in runs over different lists, in any order and with any repetitions, a target
that is in both ends in the same way.  Under an open gate this needs a plain cache. -/
theorem Workflow.buildTargets_independent {ε : Type} (cache : Cache) (catalog : Catalog) (w : World)
    (hsteady : catalog.network.Steady) (hplain : w.offline = false → cache.Plain w.disk)
    (targets others : List BuildTarget) :
    let build (ts : List BuildTarget) :=
      ((buildTargets ts (Resolver.work ⟨cache, catalog.fetchPart⟩) : Act ε Report) w).1
    ∃ report report', build targets = .ok report ∧ build others = .ok report' ∧
      report.failures.map (·.target) = (targets.filter fun t => !t.isObtainable cache catalog w) ∧
      (∀ t ∈ targets, t ∉ report.failures.map (·.target) ↔
        ∀ id ∈ t.parts, cache.isFresh w.disk id = true ∨
          (w.offline = false ∧ (catalog.answer? w.requests.length id).isSome = true ∧
            cache.canStore w.disk id = true)) ∧
      ∀ t ∈ targets, t ∈ others →
        (t ∈ report.failures.map (·.target) ↔ t ∈ report'.failures.map (·.target)) := by
  intro build
  obtain ⟨report, last, hrun, hfailures⟩ :=
    buildTargets_failures (ε := ε) hsteady hplain targets
  obtain ⟨report', last', hrun', hfailures'⟩ :=
    buildTargets_failures (ε := ε) hsteady hplain others
  refine ⟨report, report', congrArg Prod.fst hrun, congrArg Prod.fst hrun', hfailures,
    fun t ht => ?_, fun t ht ht' => ?_⟩
  · rw [← t.isObtainable_iff, hfailures, List.mem_filter]
    simp [ht]
  · rw [hfailures, hfailures', List.mem_filter, List.mem_filter]
    simp [ht, ht']

/-- A part that the catalog does not know keeps its target from being built, and no other. -/
theorem Workflow.buildTargets_with_unknown_part :
    let cache : Cache := ⟨⟨"/cache"⟩, Freshness.never⟩
    let known (r : Request) : Bool := r.url = "http://depot/v1/parts/C1"
    let catalog : Catalog := ⟨"http://depot", fun _ => true,
      fun _ r => if known r then .answer 200 "{}".toUTF8 else .answer 404 ByteArray.empty⟩
    let w : World := ⟨⟨[(["cache"], .dir)], []⟩, false, fun _ => ⟨0, 0⟩, Listing.asStored, []⟩
    let good : BuildTarget := ⟨"good", none, [⟨"C1", by decide, by decide⟩]⟩
    let bad : BuildTarget :=
      ⟨"bad", none, [⟨"C1", by decide, by decide⟩, ⟨"C2", by decide, by decide⟩]⟩
    ∃ report, ((buildTargets [bad, good, bad, good] (Resolver.work ⟨cache, catalog.fetchPart⟩) :
        Act Empty Report) w).1 = .ok report ∧
      report.failures.map (·.target.name) = ["bad", "bad"] := by
  intro cache known catalog w good bad
  have hmade : Disk.makeDirs ⟨[(["cache"], .dir)], []⟩ ⟨"/cache"⟩ =
      (none, ⟨[(["cache"], .dir)], []⟩) := by rfl
  have hlinks : ∀ q, w.disk.NoLink q := Disk.noLink_of_nodes (by simp [w])
  obtain ⟨report, -, hrun, -, hfailures, -⟩ :=
    buildTargets_independent (ε := Empty) cache catalog w (fun _ _ _ => rfl)
      (fun _ => Cache.plain_of_made hmade hlinks) [bad, good, bad, good] [good]
  refine ⟨report, hrun, ?_⟩
  have hnames := congrArg (List.map BuildTarget.name) hfailures
  rw [List.map_map] at hnames
  apply hnames.trans
  decide +kernel

/-- A cache behind a directory that is missing.  The first entry that is stored makes the
directory, and so brings to light what stood in the cache before: then a target is built
that fails on its own. -/
theorem Workflow.buildTargets_behind_missing :
    let cache : Cache := ⟨⟨"/a/../c"⟩, Freshness.never⟩
    let known (r : Request) : Bool := r.url = "http://depot/v1/parts/C2"
    let catalog : Catalog := ⟨"http://depot", fun _ => true,
      fun _ r => if known r then .answer 200 "{}".toUTF8 else .answer 404 ByteArray.empty⟩
    let text := "part_id: C1\nfetched_at: 2024-01-02T03:04:05Z\npayload: null\n"
    let w : World := ⟨⟨[(["c"], .dir), (["c", "C1.yaml"], .file text.toUTF8)], []⟩, false,
      fun _ => ⟨0, 0⟩, Listing.asStored, []⟩
    let id : PartId := ⟨"C1", by decide, by decide⟩
    let one : BuildTarget := ⟨"one", none, [id]⟩
    let two : BuildTarget := ⟨"two", none, [⟨"C2", by decide, by decide⟩]⟩
    let failed (targets : List BuildTarget) : Option (List String) :=
      ((buildTargets targets (Resolver.work ⟨cache, catalog.fetchPart⟩) : Act Empty Report)
        w).1.toOption.map fun report => report.failures.map (·.target.name)
    catalog.network.Steady ∧ (∀ q, w.disk.NoLink q) ∧ cache.isFresh w.disk id = false ∧
      catalog.answer? w.requests.length id = none ∧
      failed [one] = some ["one"] ∧ failed [one, two] = some ["one"] ∧
      failed [two, one] = some [] := by
  intro cache known catalog text w id one two failed
  refine ⟨fun _ _ _ => rfl, Disk.noLink_of_nodes (by simp [w]), ?_, ?_, ?_, ?_, ?_⟩
  all_goals decide +kernel

end PartDepot
