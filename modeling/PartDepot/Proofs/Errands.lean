import PartDepot.Proofs.Keeping

/-!
# Errands

The library is called for one errand after the other, to resolve a part, to build or to fetch; the
gate and the catalog may be other ones each time.  While no artifact has to be refreshed, a part
that was had once is served from the cache in every later lookup, so each part is fetched once.
-/

namespace PartDepot

/-- What the library is called for. -/
inductive Errand.Call where
  | resolve (id : PartId)
  | build (targets : List BuildTarget)
  | fetch (installer : Installer) (targets : List BuildTarget)

/-- A call with the value to which the gate was set before it, and the catalog as it is at
that time. -/
structure Errand where
  offline : Bool
  catalog : Catalog
  call : Errand.Call

namespace Errand

def resolver (e : Errand) (c : Cache) : Resolver := ⟨c, e.catalog.fetchPart⟩

def opened (e : Errand) (w : World) : World := { w with offline := e.offline }

/-- The world in which the lookups begin: an installer has done its work by then. -/
def ready (e : Errand) (w : World) : World :=
  match e.call with
  | .resolve _ | .build _ => e.opened w
  | .fetch installer _ => (Workflow.prepare installer { w with offline := false }).2

def lookups (e : Errand) (c : Cache) (w : World) : List Lookup :=
  match e.call with
  | .resolve id => [(e.resolver c).lookup id (e.opened w)]
  | .build targets => (e.resolver c).tour targets (e.opened w)
  | .fetch installer targets => Workflow.tour installer targets (e.resolver c) (e.opened w)

/-- The world that an errand leaves. -/
def run (e : Errand) (c : Cache) (w : World) : World :=
  match e.call with
  | .resolve id => ((e.resolver c).resolve id (e.opened w)).2
  | .build targets =>
    (Workflow.buildTargets targets (e.resolver c).work (e.opened w) : Except Empty Report × World).2
  | .fetch installer targets =>
    (Workflow.fetchMissingParts installer targets (e.resolver c).work (e.opened w)).2

/-- Fetching for targets that reports success. -/
def Fulfils (e : Errand) (c : Cache) (w : World) (targets : List BuildTarget) : Prop :=
  ∃ installer report, e.call = .fetch installer targets ∧
    (Workflow.fetchMissingParts installer targets (e.resolver c).work (e.opened w)).1 = .ok report ∧
      report.isSuccess = true

/-- The world after errands. -/
def after (c : Cache) : List Errand → World → World
  | [], w => w
  | e :: rest, w => after c rest (e.run c w)

/-- The lookups of errands. -/
def trail (c : Cache) : List Errand → World → List Lookup
  | [], _ => []
  | e :: rest, w => e.lookups c w ++ trail c rest (e.run c w)

end Errand

/-- The entries of a cache are spared, and no links come into their places. -/
structure Cache.Spared (c : Cache) (d d' : Disk) : Prop where
  entry : ∀ id content, c.entry? d id = some content → c.entry? d' id = some content
  unlinked : c.Unlinked (d.makeDirs c.dir).2 → c.Unlinked (d'.makeDirs c.dir).2

/-- The installers of errands do not write into the cache. Other errands begin on the disk
as it is. -/
def Errand.Spare (c : Cache) : List Errand → World → Prop
  | [], _ => True
  | e :: rest, w => c.Spared w.disk (e.ready w).disk ∧ Spare c rest (e.run c w)

/-- What was stored reads back. -/
def ReadBack (lookups : List Lookup) : Prop :=
  ∀ l ∈ lookups, ∀ a, l.stored? = some a → CachedArtifact.parse a.render = some a

/-- The part was had, from the cache or from the catalog. -/
def Lookup.Had (l : Lookup) (a : CachedArtifact) : Prop :=
  l.result = .ok (.hit a) ∨ l.result = .ok (.fetched a)

/-! ## What stays in the cache -/

namespace Cache.Spared

variable {c : Cache} {d d' : Disk}

theorem refl (d : Disk) : c.Spared d d := ⟨fun _ _ h => h, fun h => h⟩

/-- Work in a region beside the cache spares it. -/
theorem of_beside {region : Place → Prop} (h : c.Beside region d) (hsame : d.SameBut region d') :
    c.Spared d d' where
  entry id _ hentry := (h.entry?_eq hsame id).trans hentry
  unlinked := h.unlinked hsame

theorem load (h : c.Spared d d') {id : PartId} {a : CachedArtifact} (hload : c.load d id = .ok a) :
    c.load d' id = .ok a := by
  rw [load_eq_ok_iff, artifact?] at hload ⊢
  obtain ⟨content, hentry, htext⟩ := Option.bind_eq_some_iff.mp hload
  rw [h.entry id content hentry]
  exact htext

end Cache.Spared

/-- The installer of packages spares a cache that is beside the state directory. -/
theorem Packages.prepare_spares {c : Cache} {p : Packages} {s : StateDir} {w : World}
    (hstate : p.stateDir = s.root.join ".partfetch")
    (hwanted : ∀ dep ∈ p.wanted, Manifest.isPackageName dep.name = true) (hreach : s.Reached w.disk)
    (hholds : s.Holds w.disk w.disk) (hbeside : c.Beside (s.place <+: ·) w.disk) :
    c.Spared w.disk (Workflow.prepare p.installer w).2.disk := by
  have hwithin := Packages.prepare_within hstate hreach hwanted w
  exact .of_beside hbeside (hwithin.disk hholds).same

namespace Lookup

variable {l : Lookup}

theorem exists_had (h : Resolution.obtained l.result = true) : ∃ a, l.Had a := by
  rcases hresult : l.result with e | resolution
  · simp [hresult, Resolution.obtained] at h
  · cases resolution with
    | hit a => exact ⟨a, .inl hresult⟩
    | fetched a => exact ⟨a, .inr hresult⟩
    | blocked id => simp [hresult, Resolution.obtained] at h

end Lookup

theorem ReadBack.of_append {before after : List Lookup} (h : ReadBack (before ++ after)) :
    ReadBack before ∧ ReadBack after :=
  ⟨fun l hl => h l (List.mem_append_left _ hl), fun l hl => h l (List.mem_append_right _ hl)⟩

/-- For artifacts without data this can be evaluated. -/
theorem readBack_of_null {lookups : List Lookup} (h : (lookups.all fun l => l.stored?.all fun a =>
    a.payload matches .null && (CachedArtifact.parse a.render).any fun b =>
      b.partId = a.partId && b.fetchedAt = a.fetchedAt && b.payload matches .null) = true) :
    ReadBack lookups := by
  intro l hl a ha
  have hone := List.all_eq_true.mp h l hl
  rw [ha, Option.all_some, Bool.and_eq_true] at hone
  obtain ⟨hnull, hparse⟩ := hone
  obtain ⟨part, fetched, payload⟩ := a
  cases payload with
  | null => exact CachedArtifact.parse_eq_some_null hparse
  | bool | number | string | array | object => simp at hnull

section Lookups

variable {c : Cache} {catalog : Catalog} {w last : World} {lookups : List Lookup} {id : PartId}
  {a : CachedArtifact}

theorem Resolver.lookup_served (hnever : c.shallRefresh = Freshness.never)
    (hload : c.load w.disk id = .ok a) :
    (Resolver.lookup ⟨c, catalog.fetchPart⟩ id w).Served a := by
  have haccept : c.shallRefresh a = false := by
    rw [hnever]
    rfl
  unfold lookup Lookup.Served
  rw [Resolver.resolve_of_accepted ⟨c, catalog.fetchPart⟩ id hload haccept]
  exact ⟨rfl, rfl⟩

/-- What was had loads afterwards. -/
theorem Resolver.load_of_had (hnever : c.shallRefresh = Freshness.never)
    (hlinks : c.Unlinked (w.disk.makeDirs c.dir).2)
    (hread : ∀ b, (Resolver.lookup ⟨c, catalog.fetchPart⟩ id w).stored? = some b →
      CachedArtifact.parse b.render = some b)
    (h : (Resolver.lookup ⟨c, catalog.fetchPart⟩ id w).Had a) :
    c.load (Resolver.lookup ⟨c, catalog.fetchPart⟩ id w).left.disk id = .ok a := by
  rcases h with hhit | hfetched
  · have hfresh : c.isFresh w.disk id = true := by
      have hresolves := Resolver.resolve_resolves c catalog id w
      unfold lookup at hhit
      dsimp only at hhit
      rw [hhit] at hresolves
      cases hresolves with
      | hit h _ => exact h
    obtain ⟨b, hload, -⟩ := Cache.isFresh_iff.mp hfresh
    obtain ⟨hresult, hleft⟩ : (Resolver.lookup ⟨c, catalog.fetchPart⟩ id w).Served b :=
      Resolver.lookup_served hnever hload
    obtain rfl : b = a := by
      rw [hresult] at hhit
      simpa using hhit
    rw [hleft]
    exact hload
  · have hstored := Lookup.stored?_eq_some_iff.mpr hfetched
    have hentry := (Resolver.lookup_tended catalog id hlinks).stored id a (by simpa using hstored)
    rw [Cache.load_eq_ok_iff, Cache.artifact?, hentry, Option.bind_some, Cache.fromUTF8?_toUTF8,
      Option.bind_some]
    exact hread a hstored

namespace Lookups

theorem unlinked (h : Lookups ⟨c, catalog.fetchPart⟩ w lookups last)
    (hlinks : c.Unlinked (w.disk.makeDirs c.dir).2) : c.Unlinked (last.disk.makeDirs c.dir).2 :=
  (h.tended hlinks).unlinked

/-- A part that loads is served in every lookup, and loads in the end. -/
theorem served (h : Lookups ⟨c, catalog.fetchPart⟩ w lookups last)
    (hnever : c.shallRefresh = Freshness.never) (hlinks : c.Unlinked (w.disk.makeDirs c.dir).2)
    (hread : ReadBack lookups) (hload : c.load w.disk id = .ok a) :
    c.load last.disk id = .ok a ∧ ∀ l ∈ lookups, l.id = id → l.Served a := by
  induction h with
  | done hnotes =>
      rw [hnotes.disk_eq]
      exact ⟨hload, by simp⟩
  | @next w seen last first rest hnotes _ ih =>
      rw [← hnotes.disk_eq] at hlinks hload
      have htended := Resolver.lookup_tended catalog first hlinks
      have hfirst (hid : first = id) :
          (Resolver.lookup ⟨c, catalog.fetchPart⟩ first seen).Served a := by
        subst hid
        exact Resolver.lookup_served hnever hload
      have hkept : c.load (Resolver.lookup ⟨c, catalog.fetchPart⟩ first seen).left.disk id =
          .ok a := by
        by_cases hid : first = id
        · rw [(hfirst hid).2]
          exact hload
        · refine (htended.toOnlyStored.load (fun other b hb => ?_) hload).trans
            (by rw [if_neg hid]; rfl)
          split at hb
          · exact hread _ List.mem_cons_self b hb
          · simp at hb
      obtain ⟨hlast, hrest⟩ :=
        ih htended.unlinked (fun l hl => hread l (List.mem_cons_of_mem _ hl)) hkept
      refine ⟨hlast, fun l hl hid => ?_⟩
      rcases List.mem_cons.mp hl with rfl | hl
      · exact hfirst hid
      · exact hrest l hl hid

/-- A part that was had in a lookup is served in the later ones, and loads in the end. -/
theorem served_after {before later : List Lookup} {l : Lookup}
    (h : Lookups ⟨c, catalog.fetchPart⟩ w (before ++ l :: later) last)
    (hnever : c.shallRefresh = Freshness.never) (hlinks : c.Unlinked (w.disk.makeDirs c.dir).2)
    (hread : ReadBack (before ++ l :: later)) (hhad : l.Had a) :
    c.load last.disk l.id = .ok a ∧ ∀ l' ∈ later, l'.id = l.id → l'.Served a := by
  induction before generalizing w with
  | nil =>
      cases h with
      | @next _ seen _ first _ hnotes hrest =>
          rw [← hnotes.disk_eq] at hlinks
          have hleft := Resolver.load_of_had hnever hlinks (hread _ List.mem_cons_self) hhad
          exact hrest.served hnever (Resolver.lookup_tended catalog first hlinks).unlinked
            (fun l hl => hread l (List.mem_cons_of_mem _ hl)) hleft
  | cons b before ih =>
      cases h with
      | @next _ seen _ first _ hnotes hrest =>
          rw [← hnotes.disk_eq] at hlinks
          exact ih hrest (Resolver.lookup_tended catalog first hlinks).unlinked
            (fun l hl => hread l (List.mem_cons_of_mem _ hl))

end Lookups

end Lookups

/-- In fetching that reports success, every part of every target was looked up and had. -/
theorem Workflow.tour_obtained {installer : Installer} {targets : List BuildTarget} {r : Resolver}
    {w : World} {report : Report}
    (h : (fetchMissingParts installer targets r.work w).1 = .ok report)
    (hsuccess : report.isSuccess = true) : ∀ t ∈ targets, ∀ id ∈ t.parts,
      ∃ l ∈ tour installer targets r w, l.id = id ∧ Resolution.obtained l.result = true := by
  have hrun : (fetchMissingParts installer targets r.work w).1 =
      (fetchOpen installer targets r.work { w with offline := false }).1 := rfl
  rw [hrun, fetchOpen, Act.bind_apply] at h
  unfold tour
  rcases hprepare : prepare installer { w with offline := false } with ⟨halt | done, ready⟩
  · simp [hprepare] at h
  rw [hprepare] at h
  dsimp only at h ⊢
  rw [Act.bind_apply] at h
  simp only [Act.log, Act.change, buildTargets_run] at h
  apply r.tour_obtained (ε := Halt FetchError)
  rcases hfailures : (Fanout.run BuildTarget.name r.work targets
      (ready.record (.logged .info "Fetching missing parts...")) :
        Except (Halt FetchError) _ × World).1 with halt | failures
  · simp [hfailures, Except.map] at h
  · rw [hfailures] at h
    obtain rfl := Except.ok.inj h
    exact congrArg Except.ok (List.isEmpty_iff.mp hsuccess)

/-! ## Runs of errands -/

namespace Errand

variable {c : Cache} {w : World} {errands : List Errand}

theorem run_lookups (e : Errand) (c : Cache) (w : World) :
    ∃ last, Lookups ⟨c, e.catalog.fetchPart⟩ (e.ready w) (e.lookups c w) last ∧
      (e.run c w).disk = last.disk ∧ (e.run c w).requests = last.requests := by
  unfold ready lookups run
  cases e.call with
  | resolve id =>
      have hlookup : Lookups (e.resolver c) (e.opened w) [(e.resolver c).lookup id (e.opened w)]
          ((e.resolver c).resolve id (e.opened w)).2 := .next (.refl _) (.done (.refl _))
      dsimp only
      exact ⟨_, hlookup, rfl, rfl⟩
  | build targets =>
      refine ⟨_, (e.resolver c).tour_lookups (ε := Empty) targets (e.opened w), ?_, ?_⟩
      · simp only [Workflow.buildTargets_run]
      · simp only [Workflow.buildTargets_run]
  | fetch installer targets =>
      obtain ⟨last, hlookups, hout⟩ :=
        Workflow.fetchMissingParts_lookups installer targets (e.resolver c) (e.opened w)
      refine ⟨last, hlookups, ?_, ?_⟩
      · simp only [hout]
      · simp only [hout, World.requests]

/-- Every request that an errand sends, once its installer is done, is one of its lookups
for a part. -/
theorem run_requests (e : Errand) (c : Cache) (w : World) :
    (e.run c w).requests = (e.ready w).requests ++ (e.lookups c w).flatMap Lookup.sent ∧
      ∀ l ∈ e.lookups c w, ∀ request ∈ l.sent, e.catalog.Queries l.id request := by
  obtain ⟨last, hlookups, -, hrequests⟩ := e.run_lookups c w
  rw [hrequests, hlookups.requests_eq]
  refine ⟨rfl, fun l hl request hrequest => ?_⟩
  rw [hlookups.eq_lookup l hl] at hrequest
  exact (Resolver.lookup_sent l.id l.seen).2 request hrequest

theorem run_unlinked (e : Errand) (hlinks : c.Unlinked (w.disk.makeDirs c.dir).2)
    (hspared : c.Spared w.disk (e.ready w).disk) :
    c.Unlinked ((e.run c w).disk.makeDirs c.dir).2 := by
  obtain ⟨last, hlookups, hdisk, -⟩ := e.run_lookups c w
  rw [hdisk]
  exact hlookups.unlinked (hspared.unlinked hlinks)

theorem after_append (before rest : List Errand) :
    after c (before ++ rest) w = after c rest (after c before w) := by
  induction before generalizing w with
  | nil => rfl
  | cons e before ih => exact ih

theorem trail_append (before rest : List Errand) :
    trail c (before ++ rest) w = trail c before w ++ trail c rest (after c before w) := by
  induction before generalizing w with
  | nil => rfl
  | cons e before ih => simp only [List.cons_append, trail, after, ih, List.append_assoc]

/-- A part that loads before errands is served in all of their lookups. -/
theorem trail_served (hnever : c.shallRefresh = Freshness.never)
    (hlinks : c.Unlinked (w.disk.makeDirs c.dir).2) (hspare : Spare c errands w)
    (hread : ReadBack (trail c errands w)) {id : PartId} {a : CachedArtifact}
    (hload : c.load w.disk id = .ok a) : ∀ l ∈ trail c errands w, l.id = id → l.Served a := by
  induction errands generalizing w with
  | nil => simp [trail]
  | cons e rest ih =>
      obtain ⟨hreadFirst, hreadRest⟩ := hread.of_append
      obtain ⟨last, hlookups, hdisk, -⟩ := e.run_lookups c w
      obtain ⟨hlast, hfirst⟩ := hlookups.served hnever (hspare.1.unlinked hlinks) hreadFirst
        (hspare.1.load hload)
      rw [← hdisk] at hlast
      have hrest := ih (e.run_unlinked hlinks hspare.1) hspare.2 hreadRest hlast
      intro l hl hid
      rcases List.mem_append.mp hl with hl | hl
      · exact hfirst l hl hid
      · exact hrest l hl hid

/-- A part that was had in a lookup is served in all later ones, in the same errand and in
others. -/
theorem trail_served_after (hnever : c.shallRefresh = Freshness.never)
    (hlinks : c.Unlinked (w.disk.makeDirs c.dir).2) (hspare : Spare c errands w)
    (hread : ReadBack (trail c errands w)) {before later : List Lookup} {l : Lookup}
    (htrail : trail c errands w = before ++ l :: later) {a : CachedArtifact} (hhad : l.Had a) :
    ∀ l' ∈ later, l'.id = l.id → l'.Served a := by
  induction errands generalizing w before with
  | nil => simp [trail] at htrail
  | cons e rest ih =>
      obtain ⟨hreadFirst, hreadRest⟩ := hread.of_append
      have hlinksRest := e.run_unlinked hlinks hspare.1
      rcases List.append_eq_append_iff.mp htrail with ⟨more, -, hmore⟩ | ⟨more, hfirst, hmore⟩
      · exact ih hlinksRest hspare.2 hreadRest hmore
      · cases more with
        | nil =>
            have hrest : trail c rest (e.run c w) = [] ++ l :: later := by simpa using hmore.symm
            exact ih hlinksRest hspare.2 hreadRest hrest
        | cons m more =>
            obtain ⟨rfl, rfl⟩ : l = m ∧ later = more ++ trail c rest (e.run c w) := by
              simpa using hmore
            obtain ⟨last, hlookups, hdisk, -⟩ := e.run_lookups c w
            rw [hfirst] at hlookups hreadFirst
            obtain ⟨hlast, hlater⟩ :=
              hlookups.served_after hnever (hspare.1.unlinked hlinks) hreadFirst hhad
            rw [← hdisk] at hlast
            have hrest := trail_served hnever hlinksRest hspare.2 hreadRest hlast
            intro l' hl' hid
            rcases List.mem_append.mp hl' with hl' | hl'
            · exact hlater l' hl' hid
            · exact hrest l' hl' hid

theorem fulfils_of_any {e : Errand} {installer : Installer} {targets : List BuildTarget}
    (hcall : e.call = .fetch installer targets)
    (h : (Workflow.fetchMissingParts installer targets (e.resolver c).work
      (e.opened w)).1.toOption.any Report.isSuccess = true) : e.Fulfils c w targets := by
  obtain ⟨report, hreport, hsuccess⟩ := (Option.any_eq_true _ _).mp h
  exact ⟨installer, report, hcall, eq_ok_of_toOption hreport, hsuccess⟩

theorem Fulfils.had {e : Errand} {targets : List BuildTarget} (h : e.Fulfils c w targets) :
    ∀ t ∈ targets, ∀ id ∈ t.parts, ∃ l ∈ e.lookups c w, l.id = id ∧ ∃ a, l.Had a := by
  obtain ⟨installer, report, hcall, hreport, hsuccess⟩ := h
  intro t ht id hid
  obtain ⟨l, hl, hlid, hobtained⟩ := Workflow.tour_obtained hreport hsuccess t ht id hid
  refine ⟨l, ?_, hlid, l.exists_had hobtained⟩
  simpa only [lookups, hcall] using hl

/-- While no artifact has to be refreshed, and no installer writes into the cache, each part is
fetched at most once, whatever the gate and the catalog say from errand to errand. Requests for
parts are sent by lookups alone. A part that loads at first is served in every lookup, and one that
was had in a lookup is served in all later ones, with the same artifact; so fetching again, after
fetching for the same targets was a success, sends no request for a part. -/
theorem fetched_once (hnever : c.shallRefresh = Freshness.never)
    (hlinks : c.Unlinked (w.disk.makeDirs c.dir).2) (hspare : Spare c errands w)
    (hread : ReadBack (trail c errands w)) :
    (∀ (before : List Errand) (e : Errand) (rest : List Errand), errands = before ++ e :: rest →
      let v := after c before w
      (e.run c v).requests = (e.ready v).requests ++ (e.lookups c v).flatMap Lookup.sent ∧
        ∀ l ∈ e.lookups c v, ∀ request ∈ l.sent, e.catalog.Queries l.id request) ∧
    (∀ id a, c.load w.disk id = .ok a → ∀ l ∈ trail c errands w, l.id = id → l.Served a) ∧
    (∀ before l later, trail c errands w = before ++ l :: later →
      ∀ a, l.Had a → ∀ l' ∈ later, l'.id = l.id → l'.Served a) ∧
    ∀ (before between rest : List Errand) (e again : Errand) (targets : List BuildTarget)
      (installer : Installer), errands = before ++ e :: (between ++ again :: rest) →
      e.Fulfils c (after c before w) targets → again.call = .fetch installer targets →
      let v := after c (before ++ e :: between) w
      (again.run c v).requests = (again.ready v).requests := by
  refine ⟨fun before e rest _ => e.run_requests c _,
    fun id a hload => trail_served hnever hlinks hspare hread hload,
    fun before l later htrail a hhad =>
      trail_served_after hnever hlinks hspare hread htrail hhad, ?_⟩
  intro before between rest e again targets installer hsplit hfulfils hcall v
  rw [(again.run_requests c v).1]
  have hnothing : ∀ l' ∈ again.lookups c v, l'.sent = [] := by
    intro l' hl'
    obtain ⟨t, ht, hpart⟩ : ∃ t ∈ targets, l'.id ∈ t.parts := by
      apply Workflow.id_mem_of_tour installer targets (again.resolver c) (again.opened v)
      simpa only [lookups, hcall] using hl'
    obtain ⟨l, hl, hid, a, hhad⟩ := hfulfils.had t ht l'.id hpart
    obtain ⟨first, others, hlookups⟩ := List.append_of_mem hl
    have hv : after c between (e.run c (after c before w)) = v := by
      simp only [v, after_append, after]
    have htrail : trail c errands w = (trail c before w ++ first) ++ l :: (others ++
        (trail c between (e.run c (after c before w)) ++
          (again.lookups c v ++ trail c rest (again.run c v)))) := by
      rw [hsplit, trail_append, trail, trail_append, trail, hv, hlookups]
      simp only [List.append_assoc, List.cons_append]
    apply Lookup.sent_eq_nil_of_served (a := a)
    apply trail_served_after hnever hlinks hspare hread htrail hhad l' _ hid.symm
    simp [hl']
  rw [List.flatMap_eq_nil_iff.mpr hnothing, List.append_nil]

/-- Two targets share a part. After fetching for them and one more lookup under a closed gate,
fetching for them again sends nothing, though the catalog would not answer any more. -/
theorem fetched_once_for_two_targets :
    let w : World := ⟨⟨[(["c"], .dir)], []⟩, false, fun _ => ⟨0, 0⟩, Listing.asStored, []⟩
    let c : Cache := ⟨⟨"/c"⟩, Freshness.never⟩
    let catalog : Catalog := ⟨"http://depot", fun _ => true,
      fun sent _ => if sent < 1 then .answer 200 "null".toUTF8 else .broken⟩
    let shared : PartId := ⟨"C1", by decide, by decide⟩
    let installer : Installer := ⟨pure [], pure ()⟩
    let targets : List BuildTarget := [⟨"app", none, [shared]⟩, ⟨"lib", none, [shared]⟩]
    let first : Errand := ⟨true, catalog, .fetch installer targets⟩
    let lookup : Errand := ⟨true, catalog, .resolve shared⟩
    let v := after c [first, lookup] w
    (first.run c w).requests.length = 1 ∧ (first.run c v).requests = v.requests := by
  intro w c catalog shared installer targets first lookup v
  have hlinks : ∀ q, w.disk.NoLink q := Disk.noLink_of_nodes (by simp [w])
  have hready (u : World) : (first.ready u).disk = u.disk ∧ (first.ready u).requests = u.requests ∧
      (lookup.ready u).disk = u.disk := ⟨rfl, rfl, rfl⟩
  have hspare : Spare c [first, lookup, first] w := by
    refine ⟨?_, ?_, ?_, trivial⟩
    · rw [(hready _).1]
      exact .refl _
    · rw [(hready _).2.2]
      exact .refl _
    · rw [(hready _).1]
      exact .refl _
  have hread : ReadBack (trail c [first, lookup, first] w) := by
    apply readBack_of_null
    decide +kernel
  have hfulfils : first.Fulfils c w targets := by
    refine fulfils_of_any (show first.call = .fetch installer targets from rfl) ?_
    decide +kernel
  have hcount : (first.run c w).requests.length = 1 := by decide +kernel
  have hnever : c.shallRefresh = Freshness.never := rfl
  have hcall : first.call = .fetch installer targets := rfl
  refine ⟨hcount, ?_⟩
  -- What these values are is not needed any more, and would be evaluated again.
  clear_value w c first lookup
  have hagain := (fetched_once hnever (Cache.unlinked_of_linkless hlinks) hspare hread).2.2.2 []
    [lookup] [] first first targets installer rfl hfulfils hcall
  exact hagain.trans (hready v).2.1

end Errand

end PartDepot
