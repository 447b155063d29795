import PartDepot.Proofs.Asking
import PartDepot.Proofs.ClosedGate
import PartDepot.Proofs.Targets

/-!
# The lookups of a run

A run over targets resolves one part after the other, and a target is given up at the first part
that fails.  The trail of a run lists its lookups, each with the world it found and the world it
left. Between two of them there are notes in the journal and nothing else, so whatever a run sends
or stores is sent or stored by one of its lookups.
-/

namespace PartDepot

/-- A resolution that was carried out. -/
structure Lookup where
  id : PartId
  seen : World
  result : Except FetchError Resolution
  left : World

namespace Lookup

/-- The artifact that was fetched and stored. -/
def stored? (l : Lookup) : Option CachedArtifact :=
  match l.result with
  | .ok (.fetched a) => some a
  | _ => none

/-- What was asked of the catalog. -/
def sent (l : Lookup) : List Request := l.left.requests.drop l.seen.requests.length

/-- The part came out of the cache, and nothing was done for it. -/
def Served (l : Lookup) (a : CachedArtifact) : Prop := l.result = .ok (.hit a) ∧ l.left = l.seen

theorem stored?_eq_some_iff {l : Lookup} {a : CachedArtifact} :
    l.stored? = some a ↔ l.result = .ok (.fetched a) := by
  unfold stored?
  split
  · next b hb => simp [hb]
  · next hno => simp only [reduceCtorEq, false_iff]; exact hno a

theorem sent_eq_nil_of_served {l : Lookup} {a : CachedArtifact} (h : l.Served a) : l.sent = [] := by
  simp [sent, h.2]

end Lookup

namespace Fanout

/-- The world in which the work on a target begins. -/
def entered (name : String) (w : World) : World :=
  (w.record (.began name w.offline)).record (.logged .info s!"Processing build '{name}'")

theorem entered_notes (name : String) (w : World) : w.Notes (entered name w) :=
  (World.Notes.record w (by simp)).trans (World.Notes.record _ (by simp))

theorem runOne_apply {ε : Type} (name : String) (work : Act (Halt Failure) Unit) (w : World) :
    (runOne name work w : Except ε (Option Failure) × World) = match work (entered name w) with
      | (.ok (), done) => (.ok none, done.record (.ended name))
      | (.error halt, done) => (.ok (some halt.failure),
          (done.record (.ended name)).record
            (.logged .error s!"Build '{name}' failed: {halt.failure.line}")) := by
  rcases hwork : work (entered name w) with ⟨result, done⟩
  unfold entered at hwork
  cases result with
  | ok _ => simp [runOne, Act.bind_apply, Act.pure_apply, Act.change, Act.log, Act.attempt, hwork]
  | error halt =>
      simp [runOne, Act.bind_apply, Act.map_apply, Act.change, Act.log, Act.attempt, hwork]

theorem runOne_entered (name : String) (work : Act (Halt Failure) Unit) (w : World) :
    ∃ left, (work (entered name w)).2.Notes left ∧ ∀ ε : Type, (runOne name work : Act ε _) w =
      (.ok (match (work (entered name w)).1 with
        | .ok () => none
        | .error halt => some halt.failure), left) := by
  simp only [runOne_apply]
  rcases work (entered name w) with ⟨_ | halt, done⟩
  · exact ⟨_, (World.Notes.record done (by simp)).trans (World.Notes.record _ (by simp)),
      fun _ => rfl⟩
  · exact ⟨_, World.Notes.record done (by simp), fun _ => rfl⟩

end Fanout

namespace Resolver

def lookup (r : Resolver) (id : PartId) (w : World) : Lookup :=
  ⟨id, w, (r.resolve id w).1, (r.resolve id w).2⟩

/-- The lookups of the parts of a target. -/
def trail (r : Resolver) : List PartId → World → List Lookup
  | [], _ => []
  | id :: rest, w =>
    r.lookup id w :: if (r.resolve id w).1.isOk then r.trail rest (r.resolve id w).2 else []

/-- The lookups of a run over targets. -/
def tour (r : Resolver) : List BuildTarget → World → List Lookup
  | [], _ => []
  | t :: rest, w =>
    r.trail t.parts (Fanout.entered t.name w) ++
      r.tour rest (Fanout.runOne t.name (r.work t) w : Except Empty _ × World).2

end Resolver

/-- One lookup after the other, from a world to a world, with notes between them. -/
inductive Lookups (r : Resolver) : World → List Lookup → World → Prop
  | done {w w' : World} : w.Notes w' → Lookups r w [] w'
  | next {w seen last : World} {id : PartId} {rest : List Lookup} : w.Notes seen →
      Lookups r (r.lookup id seen).left rest last → Lookups r w (r.lookup id seen :: rest) last

namespace Lookups

variable {r : Resolver} {w w' last : World} {lookups more : List Lookup}

theorem after_notes (h : w.Notes w') (hlookups : Lookups r w' lookups last) :
    Lookups r w lookups last := by
  cases hlookups with
  | done h' => exact .done (h.trans h')
  | next h' hrest => exact .next (h.trans h') hrest

theorem before_notes (hlookups : Lookups r w lookups w') (h : w'.Notes last) :
    Lookups r w lookups last := by
  induction hlookups with
  | done h' => exact .done (h'.trans h)
  | next h' _ ih => exact .next h' (ih h)

theorem append (h : Lookups r w lookups w') (h' : Lookups r w' more last) :
    Lookups r w (lookups ++ more) last := by
  induction h with
  | done hnotes => exact h'.after_notes hnotes
  | next hnotes _ ih => exact .next hnotes (ih h')

/-- Every lookup is a resolution in the world that it saw. -/
theorem eq_lookup (h : Lookups r w lookups last) : ∀ l ∈ lookups, l = r.lookup l.id l.seen := by
  induction h with
  | done => simp
  | next _ _ ih =>
      intro l hl
      rcases List.mem_cons.mp hl with rfl | hl
      · rfl
      · exact ih l hl

end Lookups

/-! ## Where the lookups of a run come from -/

namespace Resolver

variable (r : Resolver)

theorem trail_lookups (ids : List PartId) (w : World) :
    Lookups r w (r.trail ids w) (r.resolveAll ids w).2 := by
  induction ids generalizing w with
  | nil => exact .done (.refl w)
  | cons id ids ih =>
      have hrest := ih (r.resolve id w).2
      rw [trail, resolveAll_cons]
      rcases hfirst : r.resolve id w with ⟨e | first, v⟩
      · refine .next (.refl w) (.done ?_)
        rw [Act.bind_of_error hfirst]
        simp only [lookup, hfirst]
        exact .refl v
      · rw [hfirst] at hrest
        refine .next (.refl w) ?_
        rw [Act.bind_of_ok hfirst, Act.bind_pure_apply]
        simpa only [lookup, hfirst, Except.isOk, Except.toBool, if_true] using hrest

theorem id_mem_of_trail {ids : List PartId} {w : World} {l : Lookup} (h : l ∈ r.trail ids w) :
    l.id ∈ ids := by
  induction ids generalizing w with
  | nil => simp [trail] at h
  | cons id ids ih =>
      rcases List.mem_cons.mp h with rfl | h
      · exact List.mem_cons_self
      · split at h
        · exact List.mem_cons_of_mem _ (ih h)
        · simp at h

/-- Where nothing failed and nothing was blocked, every part was looked up and had. -/
theorem trail_obtained {ids : List PartId} {w : World}
    (h : (r.resolveAll ids w).1.toOption.any (·.2.isEmpty) = true) :
    ∀ id ∈ ids, ∃ l ∈ r.trail ids w, l.id = id ∧ Resolution.obtained l.result = true := by
  induction ids generalizing w with
  | nil => simp
  | cons id ids ih =>
      rw [resolveAll_cons] at h
      rcases hfirst : r.resolve id w with ⟨e | first, v⟩
      · simp [Act.bind_of_error hfirst, Except.toOption] at h
      rw [Act.bind_of_ok hfirst, Act.bind_pure_apply] at h
      rcases hothers : r.resolveAll ids v with ⟨e | others, u⟩
      · simp [hothers, Except.toOption, Except.map] at h
      rw [hothers] at h
      obtain ⟨hhad, hnone⟩ : Resolution.obtained (.ok first) = true ∧ others.2.isEmpty = true := by
        have hboth : (first.tally others).2.isEmpty = true := h
        rw [first.tally_isEmpty others] at hboth
        exact Bool.and_eq_true_iff.mp hboth
      have hrest := ih (w := v) (by rw [hothers]; exact hnone)
      have htrail : r.trail (id :: ids) w = r.lookup id w :: r.trail ids v := by
        simp [trail, hfirst, Except.isOk, Except.toBool]
      rw [htrail]
      intro other hother
      rcases List.mem_cons.mp hother with rfl | hother
      · exact ⟨_, List.mem_cons_self, rfl, by simpa [lookup, hfirst] using hhad⟩
      · obtain ⟨l, hl, hid, hobtained⟩ := hrest other hother
        exact ⟨l, List.mem_cons_of_mem _ hl, hid, hobtained⟩

theorem work_lookups (t : BuildTarget) (w : World) :
    Lookups r w (r.trail t.parts w) (r.work t w).2 ∧
      ((r.work t w).1 = .ok () → (r.resolveAll t.parts w).1.toOption.any (·.2.isEmpty) = true) := by
  have htrail := r.trail_lookups t.parts w
  unfold work build
  simp only [Act.mapError, Act.bind_apply]
  rcases hall : r.resolveAll t.parts w with ⟨e | ⟨fetched, blocked⟩, v⟩
  · rw [hall] at htrail
    exact ⟨htrail, by simp⟩
  · rw [hall] at htrail
    dsimp only
    cases hblocked : blocked.isEmpty with
    | false => exact ⟨htrail, by simp [Act.fail]⟩
    | true =>
        exact ⟨htrail.before_notes (World.Notes.record v (by simp)), fun _ => hblocked⟩

theorem tour_lookups {ε : Type} (targets : List BuildTarget) (w : World) :
    Lookups r w (r.tour targets w)
      (Fanout.run BuildTarget.name r.work targets w : Except ε _ × World).2 := by
  induction targets generalizing w with
  | nil => exact .done (.refl w)
  | cons t targets ih =>
      obtain ⟨left, hleft, hone⟩ := Fanout.runOne_entered t.name (r.work t) w
      have hfirst := ((r.work_lookups t (Fanout.entered t.name w)).1.before_notes hleft).after_notes
        (Fanout.entered_notes t.name w)
      have hrest := ih left
      unfold Fanout.run
      rw [tour, Act.bind_of_ok (hone ε), hone, Act.bind_pure_apply]
      exact hfirst.append hrest

theorem id_mem_of_tour {targets : List BuildTarget} {w : World} {l : Lookup}
    (h : l ∈ r.tour targets w) : ∃ t ∈ targets, l.id ∈ t.parts := by
  induction targets generalizing w with
  | nil => simp [tour] at h
  | cons t targets ih =>
      rcases List.mem_append.mp h with h | h
      · exact ⟨t, List.mem_cons_self, r.id_mem_of_trail h⟩
      · obtain ⟨u, hu, hid⟩ := ih h
        exact ⟨u, List.mem_cons_of_mem _ hu, hid⟩

/-- In a run in which no target failed, every part of every target was looked up and had. -/
theorem tour_obtained {ε : Type} {targets : List BuildTarget} {w : World}
    (h : (Fanout.run BuildTarget.name r.work targets w : Except ε _ × World).1 = .ok []) :
    ∀ t ∈ targets, ∀ id ∈ t.parts,
      ∃ l ∈ r.tour targets w, l.id = id ∧ Resolution.obtained l.result = true := by
  induction targets generalizing w with
  | nil => simp
  | cons t targets ih =>
      obtain ⟨left, -, hone⟩ := Fanout.runOne_entered t.name (r.work t) w
      unfold Fanout.run at h
      rw [Act.bind_of_ok (hone ε), Act.bind_pure_apply] at h
      rcases hrun : (Fanout.run BuildTarget.name r.work targets left : Except ε _ × World) with
        ⟨e | failures, u⟩
      · simp [hrun, Except.map] at h
      rw [hrun] at h
      obtain ⟨hfirst, hnone⟩ := List.append_eq_nil_iff.mp (Except.ok.inj h)
      have hrest := ih (w := left) (by rw [hrun, hnone])
      have hwork : (r.work t (Fanout.entered t.name w)).1 = .ok () := by
        cases hresult : (r.work t (Fanout.entered t.name w)).1 with
        | ok done => rfl
        | error halt => simp [hresult] at hfirst
      have hparts := r.trail_obtained ((r.work_lookups t _).2 hwork)
      intro u hu id hid
      rw [tour, hone]
      rcases List.mem_cons.mp hu with rfl | hu
      · obtain ⟨l, hl, h'⟩ := hparts id hid
        exact ⟨l, List.mem_append_left _ hl, h'⟩
      · obtain ⟨l, hl, h'⟩ := hrest u hu id hid
        exact ⟨l, List.mem_append_right _ hl, h'⟩

end Resolver

theorem Workflow.buildTargets_run {ε : Type} (targets : List BuildTarget) (work : Work BuildTarget)
    (w : World) : (buildTargets targets work w : Except ε Report × World) =
      ((Fanout.run BuildTarget.name work targets w : Except ε _ × World).1.map
          (⟨targets.length, ·⟩),
        (Fanout.run BuildTarget.name work targets w : Except ε _ × World).2) := by
  unfold buildTargets
  exact Act.bind_pure_apply _ _ w

namespace Workflow

/-- The lookups of fetching for targets; there are none if the installation ends it. -/
def tour (installer : Installer) (targets : List BuildTarget) (r : Resolver) (w : World) :
    List Lookup :=
  match prepare installer { w with offline := false } with
  | (.ok (), ready) => r.tour targets (ready.record (.logged .info "Fetching missing parts..."))
  | (.error _, _) => []

variable (installer : Installer) (targets : List BuildTarget) (r : Resolver) (w : World)

/-- All lookups of fetching come after the installation. -/
theorem fetchMissingParts_lookups :
    ∃ last, Lookups r (prepare installer { w with offline := false }).2
        (tour installer targets r w) last ∧
      (fetchMissingParts installer targets r.work w).2 = { last with offline := w.offline } := by
  have hrun : (fetchMissingParts installer targets r.work w).2 =
      { (fetchOpen installer targets r.work { w with offline := false }).2 with
        offline := w.offline } := rfl
  rw [hrun]
  unfold tour fetchOpen
  rcases hprepare : prepare installer { w with offline := false } with ⟨halt | done, ready⟩
  · rw [Act.bind_of_error hprepare]
    exact ⟨ready, .done (.refl ready), rfl⟩
  · let said := ready.record (.logged .info "Fetching missing parts...")
    have hsaid : ready.Notes said := World.Notes.record ready (by simp)
    have hlookups := (r.tour_lookups (ε := Halt FetchError) targets said).after_notes hsaid
    refine ⟨_, hlookups, ?_⟩
    rw [Act.bind_of_ok hprepare, Act.log_bind, buildTargets_run]

theorem id_mem_of_tour {l : Lookup} (h : l ∈ tour installer targets r w) :
    ∃ t ∈ targets, l.id ∈ t.parts := by
  unfold tour at h
  split at h
  · exact r.id_mem_of_tour h
  · simp at h

end Workflow

/-! ## What lookups ask for -/

namespace Catalog

/-- The request for a part. -/
def Queries (c : Catalog) (id : PartId) (r : Request) : Prop :=
  ∃ url address, c.segmentUrl ["v1", "parts", id.text] = .ok url ∧ Url.parse url = .ok address ∧
    r = requestFor address none

/-- What looking up a part can add to the journal. -/
inductive Consults (c : Catalog) (id : PartId) : Event → Prop
  | sent {r : Request} {offline : Bool} : c.Queries id r → Consults c id (.sent r offline)
  | fetching : Consults c id (.logged .info s!"Fetching part {id.text} from the catalog")
  | ignoring (e : FetchError) : Consults c id
      (.logged .warn s!"Ignoring unusable cache entry for {id.text}: {e.message}")

theorem Consults.queries {c : Catalog} {id : PartId} {r : Request} {offline : Bool}
    (h : c.Consults id (.sent r offline)) : c.Queries id r := by
  cases h with
  | sent h => exact h

variable (c : Catalog) (id : PartId)

theorem fetchPart_tells : (c.fetchPart id).Tells (c.Consults id) := by
  unfold fetchPart
  have hsegments : (c.getSegments ["v1", "parts", id.text]).Tells (c.Consults id) := by
    refine (c.getSegments_tells _).mono ?_
    rintro e ⟨url, hurl, ⟨haddress⟩⟩
    exact .sent ⟨url, _, hurl, haddress, rfl⟩
  exact (Act.tells_log .fetching).bind fun _ => hsegments.bind fun _ => Act.tells_ofExcept _

/-- An answer comes from one request. -/
theorem send_sent {url : String} {body : Option Json} {w left : World} {found : Nat × ByteArray}
    (h : c.send url body w = (.ok found, left)) :
    ∃ address, Url.parse url = .ok address ∧
      left.requests = w.requests ++ [requestFor address body] := by
  unfold send at h
  cases hparse : Url.parse url with
  | error flaw => simp [hparse, Act.fail] at h
  | ok address =>
      rw [hparse] at h
      dsimp only at h
      split at h
      · refine ⟨address, rfl, ?_⟩
        have hsent := w.requests_sent (requestFor address body) w.offline
        rw [Act.bind_apply] at h
        simp only [exchange] at h
        cases hreply : c.network.reply w.requests.length (requestFor address body) with
        | broken => simp [hreply, Act.fail] at h
        | answer status bytes =>
            rw [hreply] at h
            dsimp only at h
            split at h
            · rw [← (Prod.mk.inj h).2]
              exact hsent
            · simp [Act.fail] at h
      · simp [Act.fail] at h

theorem fetchPart_sent {w left : World} {payload : Json}
    (h : c.fetchPart id w = (.ok payload, left)) :
    ∃ r, c.Queries id r ∧ left.requests = w.requests ++ [r] := by
  let said := w.record (.logged .info s!"Fetching part {id.text} from the catalog")
  have hsaid : said.requests = w.requests := w.requests_logged _ _
  have hfetch : c.fetchPart id w =
      (c.getSegments ["v1", "parts", id.text] >>= fun response => Act.ofExcept response.json)
        said := rfl
  obtain ⟨response, last, hsegments, hjson⟩ := Act.bind_eq_ok (hfetch.symm.trans h)
  obtain rfl : last = left := (Prod.mk.inj hjson).2
  cases hgate : said.offline with
  | true =>
      rw [getSegments, ensureOnline_bind_offline _ _ hgate] at hsegments
      simp at hsegments
  | false =>
      rw [c.getSegments_open _ hgate] at hsegments
      cases hurl : c.segmentUrl ["v1", "parts", id.text] with
      | error e => simp [hurl] at hsegments
      | ok url =>
          rw [hurl] at hsegments
          obtain ⟨found, sent, hsend, hresponse⟩ := Act.bind_eq_ok hsegments
          obtain rfl : sent = last := (Prod.mk.inj hresponse).2
          obtain ⟨address, haddress, hrequests⟩ := c.send_sent hsend
          exact ⟨_, ⟨url, address, hurl, haddress, rfl⟩, hsaid ▸ hrequests⟩

end Catalog

section Catalog

variable {cache : Cache} {catalog : Catalog}

theorem Resolver.resolve_tells (cache : Cache) (catalog : Catalog) (id : PartId) :
    (Resolver.resolve ⟨cache, catalog.fetchPart⟩ id).Tells (catalog.Consults id) := by
  have hstore (a : CachedArtifact) : (cache.store id a).Tells (catalog.Consults id) :=
    (Act.tells_edit _ _).bind fun _ => Act.tells_edit _ _
  have hfetch : (Resolver.fetch ⟨cache, catalog.fetchPart⟩ id).Tells (catalog.Consults id) :=
    (catalog.fetchPart_tells id).bind fun _ => Act.tells_now.bind fun _ =>
      (hstore _).bind fun _ => Act.tells_pure _
  have hdecide : (do
      if ← Act.look (·.offline) then return Resolution.blocked id
      else Resolver.fetch ⟨cache, catalog.fetchPart⟩ id : Act FetchError Resolution).Tells
        (catalog.Consults id) := by
    refine (Act.tells_look _).bind fun offline => ?_
    cases offline with
    | true => exact Act.tells_pure _
    | false => exact hfetch
  unfold resolve Cache.check
  refine Act.Tells.bind ((Act.tells_look _).bind fun status => ?_) fun status => ?_
  · cases status with
    | unusable e => exact (Act.tells_log (.ignoring e)).bind fun _ => Act.tells_pure _
    | absent | stale | fresh => exact Act.tells_pure _
  · cases status with
    | fresh a => exact Act.tells_pure _
    | absent | stale | unusable => exact hdecide

/-- A lookup sends requests for its part alone. -/
theorem Resolver.lookup_sent (id : PartId) (w : World) :
    let l := Resolver.lookup ⟨cache, catalog.fetchPart⟩ id w
    l.left.requests = w.requests ++ l.sent ∧ ∀ request ∈ l.sent, catalog.Queries id request := by
  intro l
  obtain ⟨sent, hsent, hall⟩ :=
    (Resolver.resolve_tells cache catalog id).asks (fun _ _ he => he.queries) w
  have hl : l.left.requests = w.requests ++ sent := hsent
  have hdrop : l.sent = sent := by
    unfold Lookup.sent
    rw [hl]
    exact List.drop_left
  rw [hdrop]
  exact ⟨hl, hall⟩

/-- What a run over targets sends is what its lookups send. -/
theorem Lookups.requests_eq {w last : World} {lookups : List Lookup}
    (h : Lookups ⟨cache, catalog.fetchPart⟩ w lookups last) :
    last.requests = w.requests ++ lookups.flatMap Lookup.sent := by
  induction h with
  | done hnotes => simp [hnotes.requests_eq]
  | @next w seen last id rest hnotes _ ih =>
      rw [ih, (Resolver.lookup_sent id seen).1, hnotes.requests_eq, List.flatMap_cons,
        List.append_assoc]

/-- What a lookup stored was answered under an open gate to the one request that it sent. -/
theorem Resolver.lookup_stored {id : PartId} {w : World} {a : CachedArtifact}
    (h : (Resolver.lookup ⟨cache, catalog.fetchPart⟩ id w).stored? = some a) :
    w.offline = false ∧ a.partId = id ∧ catalog.answer? w.requests.length id = some a.payload ∧
      ∃ request, catalog.Queries id request ∧
        (Resolver.lookup ⟨cache, catalog.fetchPart⟩ id w).sent = [request] := by
  let r : Resolver := ⟨cache, catalog.fetchPart⟩
  have hresult : (r.resolve id w).1 = .ok (.fetched a) := Lookup.stored?_eq_some_iff.mp h
  have hresolves := Resolver.resolve_resolves cache catalog id w
  have hrefuse : ∀ b, cache.load w.disk id = .ok b → cache.shallRefresh b = true := by
    intro b hload
    cases haccept : cache.shallRefresh b with
    | true => rfl
    | false => simp [r.resolve_of_accepted id hload haccept] at hresult
  obtain ⟨told, hnotes, hresolve⟩ := r.resolve_of_refused id hrefuse
  have hanswer : w.offline = false ∧ a.partId = id ∧
      catalog.answer? w.requests.length id = some a.payload := by
    generalize hr : (Resolver.resolve ⟨cache, catalog.fetchPart⟩ id w).1 = result at hresolves
    generalize (Resolver.resolve ⟨cache, catalog.fetchPart⟩ id w).2 = v at hresolves
    obtain rfl : result = .ok (.fetched a) := hr.symm.trans hresult
    cases hresolves with
    | stored _ hopen hanswer _ _ => exact ⟨hopen, rfl, hanswer⟩
  obtain ⟨hopen, hid, hanswer⟩ := hanswer
  refine ⟨hopen, hid, hanswer, ?_⟩
  rw [hopen, if_neg Bool.false_ne_true] at hresolve
  have hasked := r.fetch_asked id told
  rw [← hresolve] at hasked
  rcases hsource : r.source id told with ⟨e | payload, left⟩
  · have hfetch := r.fetch_of_error id hsource
    rw [← hresolve] at hfetch
    simp [hfetch] at hresult
  · obtain ⟨request, hqueries, hrequests⟩ := catalog.fetchPart_sent id hsource
    have hleft : (r.resolve id w).2.requests = left.requests := by
      rw [hresolve, r.fetch_of_ok id hsource, Cache.store_apply]
      rfl
    refine ⟨request, hqueries, ?_⟩
    have hall : (r.lookup id w).left.requests = w.requests ++ [request] := by
      rw [← hnotes.requests_eq, ← hrequests]
      exact hleft
    unfold Lookup.sent
    rw [hall]
    exact List.drop_left

end Catalog

end PartDepot
