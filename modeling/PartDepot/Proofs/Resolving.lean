import PartDepot.Proofs.Entries
import PartDepot.Proofs.Frame

/-!
# The resolution of a part

What the catalog answers about a part, and all that resolving a part can come to: the cache has it,
it is blocked, the catalog does not answer, or the answer is stored or cannot be stored.
-/

namespace PartDepot

theorem eq_ok_of_toOption {ε α : Type} {x : Except ε α} {a : α} (h : x.toOption = some a) :
    x = .ok a := by
  cases x with
  | error e => simp [Except.toOption] at h
  | ok b => simpa [Except.toOption] using h

/-! ## Worlds with the same files -/

/-- Disk and gate are as before, and the clock may have gone on. -/
structure World.Still (w w' : World) : Prop where
  disk : w'.disk = w.disk
  offline : w'.offline = w.offline
  clock : ∃ k, ∀ n, w'.clock n = w.clock (n + k)

namespace World

instance : World.Frame Still where
  refl w := ⟨rfl, rfl, 0, fun _ => rfl⟩
  trans := by
    rintro u v w ⟨hdisk, hoffline, k, hk⟩ ⟨hdisk', hoffline', k', hk'⟩
    refine ⟨hdisk'.trans hdisk, hoffline'.trans hoffline, k' + k, fun n => ?_⟩
    rw [hk', hk, Nat.add_assoc]
  noted w e _ := ⟨rfl, rfl, 0, fun _ => rfl⟩
  ticked w := ⟨rfl, rfl, 1, fun _ => rfl⟩
  sent w r _ := ⟨rfl, rfl, 0, fun _ => rfl⟩

end World

/-! ## Answers -/

namespace Catalog

/-- The body of a successful answer to a question at a URL, when so many requests were sent
before. -/
def reply? (c : Catalog) (before : Nat) (url : String) : Option ByteArray :=
  match Url.parse url with
  | .error _ => none
  | .ok address =>
    if address.isHttp && c.network.connects address then
      match c.network.reply before (requestFor address none) with
      | .broken => none
      | .answer status bytes =>
        if 200 ≤ status ∧ status ≤ 299 then some (if status = 204 then ByteArray.empty else bytes)
        else none
    else none

/-- The JSON value that the catalog answers about a part. -/
def answer? (c : Catalog) (before : Nat) (id : PartId) : Option Json :=
  match c.segmentUrl ["v1", "parts", id.text] with
  | .error _ => none
  | .ok url => (c.reply? before url).bind fun bytes => Json.parse (Text.decodeLossy bytes)

theorem send_reply (c : Catalog) (url : String) (w : World) :
    (c.send url none w).1.toOption.map Prod.snd = c.reply? w.requests.length url := by
  unfold send reply?
  cases Url.parse url with
  | error flaw => rfl
  | ok address =>
      dsimp only
      split
      · rw [Act.bind_apply]
        simp only [exchange]
        cases c.network.reply w.requests.length (requestFor address none) with
        | broken => rfl
        | answer status bytes =>
            dsimp only
            split <;> rfl
      · rfl

theorem sendText_reply (c : Catalog) (url : String) (w : World) :
    (c.sendText url none w).1.toOption.map CatalogResponse.body =
      (c.reply? w.requests.length url).map Text.decodeLossy := by
  rw [← send_reply]
  unfold sendText
  rw [Act.bind_apply]
  rcases c.send url none w with ⟨_ | ⟨status, bytes⟩, w'⟩ <;> rfl

theorem getSegments_open (c : Catalog) (segments : List String) {w : World}
    (hopen : w.offline = false) :
    c.getSegments segments w = match c.segmentUrl segments with
      | .error e => (.error e, w)
      | .ok url => c.sendText url none w := by
  rw [getSegments, ensureOnline_bind_open _ _ hopen]
  cases c.segmentUrl segments <;> rfl

theorem fetchPart_answer (c : Catalog) (id : PartId) {w : World} (hopen : w.offline = false) :
    (c.fetchPart id w).1.toOption = c.answer? w.requests.length id := by
  let said := w.record (.logged .info s!"Fetching part {id.text} from the catalog")
  have hsaid : said.offline = false := hopen
  have hrequests : said.requests = w.requests := w.requests_logged _ _
  have hfetch : c.fetchPart id w =
      (c.getSegments ["v1", "parts", id.text] >>= fun response => Act.ofExcept response.json)
        said := rfl
  rw [hfetch, Act.bind_apply, c.getSegments_open _ hsaid, answer?]
  cases c.segmentUrl ["v1", "parts", id.text] with
  | error e => rfl
  | ok url =>
      have hbody := c.sendText_reply url said
      rw [hrequests] at hbody
      dsimp only
      rcases hsend : c.sendText url none said with ⟨e | response, w'⟩
      · rw [hsend] at hbody
        cases hreply : c.reply? w.requests.length url with
        | none => rfl
        | some bytes => simp [hreply, Except.toOption] at hbody
      · rw [hsend] at hbody
        cases hreply : c.reply? w.requests.length url with
        | none => simp [hreply, Except.toOption] at hbody
        | some bytes =>
            have htext : response.body = Text.decodeLossy bytes := by
              simpa [hreply, Except.toOption] using hbody
            simp only [Act.ofExcept, CatalogResponse.json, htext, Option.bind_some]
            cases Json.parse (Text.decodeLossy bytes) <;> rfl

end Catalog

/-! ## Resolutions -/

/-- All that resolving a part can come to. -/
inductive Resolves (cache : Cache) (catalog : Catalog) (id : PartId) (w : World) :
    Except FetchError Resolution → World → Prop
  | hit {a : CachedArtifact} {w' : World} : cache.isFresh w.disk id = true → w.Still w' →
      Resolves cache catalog id w (.ok (.hit a)) w'
  | blocked {w' : World} : cache.isFresh w.disk id = false → w.offline = true → w.Still w' →
      Resolves cache catalog id w (.ok (.blocked id)) w'
  | unanswered {e : FetchError} {w' : World} : cache.isFresh w.disk id = false →
      w.offline = false → catalog.answer? w.requests.length id = none → w.Still w' →
      Resolves cache catalog id w (.error e) w'
  | stored {payload : Json} {k : Nat} {w' : World} :
      cache.isFresh w.disk id = false → w.offline = false →
      catalog.answer? w.requests.length id = some payload →
      cache.canStore w.disk id = true → w.Still w' →
      Resolves cache catalog id w (.ok (.fetched ⟨id, w.clock k, payload⟩))
        { w' with
          disk :=
            (cache.stored w.disk id (CachedArtifact.mk id (w.clock k) payload).render.toUTF8).2 }
  | unstored {payload : Json} {a : CachedArtifact} {e : FetchError} {w' : World} :
      cache.isFresh w.disk id = false → w.offline = false →
      catalog.answer? w.requests.length id = some payload →
      cache.canStore w.disk id = false → w.Still w' →
      Resolves cache catalog id w (.error e)
        { w' with disk := (cache.stored w.disk id a.render.toUTF8).2 }

theorem Cache.check_apply {ε : Type} (c : Cache) (id : PartId) (w : World) :
    ∃ w', (c.check id : Act ε _) w = (.ok (c.status w.disk id), w') ∧ w.Still w' ∧
      w'.requests = w.requests := by
  unfold Cache.check
  rw [Act.look_bind]
  cases c.status w.disk id with
  | unusable e =>
      have hsaid := World.Frame.noted (R := World.Still) w
        (.logged .warn s!"Ignoring unusable cache entry for {id.text}: {e.message}") (by simp)
      exact ⟨_, rfl, hsaid, w.requests_logged _ _⟩
  | absent | stale | fresh => exact ⟨w, rfl, World.Frame.refl w, rfl⟩

theorem Cache.needsRefresh_eq {ε : Type} (c : Cache) (id : PartId) (w : World) :
    (c.needsRefresh id w : Except ε Bool × World).1 = .ok (!c.isFresh w.disk id) := by
  obtain ⟨w', hcheck, -, -⟩ := c.check_apply (ε := ε) id w
  unfold Cache.needsRefresh Cache.isFresh
  rw [Act.bind_of_ok hcheck]
  cases c.status w.disk id <;> rfl

theorem Resolver.fetch_resolves (cache : Cache) (catalog : Catalog) (id : PartId) {w v : World}
    (hstale : cache.isFresh w.disk id = false) (hopen : w.offline = false) (hv : w.Still v)
    (hrequests : v.requests = w.requests) :
    Resolves cache catalog id w (Resolver.fetch ⟨cache, catalog.fetchPart⟩ id v).1
      (Resolver.fetch ⟨cache, catalog.fetchPart⟩ id v).2 := by
  have hanswer := catalog.fetchPart_answer id (w := v) (hv.offline.trans hopen)
  have hstill : v.Still (catalog.fetchPart id v).2 := catalog.fetchPart_keeps id v
  rw [hrequests] at hanswer
  unfold Resolver.fetch
  rw [Act.bind_apply]
  dsimp only
  rcases hfetch : catalog.fetchPart id v with ⟨e | payload, u⟩
  · rw [hfetch] at hanswer hstill
    exact .unanswered hstale hopen hanswer.symm (World.Frame.trans hv hstill)
  · rw [hfetch] at hanswer hstill
    have hu : w.Still u := World.Frame.trans hv hstill
    have hticked : w.Still { u with clock := fun n => u.clock (n + 1) } :=
      World.Frame.trans hu (World.Frame.ticked u)
    obtain ⟨k, hk⟩ := hu.clock
    have htime : u.clock 0 = w.clock k := by simpa using hk 0
    simp only [Act.bind_apply, Act.now, Cache.store_apply, Cache.stored_isNone, hu.disk, htime]
    cases hcan : cache.canStore w.disk id with
    | false => exact .unstored hstale hopen hanswer.symm hcan hticked
    | true => exact .stored hstale hopen hanswer.symm hcan hticked

theorem Resolver.resolve_resolves (cache : Cache) (catalog : Catalog) (id : PartId) (w : World) :
    Resolves cache catalog id w (Resolver.resolve ⟨cache, catalog.fetchPart⟩ id w).1
      (Resolver.resolve ⟨cache, catalog.fetchPart⟩ id w).2 := by
  obtain ⟨v, hcheck, hv, hrequests⟩ := cache.check_apply (ε := FetchError) id w
  have hopen (hstale : cache.isFresh w.disk id = false) :
      Resolves cache catalog id w ((do
          if ← Act.look (·.offline) then return Resolution.blocked id
          else Resolver.fetch ⟨cache, catalog.fetchPart⟩ id : Act FetchError Resolution) v).1
        ((do
          if ← Act.look (·.offline) then return Resolution.blocked id
          else Resolver.fetch ⟨cache, catalog.fetchPart⟩ id : Act FetchError Resolution) v).2 := by
    rw [Act.bind_apply]
    simp only [Act.look, hv.offline]
    cases hgate : w.offline with
    | true => exact .blocked hstale hgate hv
    | false => exact Resolver.fetch_resolves cache catalog id hstale hgate hv hrequests
  unfold Resolver.resolve
  rw [Act.bind_of_ok hcheck]
  cases hstatus : cache.status w.disk id with
  | fresh a =>
      have hfresh : cache.isFresh w.disk id = true := by
        unfold Cache.isFresh
        rw [hstatus]
      exact .hit hfresh hv
  | absent | unusable | stale =>
      apply hopen
      unfold Cache.isFresh
      rw [hstatus]

end PartDepot
