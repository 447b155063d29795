import PartDepot.Proofs.Course
import PartDepot.Proofs.Stores

/-!
# Decisions of a resolver

What a resolver does about a part, for any source: what loads and need not be refreshed is served;
the rest is blocked under a closed gate, and asked for once and stored under an open one.  Whatever
goes wrong then, no entry of the cache is lost.
-/

namespace PartDepot

theorem CachedArtifact.parse_eq_some_null {text : String} {id : PartId} {time : Timestamp}
    (h : ((parse text).any fun a =>
      a.partId = id && a.fetchedAt = time && a.payload matches .null) = true) :
    parse text = some ⟨id, time, .null⟩ := by
  cases hparse : parse text with
  | none => simp [hparse] at h
  | some a =>
      obtain ⟨part, fetched, payload⟩ := a
      cases payload <;> simp_all

namespace Cache

variable {c : Cache} {d : Disk} {id : PartId} {a : CachedArtifact}

/-! ## What loads -/

/-- The artifact that the entry of a part holds, if it can be read. -/
def artifact? (c : Cache) (d : Disk) (id : PartId) : Option CachedArtifact :=
  (c.entry? d id).bind fun content => (String.fromUTF8? content).bind CachedArtifact.parse

theorem load_toOption (c : Cache) (d : Disk) (id : PartId) :
    (c.load d id).toOption = c.artifact? d id := by
  unfold load artifact? entry?
  rcases hfind : d.find true (c.entryPath id) with fault | s
  · cases fault <;> simp [Disk.readText, Disk.read, hfind, bind, Except.bind, Except.toOption]
  · rcases s with ⟨q, n⟩ | q
    · cases n with
      | file content =>
          dsimp only
          rw [readText_of_file hfind]
          cases htext : String.fromUTF8? content with
          | none => simp [htext, Except.toOption]
          | some text =>
              cases hparse : CachedArtifact.parse text <;> simp [htext, hparse, Except.toOption]
      | dir | link target =>
          simp [Disk.readText, Disk.read, hfind, bind, Except.bind, Except.toOption]
    · simp [Disk.readText, Disk.read, hfind, bind, Except.bind, Except.toOption]

theorem load_eq_ok_iff : c.load d id = .ok a ↔ c.artifact? d id = some a := by
  rw [← load_toOption]
  cases c.load d id <;> simp [Except.toOption]

theorem status_eq_fresh_iff : c.status d id = .fresh a ↔
    c.load d id = .ok a ∧ c.shallRefresh a = false := by
  rw [status_eq, load_eq_ok_iff]
  unfold statusOf artifact?
  cases c.entry? d id with
  | none => simp
  | some content =>
      dsimp only [Option.bind_some]
      cases String.fromUTF8? content with
      | none => simp
      | some text =>
          dsimp only [Option.bind_some]
          cases CachedArtifact.parse text with
          | none => simp
          | some b =>
              cases hrefresh : c.shallRefresh b
              all_goals
                simp only [hrefresh, Bool.false_eq_true, if_true, if_false, reduceCtorEq,
                  Option.some.injEq, Status.fresh.injEq, false_iff]
              · exact ⟨fun h => ⟨h, h ▸ hrefresh⟩, fun h => h.1⟩
              · rintro ⟨rfl, haccepted⟩
                simp [hrefresh] at haccepted

theorem isFresh_iff : c.isFresh d id = true ↔
    ∃ a, c.load d id = .ok a ∧ c.shallRefresh a = false := by
  simp only [← status_eq_fresh_iff]
  unfold isFresh
  cases c.status d id <;> simp

/-! ## What a store leaves alone -/

/-- The entries of some parts are as before, and with them whatever else lies anywhere. An entry can
come to light that was there, but behind a directory that was missing on the way to the cache; and
such directories are all that is new. -/
structure Undisturbed (c : Cache) (kept : PartId → Prop) (d d' : Disk) : Prop where
  entry : ∀ id, kept id → c.entry? d' id = c.entry? d id ∨
    c.entry? d id = none ∧ d.makeDirs c.dir ≠ (none, d)
  node : ∀ q, (∀ id, q.getLast? = some (entryName id) → kept id) →
    d'.node? q = d.node? q ∨ d.node? q = none ∧ d'.node? q = some .dir

/-- No entry of the cache is a link. -/
def Unlinked (c : Cache) (d : Disk) : Prop :=
  ∀ id place target, d.find false (c.entryPath id) ≠ .ok (.taken place (.link target))

theorem entry?_of_extends {d' : Disk} (h : d.Extends d') {content : ByteArray}
    (hentry : c.entry? d id = some content) : c.entry? d' id = some content := by
  unfold entry? at hentry
  split at hentry
  · next place found hfind =>
      obtain rfl := Option.some.inj hentry
      unfold entry?
      rw [h.find hfind]
  · simp at hentry

theorem undisturbed_makeDirs (c : Cache) (d : Disk) (kept : PartId → Prop) :
    c.Undisturbed kept d (d.makeDirs c.dir).2 where
  entry id _ := by
    cases hentry : c.entry? d id with
    | some content => exact .inl (entry?_of_extends (d.makeDirs_extends c.dir) hentry)
    | none =>
        by_cases hstands : d.makeDirs c.dir = (none, d)
        · rw [hstands]
          exact .inl hentry
        · exact .inr ⟨rfl, hstands⟩
  node q _ := d.node?_makeDirs c.dir q

/-- A disk without links has none in the cache, also when the cache directory is made. -/
theorem unlinked_of_linkless (h : ∀ q target, d.node? q ≠ some (.link target)) :
    c.Unlinked (d.makeDirs c.dir).2 := by
  intro id place target hfind
  have hnode := (find_shows hfind).node
  rcases d.node?_makeDirs c.dir place with hsame | ⟨-, hdir⟩
  · exact h place target (hsame.symm.trans hnode)
  · simp [hdir, Disk.Spot.node?, Disk.Spot.place] at hnode

theorem Unlinked.plain (h : c.Unlinked (d.makeDirs c.dir).2) : c.Plain (d.makeDirs c.dir).2 where
  unlinked := h
  unveiled id place n hfind := by
    rw [d.makeDirs_again] at hfind
    exact hfind

theorem store_eq_ok_iff {w : World} :
    (c.store id a w).1 = .ok () ↔ c.canStore w.disk id = true := by
  rw [store_apply, stored_isNone]
  cases c.canStore w.disk id <;> simp

/-- A store that fails has at most made the cache directory. -/
theorem store_failed {w w' : World} {e : FetchError} (h : c.store id a w = (.error e, w')) :
    e = .cacheWrite (c.entryPath id) ∧ c.Undisturbed (fun _ => True) w.disk w'.disk := by
  rw [store_apply, Prod.mk.injEq] at h
  obtain ⟨hresult, rfl⟩ := h
  rcases c.stored_cases w.disk id a.render.toUTF8 with
    ⟨-, hfault, hdisk⟩ | ⟨made, s, -, -, -, -, hstored⟩
  · rw [hfault] at hresult
    refine ⟨(Except.error.inj hresult).symm, ?_⟩
    rw [hdisk]
    exact c.undisturbed_makeDirs w.disk _
  · rw [hstored] at hresult
    simp at hresult

/-- A store that succeeds makes the entry hold the artifact, and touches no other entry. -/
theorem store_succeeded {w w' : World} (h : c.store id a w = (.ok (), w'))
    (hlinks : c.Unlinked (w.disk.makeDirs c.dir).2) :
    c.entry? w'.disk id = some a.render.toUTF8 ∧
      c.Undisturbed (· ≠ id) w.disk w'.disk := by
  rw [store_apply, Prod.mk.injEq] at h
  obtain ⟨hresult, rfl⟩ := h
  have hdirs := c.undisturbed_makeDirs w.disk (· ≠ id)
  have hplain := hlinks.plain
  rcases c.stored_cases w.disk id a.render.toUTF8 with
    ⟨-, hfault, -⟩ | ⟨made, s, hmake, hmade, hs, -, hstored⟩
  · rw [hfault] at hresult
    simp at hresult
  · rw [hmake] at hdirs hplain
    rw [hstored]
    refine ⟨hplain.entry?_put_self hs _ hmade, fun other hother => ?_, fun q hq => ?_⟩
    · rw [hplain.entry?_put_other hs _ hmade hother]
      exact hdirs.entry other hother
    · rw [Disk.node?_put (hplain.takesFile hs).1, if_neg]
      · exact hdirs.node q hq
      · rintro rfl
        exact hq id (find_shows hs.1).last rfl

/-- Looking at an entry adds at most a note to the journal, and none about a fresh entry. -/
theorem check_notes {ε : Type} (c : Cache) (id : PartId) (w : World) :
    ∃ told, (c.check id : Act ε _) w = (.ok (c.status w.disk id), told) ∧ w.Notes told ∧
      ∀ a, c.status w.disk id = .fresh a → told = w := by
  unfold check
  rw [Act.bind_apply]
  simp only [Act.look]
  cases hstatus : c.status w.disk id with
  | unusable e =>
      refine ⟨_, rfl, World.Notes.record w ?_, ?_⟩
      · simp
      · simp
  | absent | stale | fresh => exact ⟨w, rfl, World.Notes.refl w, fun _ _ => rfl⟩

end Cache

/-! ## What a resolver does -/

namespace Resolver

variable (r : Resolver) (id : PartId) {w : World}

theorem resolve_of_accepted {a : CachedArtifact} (hload : r.cache.load w.disk id = .ok a)
    (haccept : r.cache.shallRefresh a = false) : r.resolve id w = (.ok (.hit a), w) := by
  obtain ⟨told, hcheck, -, htold⟩ := r.cache.check_notes (ε := FetchError) id w
  have hstatus := Cache.status_eq_fresh_iff.mpr ⟨hload, haccept⟩
  obtain rfl := htold a hstatus
  unfold resolve
  rw [Act.bind_of_ok hcheck, hstatus]
  rfl

theorem resolve_of_refused
    (hrefuse : ∀ a, r.cache.load w.disk id = .ok a → r.cache.shallRefresh a = true) :
    ∃ told, w.Notes told ∧
      r.resolve id w = if w.offline then (.ok (.blocked id), told) else r.fetch id told := by
  obtain ⟨told, hcheck, hnotes, -⟩ := r.cache.check_notes (ε := FetchError) id w
  refine ⟨told, hnotes, ?_⟩
  unfold resolve
  rw [Act.bind_of_ok hcheck, ← hnotes.offline_eq]
  cases hstatus : r.cache.status w.disk id with
  | fresh a =>
      obtain ⟨hload, haccept⟩ := Cache.status_eq_fresh_iff.mp hstatus
      simp [hrefuse a hload] at haccept
  | absent | unusable e | stale a =>
      cases hgate : told.offline <;> simp [Act.bind_apply, Act.look, Act.pure_apply, hgate]

theorem fetch_of_error {v left : World} {e : FetchError} (h : r.source id v = (.error e, left)) :
    r.fetch id v = (.error e, left) := by
  unfold fetch
  exact Act.bind_of_error h _

/-- What the source says is stored under the time at which it was said. -/
theorem fetch_of_ok {v left : World} {payload : Json} (h : r.source id v = (.ok payload, left)) :
    let a : CachedArtifact := ⟨id, left.clock 0, payload⟩
    let later : World := { left with clock := fun n => left.clock (n + 1) }
    r.fetch id v = ((r.cache.store id a later).1.map fun _ => .fetched a,
      (r.cache.store id a later).2) := by
  intro a later
  unfold fetch
  rw [Act.bind_of_ok h, Act.now_bind]
  rcases hstore : r.cache.store id a later with ⟨e | done, w'⟩
  · exact Act.bind_of_error hstore _
  · exact Act.bind_of_ok hstore _

/-- What asking the source comes to, by what it said and the world it left. Its error is
passed on. What it says is stored under the time at which it was said: if that fails, every
entry is as the source left it; and if it works every other entry is, and the entry loads,
provided that the text of the artifact reads back. -/
inductive Asked (r : Resolver) (id : PartId) :
    Except FetchError Json × World → Except FetchError Resolution × World → Prop
  | failed {e : FetchError} {left : World} : Asked r id (.error e, left) (.error e, left)
  | unstored {payload : Json} {left : World} {e : FetchError} {d : Disk} :
      (r.cache.store id ⟨id, left.clock 0, payload⟩ left).1 = .error e →
      r.cache.Undisturbed (fun _ => True) left.disk d →
      Asked r id (.ok payload, left)
        (.error (.cacheWrite (r.cache.entryPath id)),
          { left with clock := fun n => left.clock (n + 1), disk := d })
  | stored {payload : Json} {left : World} {a : CachedArtifact} {d : Disk} :
      a = ⟨id, left.clock 0, payload⟩ → (r.cache.store id a left).1 = .ok () →
      (r.cache.Unlinked (left.disk.makeDirs r.cache.dir).2 →
        (CachedArtifact.parse a.render = some a → r.cache.load d id = .ok a) ∧
          r.cache.Undisturbed (· ≠ id) left.disk d) →
      Asked r id (.ok payload, left)
        (.ok (.fetched a), { left with clock := fun n => left.clock (n + 1), disk := d })

theorem fetch_asked (r : Resolver) (id : PartId) (v : World) :
    r.Asked id (r.source id v) (r.fetch id v) := by
  rcases hsource : r.source id v with ⟨e | payload, left⟩
  · rw [r.fetch_of_error id hsource]
    exact .failed
  rw [r.fetch_of_ok id hsource]
  generalize ha : CachedArtifact.mk id (left.clock 0) payload = a
  let later : World := { left with clock := fun n => left.clock (n + 1) }
  have hstore : r.cache.store id a later =
      ((r.cache.store id a left).1, { later with disk := (r.cache.store id a later).2.disk }) := by
    rw [Cache.store_apply, Cache.store_apply]
  rw [hstore]
  rcases hresult : (r.cache.store id a left).1 with e | done
  · rw [hresult] at hstore
    obtain ⟨rfl, hkept⟩ := Cache.store_failed hstore
    subst ha
    exact .unstored hresult hkept
  · rw [hresult] at hstore
    refine .stored ha.symm hresult fun hlinks => ?_
    obtain ⟨hentry, hkept⟩ := Cache.store_succeeded hstore hlinks
    refine ⟨fun hread => ?_, hkept⟩
    rw [Cache.load_eq_ok_iff, Cache.artifact?, hentry, Option.bind_some, Cache.fromUTF8?_toUTF8,
      Option.bind_some, hread]

/-- A resolver decides by the entry of a part and by the gate, and does what it decided and nothing
else. What loads and is not refused is served, whatever the gate says. The rest is blocked by a
closed gate; under an open one the source is asked, once. -/
theorem resolve_decides (r : Resolver) (id : PartId) (w : World) :
    (∀ a, r.cache.load w.disk id = .ok a → r.cache.shallRefresh a = false →
      r.resolve id w = (.ok (.hit a), w)) ∧
    ((∀ a, r.cache.load w.disk id = .ok a → r.cache.shallRefresh a = true) →
      ∃ told, w.Notes told ∧
        (w.offline = true → r.resolve id w = (.ok (.blocked id), told)) ∧
        (w.offline = false → r.Asked id (r.source id told) (r.resolve id w))) ∧
    r.partData id w =
      ((r.resolve id w).1.bind Resolution.artifact, (r.resolve id w).2) := by
  refine ⟨fun a hload haccept => r.resolve_of_accepted id hload haccept, fun hrefuse => ?_, ?_⟩
  · obtain ⟨told, hnotes, hresolve⟩ := r.resolve_of_refused id hrefuse
    rw [hresolve]
    refine ⟨told, hnotes, fun hclosed => if_pos hclosed, fun hopen => ?_⟩
    rw [hopen, if_neg Bool.false_ne_true]
    exact r.fetch_asked id told
  · unfold partData
    rw [Act.bind_apply]
    rcases r.resolve id w with ⟨e | resolution, w'⟩ <;> rfl

/-- Of two entries one is sound and one is not. Under a closed gate the first is served and the
second is blocked; under an open one the second is repaired. -/
theorem resolve_sound_and_broken :
    let text := "part_id: C1\nfetched_at: 2024-01-02T03:04:05Z\npayload: null\n"
    let d : Disk := ⟨[(["c"], .dir), (["c", "C1.yaml"], .file text.toUTF8),
      (["c", "C2.yaml"], .file "part_id: [".toUTF8)], []⟩
    let w (offline : Bool) : World := ⟨d, offline, fun _ => ⟨0, 0⟩, Listing.asStored, []⟩
    let r : Resolver := ⟨⟨⟨"/c"⟩, Freshness.never⟩, fun _ w => (.ok .null, w)⟩
    let sound : PartId := ⟨"C1", by decide, by decide⟩
    let broken : PartId := ⟨"C2", by decide, by decide⟩
    (∃ a, r.resolve sound (w true) = (.ok (.hit a), w true)) ∧
      (∃ told, r.resolve broken (w true) = (.ok (.blocked broken), told) ∧ told.disk = d) ∧
      ∃ a left, r.resolve broken (w false) = (.ok (.fetched a), left) ∧
        r.cache.load left.disk broken = .ok a ∧
        r.cache.Undisturbed (· ≠ broken) d left.disk := by
  intro text d w r sound broken
  have hrefuse : ∀ a, r.cache.load d broken = .ok a → r.cache.shallRefresh a = true := by
    intro a hload
    have hnone : (r.cache.load d broken).toOption.isNone = true := by decide +kernel
    simp [hload, Except.toOption] at hnone
  have hlinkless : ∀ q target, d.node? q ≠ some (.link target) := by
    intro q target hq
    have hne : q ≠ [] := by
      rintro rfl
      simp [Disk.node?] at hq
    have hmem := Disk.mem_nodes_of_node? hne hq
    simp [d] at hmem
  refine ⟨?_, ?_, ?_⟩
  · have hsome : (r.cache.load d sound).toOption.isSome = true := by decide +kernel
    cases hload : r.cache.load d sound with
    | error e => simp [hload, Except.toOption] at hsome
    | ok a => exact ⟨a, (resolve_decides r sound (w true)).1 a hload rfl⟩
  · obtain ⟨told, ⟨notes, -, rfl⟩, hclosed, -⟩ := (resolve_decides r broken (w true)).2.1 hrefuse
    exact ⟨_, hclosed rfl, rfl⟩
  · have hcan : r.cache.canStore d broken = true := by decide +kernel
    have hread : CachedArtifact.parse (CachedArtifact.mk broken ⟨0, 0⟩ .null).render =
        some ⟨broken, ⟨0, 0⟩, .null⟩ := CachedArtifact.parse_eq_some_null (by decide +kernel)
    obtain ⟨told, hnotes, -, hopen⟩ := (resolve_decides r broken (w false)).2.1 hrefuse
    have hasked : r.Asked broken (.ok .null, told) (r.resolve broken (w false)) := hopen rfl
    have htold : told.disk = d ∧ told.clock 0 = ⟨0, 0⟩ := by
      obtain ⟨notes, -, rfl⟩ := hnotes
      exact ⟨rfl, rfl⟩
    -- What these values are is not needed any more, and would be evaluated again.
    clear_value w r broken sound d text
    obtain ⟨rfl, htime⟩ := htold
    rw [← htime] at hread
    rcases hresolve : r.resolve broken (w false) with ⟨result, left⟩
    rw [hresolve] at hasked
    cases hasked with
    | unstored hstore =>
        rw [Cache.store_eq_ok_iff.mpr hcan] at hstore
        simp at hstore
    | stored ha _ hkept =>
        obtain ⟨hload, hothers⟩ := hkept (Cache.unlinked_of_linkless hlinkless)
        subst ha
        exact ⟨_, _, rfl, hload hread, hothers⟩

end Resolver

end PartDepot
