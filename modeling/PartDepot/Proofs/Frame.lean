import PartDepot.Workflow

/-!
# What actions keep

An action keeps a relation between worlds if the world before it and the world after it are always
so related, however the action ends.  A relation that holds of doing nothing and of one thing after
the other is kept by whatever is put together from actions that keep it; the lemmas say so for each
function of the library, and leave what it does to the disk as a premise.
-/

namespace PartDepot

/-- A relation between worlds that holds of doing nothing, of one thing after the other, of notes in
the journal, of looking at the clock, and of requests under an open gate. -/
class World.Frame (R : World → World → Prop) : Prop where
  refl : ∀ w, R w w
  trans : ∀ {u v w}, R u v → R v w → R u w
  noted : ∀ (w : World) (e : Event), (∀ request offline, e ≠ .sent request offline) →
    R w (w.record e)
  ticked : ∀ w : World, R w { w with clock := fun n => w.clock (n + 1) }
  sent : ∀ (w : World) (r : Request), w.offline = false → R w (w.record (.sent r w.offline))

namespace Act

variable {R : World → World → Prop} {ε ε' α β : Type}

/-- Whatever the action does, the worlds before and after it are related. -/
def Keeps (R : World → World → Prop) (m : Act ε α) : Prop := ∀ w, R w (m w).2

theorem Keeps.mapError {m : Act ε α} (h : m.Keeps R) (f : ε → ε') : (m.mapError f).Keeps R := by
  intro w
  have hw := h w
  unfold Act.mapError
  rcases hm : m w with ⟨_ | _, w'⟩ <;> simpa [hm] using hw

theorem Keeps.attempt {m : Act ε α} (h : m.Keeps R) : (Act.attempt m : Act ε' _).Keeps R := h

variable [World.Frame R]

theorem keeps_pure (a : α) : (pure a : Act ε α).Keeps R := fun w => World.Frame.refl w

theorem keeps_fail (e : ε) : (Act.fail e : Act ε α).Keeps R := fun w => World.Frame.refl w

theorem keeps_ofExcept (x : Except ε α) : (Act.ofExcept x).Keeps R := fun w => World.Frame.refl w

theorem keeps_look (f : World → α) : (Act.look f : Act ε α).Keeps R := fun w => World.Frame.refl w

theorem keeps_log (level : LogLevel) (message : String) :
    (Act.log level message : Act ε Unit).Keeps R :=
  fun w => World.Frame.noted w _ (by simp)

theorem keeps_now : (Act.now : Act ε Timestamp).Keeps R := fun w => World.Frame.ticked w

theorem keeps_ask (f : Disk → Except Fault α) (onFault : Fault → ε) :
    (Act.ask f onFault).Keeps R := by
  intro w
  unfold Act.ask
  cases f w.disk <;> exact World.Frame.refl w

omit [World.Frame R] in
theorem keeps_change {f : World → World} (h : ∀ w, R w (f w)) :
    (Act.change f : Act ε Unit).Keeps R := h

omit [World.Frame R] in
theorem keeps_edit {f : Disk → Disk.Edited} (onFault : Fault → ε)
    (h : ∀ w : World, R w { w with disk := (f w.disk).2 }) : (Act.edit f onFault).Keeps R := by
  intro w
  have hw := h w
  unfold Act.edit
  rcases hf : f w.disk with ⟨_ | _, d⟩ <;> simpa [hf] using hw

/-- Of what is done after an action only those runs count in which the action succeeded. -/
theorem Keeps.bindOf {m : Act ε α} {k : α → Act ε β} (hm : m.Keeps R)
    (hk : ∀ a w w', m w = (.ok a, w') → R w' (k a w').2) : (m >>= k).Keeps R := by
  intro w
  have hw := hm w
  rw [bind_apply]
  rcases h : m w with ⟨e | a, w'⟩
  · simpa [h] using hw
  · rw [h] at hw
    exact World.Frame.trans hw (hk a w w' h)

theorem Keeps.bind {m : Act ε α} {k : α → Act ε β} (hm : m.Keeps R) (hk : ∀ a, (k a).Keeps R) :
    (m >>= k).Keeps R :=
  hm.bindOf fun a _ w' _ => hk a w'

theorem Keeps.map {m : Act ε α} (hm : m.Keeps R) (f : α → β) : (f <$> m).Keeps R :=
  hm.bind fun a => keeps_pure (f a)

/-- Setting the gate for a while is harmless to a relation that does not look at it. -/
theorem Keeps.withOffline {m : Act ε α} (hm : m.Keeps R) (offline : Bool)
    (hgate : ∀ (w : World) (b : Bool), R w { w with offline := b }) :
    (Act.withOffline offline m).Keeps R :=
  fun w => World.Frame.trans (World.Frame.trans (hgate w offline) (hm _)) (hgate _ _)

omit [World.Frame R] in
theorem keeps_look_bind {f : World → α} {k : α → Act ε β} (h : ∀ w, R w (k (f w) w).2) :
    (Act.look f >>= k).Keeps R := h

end Act

open Act

variable {R : World → World → Prop} [World.Frame R] {ε τ : Type}

/-! ## The catalog -/

theorem Catalog.send_frame (c : Catalog) (url : String) (body : Option Json) (w : World)
    (hopen : w.offline = false) : R w (c.send url body w).2 := by
  unfold Catalog.send
  cases Url.parse url with
  | error flaw => exact World.Frame.refl w
  | ok address =>
      dsimp only
      split
      · rw [bind_apply]
        simp only [Catalog.exchange]
        have hsent := World.Frame.sent (R := R) w (Catalog.requestFor address body) hopen
        cases c.network.reply w.requests.length (Catalog.requestFor address body) with
        | broken => exact hsent
        | answer status bytes =>
            dsimp only
            split <;> exact hsent
      · exact World.Frame.refl w

theorem Catalog.sendText_frame (c : Catalog) (url : String) (body : Option Json) (w : World)
    (hopen : w.offline = false) : R w (c.sendText url body w).2 := by
  have h := c.send_frame (R := R) url body w hopen
  unfold Catalog.sendText
  rw [bind_apply]
  rcases hsend : c.send url body w with
    ⟨_ | ⟨status, bytes⟩, w'⟩ <;> simpa [hsend, pure_apply] using h

omit [World.Frame R] in
theorem Catalog.ensureOnline_bind_offline {α : Type} (operation : String)
    (k : Unit → Act FetchError α) {w : World} (h : w.offline = true) :
    (Catalog.ensureOnline operation >>= k) w = (.error (.notConfigured operation), w) :=
  bind_of_error (by rw [Catalog.ensureOnline, if_pos h]) k

omit [World.Frame R] in
theorem Catalog.ensureOnline_bind_open {α : Type} (operation : String)
    (k : Unit → Act FetchError α) {w : World} (h : w.offline = false) :
    (Catalog.ensureOnline operation >>= k) w = k () w :=
  bind_of_ok (by rw [Catalog.ensureOnline, h, if_neg Bool.false_ne_true]) k

theorem Catalog.ensureOnline_bind_keeps {α : Type} (operation : String)
    {k : Unit → Act FetchError α} (h : ∀ w : World, w.offline = false → R w (k () w).2) :
    (Catalog.ensureOnline operation >>= k).Keeps R := by
  intro w
  cases hgate : w.offline with
  | true =>
      rw [Catalog.ensureOnline_bind_offline operation k hgate]
      exact World.Frame.refl w
  | false =>
      rw [Catalog.ensureOnline_bind_open operation k hgate]
      exact h w hgate

theorem Catalog.get_keeps (c : Catalog) (path : String) : (c.get path).Keeps R :=
  Catalog.ensureOnline_bind_keeps _ fun w hopen => c.sendText_frame _ _ w hopen

theorem Catalog.getSegments_keeps (c : Catalog) (segments : List String) :
    (c.getSegments segments).Keeps R := by
  refine Catalog.ensureOnline_bind_keeps _ fun w hopen => ?_
  rw [bind_apply]
  simp only [Act.ofExcept]
  cases c.segmentUrl segments with
  | error e => exact World.Frame.refl w
  | ok url => exact c.sendText_frame url none w hopen

theorem Catalog.post_keeps (c : Catalog) (path : String) (body : Json) :
    (c.post path body).Keeps R :=
  Catalog.ensureOnline_bind_keeps _ fun w hopen => c.sendText_frame _ _ w hopen

theorem Catalog.download_keeps (c : Catalog) (url : String) : (c.download url).Keeps R := by
  refine Catalog.ensureOnline_bind_keeps _ fun w hopen => ?_
  have h := c.send_frame (R := R) url none w hopen
  rw [bind_apply]
  rcases hsend : c.send url none w with
    ⟨_ | ⟨status, bytes⟩, w'⟩ <;> simpa [hsend, pure_apply] using h

theorem Catalog.fetchPart_keeps (c : Catalog) (id : PartId) : (c.fetchPart id).Keeps R := by
  unfold Catalog.fetchPart
  exact (keeps_log _ _).bind fun _ => (c.getSegments_keeps _).bind fun _ => keeps_ofExcept _

theorem Catalog.fetchRelease_keeps (c : Catalog) (name version : String) :
    (c.fetchRelease name version).Keeps R := by
  unfold Catalog.fetchRelease
  exact (c.getSegments_keeps _).bind fun _ => keeps_ofExcept _

/-! ## Cache and resolver -/

theorem Cache.check_keeps (c : Cache) (id : PartId) : (c.check id : Act ε _).Keeps R := by
  unfold Cache.check
  refine (keeps_look _).bind fun s => ?_
  cases s with
  | unusable e => exact (keeps_log _ _).bind fun _ => keeps_pure _
  | _ => exact keeps_pure _

theorem Cache.store_keeps (c : Cache) (id : PartId) (a : CachedArtifact)
    (hdirs : ∀ w : World, R w { w with disk := (w.disk.makeDirs c.dir).2 })
    (hput : ∀ (w : World) (content : ByteArray),
      R w { w with disk := (w.disk.replace (c.entryPath id) content).2 }) :
    (c.store id a).Keeps R := by
  unfold Cache.store
  exact (keeps_edit _ hdirs).bind fun _ => keeps_edit _ fun w => hput w _

theorem Resolver.fetch_keeps (r : Resolver) (id : PartId) (hsource : (r.source id).Keeps R)
    (hstore : ∀ a, (r.cache.store id a).Keeps R) : (r.fetch id).Keeps R := by
  unfold Resolver.fetch
  refine hsource.bind fun payload => ?_
  exact keeps_now.bind fun time => (hstore _).bind fun _ => keeps_pure _

/-- The source is asked and the cache written only under an open gate. -/
theorem Resolver.resolve_keeps (r : Resolver) (id : PartId)
    (hfetch : ∀ w : World, w.offline = false → R w (r.fetch id w).2) : (r.resolve id).Keeps R := by
  have hopen : (do
      if ← Act.look (·.offline) then return Resolution.blocked id
      else r.fetch id : Act FetchError Resolution).Keeps R := by
    refine keeps_look_bind fun w => ?_
    cases hgate : w.offline with
    | true => exact World.Frame.refl w
    | false => exact hfetch w hgate
  unfold Resolver.resolve
  refine (r.cache.check_keeps id).bind fun s => ?_
  cases s with
  | fresh a => exact keeps_pure _
  | _ => exact hopen

theorem Resolver.resolveAll_keeps (r : Resolver) (h : ∀ id, (r.resolve id).Keeps R)
    (ids : List PartId) : (r.resolveAll ids).Keeps R := by
  induction ids with
  | nil => exact keeps_pure _
  | cons id ids ih =>
      rw [Resolver.resolveAll_cons]
      exact (h id).bind fun first => ih.bind fun others => keeps_pure _

theorem Resolver.work_keeps (r : Resolver) (h : ∀ id, (r.resolve id).Keeps R) (t : BuildTarget) :
    (r.work t).Keeps R := by
  unfold Resolver.work Resolver.build
  refine Keeps.mapError (((r.resolveAll_keeps h t.parts).mapError _).bind fun found => ?_) _
  dsimp only
  split
  · exact keeps_log _ _
  · exact keeps_fail _

/-! ## Targets -/

theorem Fanout.runOne_keeps (name : String) {work : Act (Halt Failure) Unit} (h : work.Keeps R) :
    (Fanout.runOne name work : Act ε _).Keeps R := by
  unfold Fanout.runOne
  refine (keeps_change fun w => World.Frame.noted w _ (by simp)).bind fun _ => ?_
  refine (keeps_log _ _).bind fun _ => h.attempt.bind fun result => ?_
  refine (keeps_change fun w => World.Frame.noted w _ (by simp)).bind fun _ => ?_
  cases result with
  | ok _ => exact keeps_pure _
  | error halt => exact (keeps_log _ _).bind fun _ => keeps_pure _

theorem Fanout.run_keeps (name : τ → String) {work : Work τ} (h : ∀ t, (work t).Keeps R)
    (targets : List τ) : (Fanout.run name work targets : Act ε _).Keeps R := by
  induction targets with
  | nil => exact keeps_pure _
  | cons t targets ih =>
      unfold Fanout.run
      exact (Fanout.runOne_keeps _ (h t)).bind fun _ => ih.bind fun _ => keeps_pure _

theorem Workflow.buildTargets_keeps {work : Work BuildTarget} (h : ∀ t, (work t).Keeps R)
    (targets : List BuildTarget) : (Workflow.buildTargets targets work : Act ε _).Keeps R := by
  unfold Workflow.buildTargets
  exact (Fanout.run_keeps _ h targets).bind fun _ => keeps_pure _

/-! ## Packages -/

theorem Lock.load_keeps (path : Path) : (Lock.load path).Keeps R := by
  unfold Lock.load
  refine (keeps_look _).bind fun standing => ?_
  split
  · exact keeps_now.bind fun _ => keeps_pure _
  · refine (keeps_ask _ _).bind fun text => ?_
    split
    · exact keeps_pure _
    · exact keeps_fail _

theorem Packages.readLock_keeps (p : Packages) : (p.readLock : Act ε _).Keeps R := by
  unfold Packages.readLock
  refine (Lock.load_keeps p.lockPath).attempt.bind fun found => ?_
  cases found with
  | ok lock => exact keeps_pure _
  | error e => exact (keeps_log _ _).bind fun _ => keeps_now.bind fun _ => keeps_pure _

theorem Packages.missing_keeps (p : Packages) : (p.missing : Act ε _).Keeps R := by
  unfold Packages.missing
  exact p.readLock_keeps.bind fun lock => keeps_look _

theorem Packages.install_keeps (p : Packages) (dep : Dependency)
    (hextract : ∀ archive, (p.extract dep.name archive).Keeps R) : (p.install dep).Keeps R := by
  unfold Packages.install
  refine ((p.catalog.fetchRelease_keeps _ _).mapError _).bind fun release => ?_
  refine (keeps_log _ _).bind fun _ => ?_
  refine ((p.catalog.download_keeps _).mapError _).bind fun archive => ?_
  refine (keeps_ofExcept _).bind fun _ => (hextract archive).bind fun path => ?_
  exact (keeps_log _ _).bind fun _ => keeps_pure _

theorem Packages.installAll_keeps (p : Packages) (deps : List Dependency)
    (hextract : ∀ dep ∈ deps, ∀ archive, (p.extract dep.name archive).Keeps R)
    (hsave : ∀ lock : Lock, (lock.save p.lockPath).Keeps R) (lock : Lock) :
    (p.installAll lock deps).Keeps R := by
  induction deps generalizing lock with
  | nil => exact keeps_pure _
  | cons dep deps ih =>
      unfold Packages.installAll
      have hfirst := p.install_keeps dep (hextract dep List.mem_cons_self)
      refine (hfirst.mapError _).bind fun digest => keeps_now.bind fun time => ?_
      exact (hsave _).bind fun _ => ih (fun d hd => hextract d (List.mem_cons_of_mem _ hd)) _

theorem Packages.mem_wanted_of_mem_missingFrom {p : Packages} {d : Disk} {lock : Lock}
    {dep : Dependency} (h : dep ∈ p.missingFrom d lock) : dep ∈ p.wanted := by
  unfold Packages.missingFrom at h
  rw [List.mem_mergeSort, List.mem_eraseDups, List.mem_filter] at h
  exact h.1

theorem Packages.mem_wanted_of_missing {p : Packages} {w w' : World} {deps : List Dependency}
    (h : (p.missing : Act ε _) w = (.ok deps, w')) : ∀ dep ∈ deps, dep ∈ p.wanted := by
  intro dep hdep
  unfold Packages.missing at h
  obtain ⟨lock, v, -, hlook⟩ := bind_eq_ok h
  obtain rfl : p.missingFrom v.disk lock = deps := Except.ok.inj (Prod.mk.inj hlook).1
  exact Packages.mem_wanted_of_mem_missingFrom hdep

/-- Installing keeps what unpacking wanted packages and writing the lock keep. -/
theorem Packages.installMissing_keeps (p : Packages)
    (hextract : ∀ dep ∈ p.wanted, ∀ archive, (p.extract dep.name archive).Keeps R)
    (hsave : ∀ lock : Lock, (lock.save p.lockPath).Keeps R) : p.installMissing.Keeps R := by
  unfold Packages.installMissing
  refine p.missing_keeps.bindOf fun deps w w' hdeps => ?_
  have hwanted := Packages.mem_wanted_of_missing hdeps
  split
  · exact World.Frame.refl w'
  · refine (p.readLock_keeps.bind fun lock => ?_) w'
    exact p.installAll_keeps deps (fun dep h => hextract dep (hwanted dep h)) hsave lock

/-! ## Relations that do not look at the disk -/

section Disk

variable (hdisk : ∀ (w : World) (d : Disk), R w { w with disk := d })

include hdisk

omit [World.Frame R] in
theorem Act.keeps_edit_of_disk (f : Disk → Disk.Edited) (onFault : Fault → ε) :
    (Act.edit f onFault).Keeps R :=
  keeps_edit onFault fun w => hdisk w _

theorem Lock.save_keeps (lock : Lock) (path : Path) : (lock.save path).Keeps R := by
  unfold Lock.save
  cases path.parent? with
  | some folder =>
      refine (keeps_edit_of_disk hdisk _ _).bind fun _ => keeps_now.bind fun time => ?_
      exact keeps_edit_of_disk hdisk _ _
  | none => exact keeps_now.bind fun time => keeps_edit_of_disk hdisk _ _

theorem Packages.unpack_keeps (staging : Path) (archive : ByteArray) :
    (Packages.unpack staging archive).Keeps R := by
  intro w
  unfold Packages.unpack
  split
  · split
    · exact hdisk w _
    · exact World.Frame.refl w
  · exact World.Frame.refl w
  · exact World.Frame.refl w

theorem Packages.withStaging_keeps {α : Type} (p : Packages) {m : Path → Act Failure α}
    (h : ∀ staging, (m staging).Keeps R) : (p.withStaging m).Keeps R := by
  intro w
  unfold Packages.withStaging
  cases w.disk.makeFresh p.modulesDir with
  | error f => exact World.Frame.refl w
  | ok made =>
      obtain ⟨staging, d⟩ := made
      have hrun := World.Frame.trans (hdisk w d) (h staging { w with disk := d })
      exact World.Frame.trans hrun (hdisk _ _)

theorem Packages.extract_keeps (p : Packages) (name : String) (archive : ByteArray) :
    (p.extract name archive).Keeps R := by
  unfold Packages.extract
  refine (keeps_edit_of_disk hdisk _ _).bind fun _ => p.withStaging_keeps hdisk fun staging => ?_
  refine (Packages.unpack_keeps hdisk staging archive).bind fun _ =>
    (keeps_look _).bind fun top => ?_
  cases top with
  | none => exact keeps_fail _
  | some top =>
      refine (keeps_look _).bind fun standing => ?_
      dsimp only
      split
      · refine (keeps_edit_of_disk hdisk _ _).bind fun _ => ?_
        exact (keeps_edit_of_disk hdisk _ _).bind fun _ => keeps_pure _
      · exact (keeps_edit_of_disk hdisk _ _).bind fun _ => keeps_pure _

theorem Packages.installMissing_keeps_of_disk (p : Packages) : p.installMissing.Keeps R :=
  p.installMissing_keeps (fun dep _ archive => p.extract_keeps hdisk dep.name archive)
    fun lock => lock.save_keeps hdisk p.lockPath

end Disk

/-! ## The workflow -/

theorem Workflow.prepare_keeps {installer : Installer} (hmissing : installer.missing.Keeps R)
    (hinstall : installer.install.Keeps R) : (Workflow.prepare installer).Keeps R := by
  unfold Workflow.prepare
  refine (hmissing.mapError _).bind fun deps => ?_
  split
  · exact keeps_pure _
  · refine (keeps_log _ _).bind fun _ => ?_
    refine (keeps_change fun w => World.Frame.noted w _ (by simp)).bind fun _ => ?_
    exact hinstall.mapError _

theorem Workflow.fetchMissingParts_keeps {installer : Installer} {work : Work BuildTarget}
    (hmissing : installer.missing.Keeps R) (hinstall : installer.install.Keeps R)
    (hwork : ∀ t, (work t).Keeps R)
    (hgate : ∀ (w : World) (b : Bool), R w { w with offline := b }) (targets : List BuildTarget) :
    (Workflow.fetchMissingParts installer targets work).Keeps R := by
  unfold Workflow.fetchMissingParts
  refine Keeps.withOffline ?_ false hgate
  refine (Workflow.prepare_keeps hmissing hinstall).bind fun _ => ?_
  exact (keeps_log _ _).bind fun _ => Workflow.buildTargets_keeps hwork targets

end PartDepot
