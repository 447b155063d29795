import PartDepot.Proofs.Recording

/-!
# What an installation asks for

A package is asked for at its release and at the address that the release names for its
archive. Extracting archives and writing the lock ask for nothing, so the requests of an
installation are those for the packages that it got to.  Besides these, the journal gets
what is said about every package.
-/

namespace PartDepot

/-! ## What an action writes into the journal -/

namespace Act

variable {P : Event → Prop} {ε ε' α β : Type}

/-- All that the action adds to the journal has a property. -/
def Tells (P : Event → Prop) (m : Act ε α) : Prop :=
  ∀ w, ∃ told, (m w).2.journal = w.journal ++ told ∧ ∀ e ∈ told, P e

/-- All requests that the action sends have a property. -/
def Asks (P : Request → Prop) (m : Act ε α) : Prop :=
  ∀ w, ∃ sent, (m w).2.requests = w.requests ++ sent ∧ ∀ r ∈ sent, P r

theorem tells_of_journal {m : Act ε α} (h : ∀ w, (m w).2.journal = w.journal) : m.Tells P :=
  fun w => ⟨[], by rw [h w, List.append_nil], by simp⟩

theorem tells_pure (a : α) : (pure a : Act ε α).Tells P := tells_of_journal fun _ => rfl

theorem tells_fail (e : ε) : (Act.fail e : Act ε α).Tells P := tells_of_journal fun _ => rfl

theorem tells_look (f : World → α) : (Act.look f : Act ε α).Tells P := tells_of_journal fun _ => rfl

theorem tells_now : (Act.now : Act ε Timestamp).Tells P := tells_of_journal fun _ => rfl

theorem tells_ofExcept (x : Except ε α) : (Act.ofExcept x).Tells P := tells_of_journal fun _ => rfl

theorem tells_edit (f : Disk → Disk.Edited) (onFault : Fault → ε) : (Act.edit f onFault).Tells P :=
  tells_of_journal fun w => by rw [Act.edit_apply]

theorem tells_record {e : Event} {f : World → World} (h : P e)
    (hf : ∀ w, (f w).journal = w.journal ++ [e]) :
    (Act.change f : Act ε Unit).Tells P := by
  intro w
  refine ⟨[e], hf w, fun e' he' => ?_⟩
  obtain rfl := List.mem_singleton.mp he'
  exact h

theorem tells_log {level : LogLevel} {message : String} (h : P (.logged level message)) :
    (Act.log level message : Act ε Unit).Tells P := tells_record h fun _ => rfl

theorem Tells.mapError {m : Act ε α} (h : m.Tells P) (f : ε → ε') : (m.mapError f).Tells P := by
  intro w
  have hw := h w
  unfold Act.mapError
  rcases hm : m w with ⟨_ | _, w'⟩ <;> simpa [hm] using hw

theorem Tells.attempt {m : Act ε α} (h : m.Tells P) : (m.attempt : Act ε' _).Tells P := h

theorem Tells.bindOf {m : Act ε α} {k : α → Act ε β} (hm : m.Tells P)
    (hk : ∀ a w w', m w = (.ok a, w') → (k a).Tells P) : (m >>= k).Tells P := by
  intro w
  obtain ⟨told, htold, hall⟩ := hm w
  rw [bind_apply]
  rcases h : m w with ⟨e | a, v⟩
  · rw [h] at htold
    exact ⟨told, htold, hall⟩
  · rw [h] at htold
    obtain ⟨more, hmore, hall'⟩ := hk a w v h v
    refine ⟨told ++ more, ?_, fun e he => ?_⟩
    · dsimp only at htold ⊢
      rw [hmore, htold, List.append_assoc]
    · exact (List.mem_append.mp he).elim (hall e) (hall' e)

theorem Tells.bind {m : Act ε α} {k : α → Act ε β} (hm : m.Tells P) (hk : ∀ a, (k a).Tells P) :
    (m >>= k).Tells P := hm.bindOf fun a _ _ _ => hk a

theorem Tells.mono {P' : Event → Prop} {m : Act ε α} (h : m.Tells P) (hsub : ∀ e, P e → P' e) :
    m.Tells P' := by
  intro w
  obtain ⟨told, htold, hall⟩ := h w
  exact ⟨told, htold, fun e he => hsub e (hall e he)⟩

theorem Tells.asks {Q : Request → Prop} {m : Act ε α} (h : m.Tells P)
    (hsub : ∀ r offline, P (.sent r offline) → Q r) : m.Asks Q := by
  intro w
  obtain ⟨told, htold, hall⟩ := h w
  refine ⟨(World.mk w.disk w.offline w.clock w.listing told).requests, ?_, fun r hr => ?_⟩
  · simp only [World.requests, htold, List.filterMap_append]
  · obtain ⟨e, he, hsent⟩ := List.mem_filterMap.mp hr
    cases e with
    | sent request offline =>
        obtain rfl := Option.some.inj hsent
        exact hsub request offline (hall _ he)
    | logged | began | ended | installing => simp at hsent

end Act

open Act

namespace Catalog

/-- The request to an address. -/
inductive Sends (url : String) (body : Option Json) : Event → Prop
  | sent {address : Url} {offline : Bool} : Url.parse url = .ok address →
      Sends url body (.sent (requestFor address body) offline)

theorem send_tells (c : Catalog) (url : String) (body : Option Json) :
    (c.send url body).Tells (Sends url body) := by
  unfold send
  cases hparse : Url.parse url with
  | error flaw => exact tells_fail _
  | ok address =>
      dsimp only
      split
      · refine Tells.bind (fun w => ⟨_, rfl, fun e he => ?_⟩) fun reply => ?_
        · obtain rfl := List.mem_singleton.mp he
          exact .sent hparse
        · cases reply with
          | broken => exact tells_fail _
          | answer status bytes =>
              dsimp only
              split
              · exact tells_pure _
              · exact tells_fail _
      · exact tells_fail _

theorem ensureOnline_tells {P : Event → Prop} (operation : String) :
    (ensureOnline operation).Tells P :=
  tells_of_journal fun w => by
    unfold ensureOnline
    split <;> rfl

theorem download_tells (c : Catalog) (url : String) : (c.download url).Tells (Sends url none) := by
  unfold download
  exact (ensureOnline_tells _).bind fun _ => (c.send_tells url none).bind fun _ => tells_pure _

theorem sendText_tells (c : Catalog) (url : String) (body : Option Json) :
    (c.sendText url body).Tells (Sends url body) :=
  (c.send_tells url body).bind fun _ => tells_pure _

theorem get_tells (c : Catalog) (path : String) :
    (c.get path).Tells (Sends (c.pathUrl path) none) :=
  (ensureOnline_tells _).bind fun _ => c.sendText_tells _ none

theorem post_tells (c : Catalog) (path : String) (body : Json) :
    (c.post path body).Tells (Sends (c.pathUrl path) (some body)) :=
  (ensureOnline_tells _).bind fun _ => c.sendText_tells _ (some body)

theorem getSegments_tells (c : Catalog) (segments : List String) : (c.getSegments segments).Tells
    fun e => ∃ url, c.segmentUrl segments = .ok url ∧ Sends url none e := by
  unfold getSegments
  refine (ensureOnline_tells _).bind fun _ => (tells_ofExcept _).bindOf fun url _ _ hurl => ?_
  obtain ⟨hurl, -⟩ := Prod.mk.inj hurl
  exact (c.sendText_tells url none).mono fun e he => ⟨url, hurl, he⟩

theorem fetchRelease_tells (c : Catalog) (name version : String) :
    (c.fetchRelease name version).Tells
    fun e => ∃ url, c.segmentUrl ["v1", "packages", name, "releases", version] = .ok url ∧
      Sends url none e := by
  unfold fetchRelease
  exact (c.getSegments_tells _).bind fun _ => tells_ofExcept _

end Catalog

namespace Packages

variable {p : Packages} {P : Event → Prop}

/-- The requests that installing a package can lead to: for its release, and for the archive
that the release names. -/
inductive Concerns (p : Packages) (dep : Dependency) : Request → Prop
  | release {url : String} {address : Url} :
      p.catalog.segmentUrl ["v1", "packages", dep.name, "releases", dep.version] = .ok url →
      Url.parse url = .ok address → Concerns p dep (Catalog.requestFor address none)
  | archive {w w' : World} {release : PackageRelease} {address : Url} :
      p.catalog.fetchRelease dep.name dep.version w = (.ok release, w') →
      Url.parse release.url = .ok address → Concerns p dep (Catalog.requestFor address none)

/-- What installing a package can add to the journal. -/
inductive Mentions (p : Packages) (dep : Dependency) : Event → Prop
  | sent {r : Request} {offline : Bool} : p.Concerns dep r → Mentions p dep (.sent r offline)
  | downloading (url : String) :
      Mentions p dep (.logged .info s!"Downloading {dep.text} from {url}")
  | installed (path : Path) : Mentions p dep (.logged .info s!"Installed {dep.text} to {path.text}")

theorem Mentions.concerns {dep : Dependency} {r : Request} {offline : Bool}
    (h : p.Mentions dep (.sent r offline)) : p.Concerns dep r := by
  cases h with
  | sent h => exact h

theorem fetchArchive_tells (p : Packages) (dep : Dependency) :
    (p.fetchArchive dep).Tells (p.Mentions dep) := by
  have hrelease : (p.catalog.fetchRelease dep.name dep.version).Tells (p.Mentions dep) := by
    refine (p.catalog.fetchRelease_tells _ _).mono ?_
    rintro e ⟨url, hurl, ⟨haddress⟩⟩
    exact .sent (.release hurl haddress)
  unfold fetchArchive
  refine (hrelease.mapError _).bindOf fun release w w' hanswer =>
    (tells_log (.downloading release.url)).bind fun _ => ?_
  have harchive : (p.catalog.download release.url).Tells (p.Mentions dep) := by
    refine (p.catalog.download_tells _).mono ?_
    rintro e ⟨haddress⟩
    unfold Act.mapError at hanswer
    rcases hfetch : p.catalog.fetchRelease dep.name dep.version w with ⟨e | found, v⟩
    · simp [hfetch] at hanswer
    · rw [hfetch] at hanswer
      obtain ⟨hfound, -⟩ := Prod.mk.inj hanswer
      obtain rfl := Except.ok.inj hfound
      exact .sent (.archive hfetch haddress)
  exact (harchive.mapError _).bind fun _ => (tells_ofExcept _).bind fun _ => tells_pure _

theorem opening_tells {α : Type} (p : Packages) (archive : ByteArray) {k : Path → Act Failure α}
    (hk : ∀ top, (k top).Tells P) : (p.opening archive k).Tells P := by
  have hunpack (staging : Path) : (unpack staging archive).Tells P := by
    refine tells_of_journal fun w => ?_
    unfold unpack
    dsimp only
    split
    · split <;> rfl
    · rfl
    · rfl
  have hopen (staging : Path) : (openArchive staging archive).Tells P := by
    unfold openArchive
    refine (hunpack staging).bind fun _ => (tells_look _).bind fun found => ?_
    cases found with
    | none => exact tells_fail _
    | some top => exact tells_pure _
  refine (tells_edit _ _).bind fun _ w => ?_
  unfold withStaging
  dsimp only
  cases w.disk.makeFresh p.modulesDir with
  | error fault => exact ⟨[], (List.append_nil _).symm, by simp⟩
  | ok fresh =>
      obtain ⟨staging, d⟩ := fresh
      exact ((hopen staging).bind hk) { w with disk := d }

theorem extract_tells (p : Packages) (name : String) (archive : ByteArray) :
    (p.extract name archive).Tells P := by
  rw [extract_eq]
  refine p.opening_tells archive fun top => ?_
  unfold settle
  refine (tells_look _).bind fun standing => ?_
  split
  · exact (tells_edit _ _).bind fun _ => (tells_edit _ _).bind fun _ => tells_pure _
  · exact (tells_edit _ _).bind fun _ => tells_pure _

theorem install_tells (p : Packages) (dep : Dependency) :
    (p.install dep).Tells (p.Mentions dep) := by
  rw [install_eq]
  refine (p.fetchArchive_tells dep).bind fun _ => (p.extract_tells _ _).bind fun path => ?_
  exact (tells_log (.installed path)).bind fun _ => tells_pure _

theorem saveLock_tells (lock : Lock) (path : Path) : (lock.save path).Tells P := by
  have hwrite : (lock.writeTo path).Tells P := tells_now.bind fun _ => tells_edit _ _
  cases hfolder : path.parent? with
  | none =>
      rw [Lock.save_of_no_parent hfolder]
      exact hwrite
  | some folder =>
      rw [Lock.save_of_parent hfolder]
      exact (tells_edit _ _).bind fun _ => hwrite

/-- The journal of an installation is about the packages that are installed. -/
theorem installAll_tells (p : Packages) (deps : List Dependency) (lock : Lock) :
    (p.installAll lock deps).Tells fun e => ∃ dep ∈ deps, p.Mentions dep e := by
  induction deps generalizing lock with
  | nil => exact tells_pure _
  | cons dep deps ih =>
      unfold installAll
      have hfirst : (p.install dep).Tells fun e => ∃ d ∈ dep :: deps, p.Mentions d e :=
        (p.install_tells dep).mono fun e he => ⟨dep, List.mem_cons_self, he⟩
      refine (hfirst.mapError _).bind fun digest => tells_now.bind fun time => ?_
      refine (saveLock_tells _ _).bind fun _ => (ih _).mono ?_
      rintro e ⟨d, hd, he⟩
      exact ⟨d, List.mem_cons_of_mem _ hd, he⟩

/-- Installing packages asks for these and no others. -/
theorem installAll_asks (p : Packages) (deps : List Dependency) (lock : Lock) :
    (p.installAll lock deps).Asks fun r => ∃ dep ∈ deps, p.Concerns dep r := by
  apply (p.installAll_tells deps lock).asks
  rintro r offline ⟨dep, hdep, he⟩
  exact ⟨dep, hdep, he.concerns⟩

end Packages

end PartDepot
