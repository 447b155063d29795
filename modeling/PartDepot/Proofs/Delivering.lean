import PartDepot.Proofs.Installing
import PartDepot.Proofs.Packing

/-!
# Installations that go through

A package is delivered if the catalog answers for its release and its archive, and if each step of
the extraction is carried out; it is recorded if there is a place for the lock file.
-/

namespace PartDepot

open Disk

namespace Disk

variable {d : Disk} {path : Path}

theorem makeFresh_of_free {home spot : Place} (hdir : d.find true path = .ok (.taken home .dir))
    (hfree : d.find false (path.join (d.freshName home)) = .ok (.free spot)) :
    d.makeFresh path = .ok (path.join (d.freshName home), d.put spot .dir) := by
  unfold makeFresh
  rw [hdir]
  dsimp only
  rw [hfree]

theorem write_of_free {q : Place} (h : d.find true path = .ok (.free q)) (content : ByteArray) :
    d.write path content = (none, d.put q (.file content)) := by
  unfold write
  rw [h]

theorem write_of_isFile (h : d.isFile path = true) (content : ByteArray) :
    ∃ d', d.write path content = (none, d') := by
  unfold isFile at h
  unfold write
  split at h
  · next hfind => exact ⟨_, by rw [hfind]⟩
  · simp at h

end Disk

/-- A lock is saved if its directory is there and its file can be written. -/
theorem Lock.save_of_write {lock : Lock} {path folder : Path} {w : World} {d d' : Disk}
    (hfolder : path.parent? = some folder) (hmake : w.disk.makeDirs folder = (none, d))
    (hwrite : d.write path
      { lock with generated := (w.clock 0).withOffset }.render.toUTF8 = (none, d')) :
    lock.save path w = (.ok (), { w with clock := fun n => w.clock (n + 1), disk := d' }) := by
  rw [save_of_parent hfolder, Act.bind_of_ok (Act.edit_of_done hmake _), writeTo, Act.now_bind]
  exact Act.edit_of_done hwrite _

/-! ## Answers -/

namespace Catalog

variable {c : Catalog} {w : World}

theorem send_of_answer {url : String} {address : Url} {bytes : ByteArray}
    (hurl : Url.parse url = .ok address)
    (hopen : (address.isHttp && c.network.connects address) = true)
    (hanswer : c.network.reply w.requests.length (requestFor address none) = .answer 200 bytes) :
    c.send url none w =
      (.ok (200, bytes), w.record (.sent (requestFor address none) w.offline)) := by
  unfold send
  rw [hurl]
  dsimp only
  rw [if_pos hopen, Act.bind_apply]
  simp only [exchange, hanswer]
  rfl

theorem fetchRelease_of_answer {name version url : String} {address : Url} {bytes : ByteArray}
    {release : PackageRelease} (hgate : w.offline = false)
    (hurl : c.segmentUrl ["v1", "packages", name, "releases", version] = .ok url)
    (haddress : Url.parse url = .ok address)
    (hopen : (address.isHttp && c.network.connects address) = true)
    (hanswer : c.network.reply w.requests.length (requestFor address none) = .answer 200 bytes)
    (hrelease : PackageRelease.parse (Text.decodeLossy bytes) = some release) :
    c.fetchRelease name version w =
      (.ok release, w.record (.sent (requestFor address none) false)) := by
  have hsegments : c.getSegments ["v1", "packages", name, "releases", version] w =
      (.ok ⟨url, 200, Text.decodeLossy bytes⟩,
        w.record (.sent (requestFor address none) false)) := by
    rw [getSegments_open c _ hgate, hurl]
    dsimp only
    rw [sendText, Act.bind_of_ok (send_of_answer haddress hopen hanswer), hgate]
    rfl
  rw [fetchRelease, Act.bind_of_ok hsegments, Act.ofExcept, CatalogResponse.release, hrelease]

theorem download_of_answer {url : String} {address : Url} {bytes : ByteArray}
    (hgate : w.offline = false) (hurl : Url.parse url = .ok address)
    (hopen : (address.isHttp && c.network.connects address) = true)
    (hanswer : c.network.reply w.requests.length (requestFor address none) = .answer 200 bytes) :
    c.download url w = (.ok bytes, w.record (.sent (requestFor address none) false)) := by
  unfold download
  rw [ensureOnline_bind_open _ _ hgate, Act.bind_of_ok (send_of_answer hurl hopen hanswer), hgate]
  rfl

theorem reply?_cases {before : Nat} {url : String} {bytes : ByteArray}
    (h : c.reply? before url = some bytes) :
    bytes = ByteArray.empty ∨ ∃ r status, c.network.reply before r = .answer status bytes := by
  unfold reply? at h
  split at h
  · simp at h
  · next address haddress =>
    split at h
    · split at h
      · simp at h
      · next status body hreply =>
        split at h
        · obtain rfl := Option.some.inj h
          split
          · exact .inl rfl
          · exact .inr ⟨_, _, hreply⟩
        · simp at h
    · simp at h

theorem download_reply {url : String} {bytes : ByteArray} {w' : World}
    (h : c.download url w = (.ok bytes, w')) : c.reply? w.requests.length url = some bytes := by
  have hreply := c.send_reply url w
  unfold download at h
  cases hgate : w.offline with
  | true =>
      rw [ensureOnline_bind_offline _ _ hgate] at h
      simp at h
  | false =>
      rw [ensureOnline_bind_open _ _ hgate] at h
      obtain ⟨⟨status, body⟩, v, hsend, hbody⟩ := Act.bind_eq_ok h
      obtain rfl := Except.ok.inj (Prod.mk.inj hbody).1
      rw [hsend] at hreply
      exact hreply.symm

/-- A package whose release is not answered for is not downloaded. -/
theorem fetchRelease_of_refusal (name version : String) (hgate : w.offline = false)
    (h : ∀ r, c.network.reply w.requests.length r = .answer 404 ByteArray.empty) :
    ∃ e v, c.fetchRelease name version w = (.error e, v) := by
  unfold fetchRelease
  rw [Act.bind_apply, getSegments_open c _ hgate]
  cases c.segmentUrl ["v1", "packages", name, "releases", version] with
  | error e => exact ⟨e, w, rfl⟩
  | ok url =>
      have hnone : c.reply? w.requests.length url = none := by
        unfold reply?
        cases Url.parse url with
        | error flaw => rfl
        | ok address =>
            dsimp only
            rw [h]
            split <;> rfl
      have hbody := c.sendText_reply url w
      rw [hnone] at hbody
      dsimp only
      rcases hsend : c.sendText url none w with ⟨e | response, v⟩
      · exact ⟨e, v, rfl⟩
      · simp [hsend, Except.toOption] at hbody

end Catalog

/-- A network that answers twice for a release and for an archive, and then finds nothing. -/
def Network.brief : Network where
  connects _ := true
  reply n _ :=
    if n < 4 then .answer 200 (if n % 2 = 0 then "[\"http://c/a\"]".toUTF8 else Tar.folder)
    else .answer 404 ByteArray.empty

/-- No files, an open gate and a clock that stands. -/
def World.bare : World := ⟨⟨[], []⟩, false, fun _ => ⟨0, 0⟩, Listing.asStored, []⟩

theorem World.bare_rooted : World.bare.disk.Rooted := by
  intro b hb
  have hroot : b ≠ [] := ne_root_of_node? bare.disk (by simp [hb])
  refine ⟨fun q hq => ?_, fun hhere => hroot (List.prefix_nil.mp hhere)⟩
  have hq' : q ≠ [] := by
    rintro rfl
    exact hroot (List.prefix_nil.mp hq)
  rw [node?, if_neg hq']
  rfl

namespace Packages

variable {p : Packages} {w : World}

/-- What is asked for a package, and said, when the catalog answers for it. -/
def askedFor (dep : Dependency) (release : PackageRelease) (first second : Url) : List Event :=
  [.sent (Catalog.requestFor first none) false,
    .logged .info s!"Downloading {dep.text} from {release.url}",
    .sent (Catalog.requestFor second none) false]

theorem fetchArchive_of_answers {dep : Dependency} {url : String} {first second : Url}
    {body archive : ByteArray} {release : PackageRelease} (hgate : w.offline = false)
    (hurl : p.catalog.segmentUrl ["v1", "packages", dep.name, "releases", dep.version] = .ok url)
    (hfirst : Url.parse url = .ok first)
    (hopen : (first.isHttp && p.catalog.network.connects first) = true)
    (hbody : p.catalog.network.reply w.requests.length (Catalog.requestFor first none) =
      .answer 200 body)
    (hrelease : PackageRelease.parse (Text.decodeLossy body) = some release)
    (hsecond : Url.parse release.url = .ok second)
    (hopen' : (second.isHttp && p.catalog.network.connects second) = true)
    (harchive : p.catalog.network.reply (w.requests.length + 1) (Catalog.requestFor second none) =
      .answer 200 archive)
    (hverify : verify archive release.digest = .ok ()) :
    p.fetchArchive dep w = (.ok (archive, release.digest),
      { w with journal := w.journal ++ askedFor dep release first second }) := by
  let told := (w.record (.sent (Catalog.requestFor first none) false)).record
    (.logged .info s!"Downloading {dep.text} from {release.url}")
  have hcount : told.requests.length = w.requests.length + 1 := by
    simp [told]
  have hdownload : p.catalog.download release.url told =
      (.ok archive, told.record (.sent (Catalog.requestFor second none) false)) :=
    Catalog.download_of_answer hgate hsecond hopen' (by rw [hcount, harchive])
  have hjournal : (told.record (.sent (Catalog.requestFor second none) false)) =
      { w with journal := w.journal ++ askedFor dep release first second } := by
    simp [told, World.record, askedFor]
  have hasked := Catalog.fetchRelease_of_answer hgate hurl hfirst hopen hbody hrelease
  unfold fetchArchive
  rw [Act.bind_of_ok (Act.mapError_of_ok hasked _), Act.log_bind,
    Act.bind_of_ok (Act.mapError_of_ok hdownload _), ← hjournal, hverify]
  rfl

/-- What was downloaded is what the release of the package pointed to, and was checked. -/
theorem fetchArchive_eq_ok {dep : Dependency} {archive : ByteArray} {digest : Option String}
    {w' : World} (h : p.fetchArchive dep w = (.ok (archive, digest), w')) :
    ∃ release u v, (p.catalog.fetchRelease dep.name dep.version w).1 = .ok release ∧
      p.catalog.download release.url u = (.ok archive, v) ∧ digest = release.digest ∧
      verify archive digest = .ok () := by
  unfold fetchArchive at h
  obtain ⟨release, v, hrelease, h⟩ := Act.bind_eq_ok h
  rw [Act.log_bind] at h
  obtain ⟨bytes, u, hdownload, h⟩ := Act.bind_eq_ok h
  obtain ⟨done, u', hverify, hpair⟩ := Act.bind_eq_ok h
  obtain ⟨rfl, rfl⟩ := Prod.mk.inj (Except.ok.inj (Prod.mk.inj hpair).1)
  refine ⟨release, _, u, ?_, Act.mapError_eq_ok hdownload, rfl, (Prod.mk.inj hverify).1⟩
  rw [Act.mapError_eq_ok hrelease]

theorem fetchArchive_of_refusal (dep : Dependency) (hgate : w.offline = false)
    (h : ∀ r, p.catalog.network.reply w.requests.length r = .answer 404 ByteArray.empty) :
    ∃ e v, p.fetchArchive dep w = (.error e, v) := by
  obtain ⟨e, v, hrelease⟩ := Catalog.fetchRelease_of_refusal dep.name dep.version hgate h
  exact ⟨.fetch e, v, Act.bind_of_error (Act.mapError_of_error hrelease _) _⟩

/-! ## Steps -/

theorem openArchive_of_only {staging : Path} {place : Place} {child : String} {archive : ByteArray}
    {nodes : List (Place × Node)} (hfind : w.disk.find true staging = .ok (.taken place .dir))
    (hnodes : Tar.unpack place archive = some nodes)
    (hlist : (w.disk.add nodes).list staging = .ok [child])
    (htop : (w.disk.add nodes).isDir (staging.join child) = true) :
    openArchive staging archive w =
      (.ok (staging.join child), { w with disk := w.disk.add nodes }) := by
  have hone : w.listing.arrange [child] = [child] := List.perm_singleton.mp (w.listing.perm [child])
  have hfirst : firstDirectory? staging { w with disk := w.disk.add nodes } =
      some (staging.join child) := by
    rw [firstDirectory?, hlist]
    dsimp only
    rw [hone, List.map_singleton, List.find?_cons_of_pos htop]
  unfold openArchive
  rw [Act.bind_of_ok (unpack_of_some hfind hnodes), Act.look_bind, hfirst]
  rfl

theorem opening_of_steps {α : Type} {archive : ByteArray} {k : Path → Act Failure α}
    {staging top : Path} {made d : Disk} {v u : World} {r : Except Failure α}
    (hmade : w.disk.makeDirs p.modulesDir = (none, made))
    (hfresh : made.makeFresh p.modulesDir = .ok (staging, d))
    (hopen : openArchive staging archive { w with disk := d } = (.ok top, v))
    (hk : k top v = (r, u)) :
    p.opening archive k w = (r, { u with disk := (u.disk.removeTree staging).2 }) := by
  rw [opening, Act.bind_of_ok (Act.edit_of_done hmade _), withStaging, hfresh]
  dsimp only
  rw [Act.bind_of_ok hopen, hk]

theorem settle_of_steps {name : String} {top : Path} {cleared moved : Disk}
    (hclear : (if w.disk.has (p.installPath name) then w.disk.removeTree (p.installPath name)
      else (none, w.disk)) = (none, cleared))
    (hmove : cleared.rename top (p.installPath name) = (none, moved)) :
    p.settle name top w = (.ok (p.installPath name), { w with disk := moved }) := by
  unfold settle
  dsimp only
  rw [Act.look_bind]
  split at hclear
  · next hhas =>
    rw [if_pos hhas, Act.bind_of_ok (Act.edit_of_done hclear _),
      Act.bind_of_ok (Act.edit_of_done hmove _)]
    rfl
  · next hhas =>
    obtain ⟨-, rfl⟩ := Prod.mk.inj hclear
    rw [if_neg hhas, Act.bind_of_ok (Act.edit_of_done hmove _)]
    rfl

/-- The disk after an archive was extracted that unpacks to one directory with these nodes, if each
step is carried out. -/
def extracted? (modules : Path) (name tmp child : String) (home : Place)
    (nodes : List (Place × Node)) (d : Disk) : Option Disk :=
  let staging := modules.join tmp
  let target := modules.join name
  let made := d.makeDirs modules
  let full := (made.2.put (home ++ [tmp]) .dir).add nodes
  let cleared := if full.has target then full.removeTree target else (none, full)
  let moved := cleared.2.rename (staging.join child) target
  if made.1 = none ∧ made.2.find true modules = .ok (.taken home .dir) ∧
      made.2.freshName home = tmp ∧ made.2.find false staging = .ok (.free (home ++ [tmp])) ∧
      full.list staging = .ok [child] ∧ full.isDir (staging.join child) = true ∧
      cleared.1 = none ∧ moved.1 = none then
    some (moved.2.removeTree staging).2
  else none

theorem extract_of_extracted? {name tmp child : String} {archive : ByteArray} {home : Place}
    {nodes : List (Place × Node)} {after : Disk}
    (h : extracted? p.modulesDir name tmp child home nodes w.disk = some after)
    (hnodes : Tar.unpack (home ++ [tmp]) archive = some nodes) :
    p.extract name archive w = (.ok (p.installPath name), { w with disk := after }) := by
  unfold extracted? at h
  dsimp only at h
  have htarget : p.modulesDir.join name = p.installPath name := rfl
  rw [htarget] at h
  generalize hmade : w.disk.makeDirs p.modulesDir = making at h
  obtain ⟨fault, made⟩ := making
  generalize hclear : (if ((made.put (home ++ [tmp]) .dir).add nodes).has (p.installPath name)
    then ((made.put (home ++ [tmp]) .dir).add nodes).removeTree (p.installPath name)
    else (none, (made.put (home ++ [tmp]) .dir).add nodes)) = clearing at h
  obtain ⟨fault', cleared⟩ := clearing
  generalize hmove : cleared.rename ((p.modulesDir.join tmp).join child) (p.installPath name) =
    moving at h
  obtain ⟨fault'', moved⟩ := moving
  dsimp only at h
  rw [Option.ite_none_right_eq_some] at h
  obtain ⟨⟨rfl, hdir, htmp, hfree, hlist, htop, rfl, rfl⟩, hafter⟩ := h
  obtain rfl := Option.some.inj hafter
  have hstage : p.Stage made home tmp :=
    ⟨leads_of_find hdir, htmp ▸ freshName_isName made home, hfree⟩
  have hfresh : made.makeFresh p.modulesDir =
      .ok (p.modulesDir.join tmp, made.put (home ++ [tmp]) .dir) := by
    rw [← htmp] at hfree ⊢
    exact makeFresh_of_free hdir hfree
  have hopen := openArchive_of_only (w := { w with disk := made.put (home ++ [tmp]) .dir })
    (hstage.find_made true) hnodes hlist htop
  rw [extract_eq, opening_of_steps hmade hfresh hopen (settle_of_steps hclear hmove)]

/-- The world after a package was put in its place and the lock was saved. -/
def settled (dep : Dependency) (path : Path) (v : World) (d : Disk) : World where
  disk := d
  offline := v.offline
  clock n := v.clock (n + 2)
  listing := v.listing
  journal := v.journal ++ [.logged .info s!"Installed {dep.text} to {path.text}"]

theorem installAll_of_steps {lock : Lock} {dep : Dependency} {archive : ByteArray}
    {digest : Option String} {v : World} {path folder : Path} {d d' d'' : Disk}
    (hfetch : p.fetchArchive dep w = (.ok (archive, digest), v))
    (hextract : p.extract dep.name archive v = (.ok path, { v with disk := d }))
    (hfolder : p.lockPath.parent? = some folder) (hmake : d.makeDirs folder = (none, d'))
    (hwrite : d'.write p.lockPath
      { lock.record dep.name dep.version digest (v.clock 0) with
        generated := (v.clock 1).withOffset }.render.toUTF8 = (none, d''))
    (rest : List Dependency) :
    p.installAll lock (dep :: rest) w =
      p.installAll (lock.record dep.name dep.version digest (v.clock 0)) rest
        (settled dep path v d'') := by
  let told : World := { v with
    disk := d, journal := v.journal ++ [.logged .info s!"Installed {dep.text} to {path.text}"] }
  have hinstall : p.install dep w = (.ok digest, told) := by
    rw [install_eq, Act.bind_of_ok hfetch]
    dsimp only
    rw [Act.bind_of_ok hextract]
    rfl
  let ticked : World := { told with clock := fun n => told.clock (n + 1) }
  have hsave : (lock.record dep.name dep.version digest (v.clock 0)).save p.lockPath ticked =
      (.ok (), settled dep path v d'') := Lock.save_of_write hfolder hmake hwrite
  rw [installAll, Act.bind_of_ok (Act.mapError_of_ok hinstall _), Act.now_bind,
    Act.bind_of_ok hsave]

/-! ## Without a lock -/

section Absent

variable {ε : Type} (h : w.disk.has p.lockPath = false)

include h

theorem readLock_of_absent : (p.readLock : Act ε Lock) w =
    (.ok (Lock.empty (w.clock 0)), { w with clock := fun n => w.clock (n + 1) }) := by
  have hload : Lock.load p.lockPath w =
      (.ok (Lock.empty (w.clock 0)), { w with clock := fun n => w.clock (n + 1) }) := by
    rw [Lock.load, Act.look_bind, h, if_pos (by simp)]
    rfl
  unfold readLock
  rw [Act.bind_apply, Act.attempt, hload]
  rfl

/-- Without a lock everything is missing. -/
theorem missing_of_absent : (p.missing : Act ε _) w =
    (.ok (p.wanted.eraseDups.mergeSort Dependency.le),
      { w with clock := fun n => w.clock (n + 1) }) := by
  have hall (d : Disk) : p.missingFrom d (Lock.empty (w.clock 0)) =
      p.wanted.eraseDups.mergeSort Dependency.le := by
    have hnone (dep : Dependency) : p.isPresent d (Lock.empty (w.clock 0)) dep = false := rfl
    have hkept : p.wanted.filter (fun dep => !p.isPresent d (Lock.empty (w.clock 0)) dep) =
        p.wanted := List.filter_eq_self.mpr fun dep _ => by rw [hnone]; rfl
    rw [missingFrom, hkept]
  unfold missing
  rw [Act.bind_of_ok (readLock_of_absent h), ← hall]
  rfl

end Absent

/-! ## Two versions of one package -/

theorem brief_fetch (hcatalog : p.catalog = ⟨"http://c", .brief⟩) {version : String}
    (hversion : version = "1.0.0" ∨ version = "2.0.0") (hgate : w.offline = false)
    (hcount : w.requests.length = 0 ∨ w.requests.length = 2) :
    ∃ first second, p.fetchArchive ⟨"a", version⟩ w = (.ok (Tar.folder, none),
      { w with journal := w.journal ++
        askedFor ⟨"a", version⟩ ⟨"http://c/a", none⟩ first second }) := by
  have hurl : (Catalog.segmentUrl ⟨"http://c", .brief⟩
      ["v1", "packages", "a", "releases", version]).toOption =
        some ("http://c/v1/packages/a/releases/" ++ version) := by
    rcases hversion with rfl | rfl <;> decide +kernel
  have hfirst : (Url.parse ("http://c/v1/packages/a/releases/" ++ version)).toOption.any
      (·.isHttp) = true := by
    rcases hversion with rfl | rfl <;> decide +kernel
  have hsecond : (Url.parse "http://c/a").toOption.any (·.isHttp) = true := by decide +kernel
  have hrelease : PackageRelease.parse (Text.decodeLossy "[\"http://c/a\"]".toUTF8) =
      some ⟨"http://c/a", none⟩ := by decide +kernel
  have hreply (k : Nat) (hk : k < 2) (r : Request) :
      p.catalog.network.reply (w.requests.length + k) r =
        .answer 200 (if k = 0 then "[\"http://c/a\"]".toUTF8 else Tar.folder) := by
    have hsum : w.requests.length + k < 4 ∧ (w.requests.length + k) % 2 = k := by omega
    simp only [hcatalog, Network.brief, hsum, if_true]
  rw [← hcatalog] at hurl
  generalize "http://c/v1/packages/a/releases/" ++ version = url at hurl hfirst
  cases hparse : Url.parse url with
  | error e => simp [hparse, Except.toOption] at hfirst
  | ok first =>
    cases hparse' : Url.parse "http://c/a" with
    | error e => simp [hparse', Except.toOption] at hsecond
    | ok second =>
      have hopen : (first.isHttp && p.catalog.network.connects first) = true := by
        simpa [hparse, Except.toOption, hcatalog, Network.brief] using hfirst
      have hopen' : (second.isHttp && p.catalog.network.connects second) = true := by
        simpa [hparse', Except.toOption, hcatalog, Network.brief] using hsecond
      have hone := hreply 0 (by omega) (Catalog.requestFor first none)
      have htwo := hreply 1 (by omega) (Catalog.requestFor second none)
      rw [if_pos rfl, Nat.add_zero] at hone
      rw [if_neg (by simp)] at htwo
      exact ⟨first, second, @fetchArchive_of_answers p w ⟨"a", version⟩ url first second _
        Tar.folder ⟨"http://c/a", none⟩ hgate (eq_ok_of_toOption hurl) hparse hopen
        hone hrelease hparse' hopen' htwo rfl⟩

theorem brief_unpack : Tar.unpack ["s", "modules", ".tmp0"] Tar.folder =
    some [(["s", "modules", ".tmp0", "a"], .dir)] := by
  rw [Tar.folder, Tar.unpack_pack (by decide +kernel) Tar.readEntries_folderBytes]
  decide +kernel

/-- The brief network lets a version be installed wherever its archive can be extracted and the lock
can be written. -/
theorem brief_install (hstate : p.stateDir = ⟨"/s"⟩) (hcatalog : p.catalog = ⟨"http://c", .brief⟩)
    {version : String} (hversion : version = "1.0.0" ∨ version = "2.0.0")
    (hgate : w.offline = false) (hcount : w.requests.length = 0 ∨ w.requests.length = 2)
    {after d d' : Disk}
    (hextract : extracted? ((Path.mk "/s").join "modules") "a" ".tmp0" "a" ["s", "modules"]
      [(["s", "modules", ".tmp0", "a"], .dir)] w.disk = some after)
    (hmake : after.makeDirs ⟨"/s"⟩ = (none, d)) {lock : Lock}
    (hwrite : d.write ((Path.mk "/s").join "lock.yaml")
      { lock.record "a" version none (w.clock 0) with
        generated := (w.clock 1).withOffset }.render.toUTF8 = (none, d')) :
    ∃ w', (∀ rest, p.installAll lock (⟨"a", version⟩ :: rest) w =
        p.installAll (lock.record "a" version none (w.clock 0)) rest w') ∧
      w'.disk = d' ∧ w'.offline = false ∧ w'.requests.length = w.requests.length + 2 := by
  have hpath : (Path.mk "/s").join "lock.yaml" = p.lockPath := by rw [lockPath, hstate]
  have hfolder : p.lockPath.parent? = some ⟨"/s"⟩ := by
    rw [← hpath]
    decide +kernel
  have hmodules : (Path.mk "/s").join "modules" = p.modulesDir := by rw [modulesDir, hstate]
  rw [hmodules] at hextract
  rw [hpath] at hwrite
  obtain ⟨first, second, hfetch⟩ := brief_fetch hcatalog hversion hgate hcount
  let v : World := { w with
    journal := w.journal ++ askedFor ⟨"a", version⟩ ⟨"http://c/a", none⟩ first second }
  have hplace : p.extract "a" Tar.folder v = (.ok (p.installPath "a"), { v with disk := after }) :=
    extract_of_extracted? hextract brief_unpack
  refine ⟨settled ⟨"a", version⟩ (p.installPath "a") v d',
    installAll_of_steps hfetch hplace hfolder hmake hwrite, rfl, hgate, ?_⟩
  simp [settled, v, World.requests, askedFor]

/-- Where there are no files, what is wanted is missing, and the lock is empty. -/
theorem missing_bare (hstate : p.stateDir = ⟨"/s"⟩) (hdups : p.wanted.eraseDups = p.wanted)
    (hsorted : p.wanted.Pairwise fun a b => Dependency.le a b = true) :
    (p.missing : Act Failure _) World.bare = (.ok p.wanted, World.bare) ∧
      (p.readLock : Act Failure _) World.bare = (.ok (Lock.empty ⟨0, 0⟩), World.bare) := by
  have habsent : World.bare.disk.has p.lockPath = false := by
    rw [lockPath, hstate]
    decide +kernel
  have hmissing := missing_of_absent (ε := Failure) habsent
  rw [hdups, List.mergeSort_of_pairwise hsorted] at hmissing
  exact ⟨hmissing, readLock_of_absent habsent⟩

/-- The brief network lets one version be installed, or two. -/
theorem installAll_versions (hstate : p.stateDir = ⟨"/s"⟩)
    (hcatalog : p.catalog = ⟨"http://c", .brief⟩) :
    (∃ w, p.installAll (Lock.empty ⟨0, 0⟩) [⟨"a", "1.0.0"⟩] World.bare = (.ok (), w)) ∧
    ∃ w, p.installAll (Lock.empty ⟨0, 0⟩) [⟨"a", "1.0.0"⟩, ⟨"a", "2.0.0"⟩] World.bare =
      (.ok (), w) ∧
      w.offline = false ∧ w.requests.length = 4 := by
  let lockFile := (Path.mk "/s").join "lock.yaml"
  let steps := extracted? ((Path.mk "/s").join "modules") "a" ".tmp0" "a" ["s", "modules"]
    [(["s", "modules", ".tmp0", "a"], .dir)]
  let once : Disk := ⟨[(["s"], .dir), (["s", "modules"], .dir), (["s", "modules", "a"], .dir)], []⟩
  let lock := (Lock.empty ⟨0, 0⟩).record "a" "1.0.0" none ⟨0, 0⟩
  let text := { lock with generated := Timestamp.withOffset ⟨0, 0⟩ }.render
  let twice : Disk := once.put ["s", "lock.yaml"] (.file text.toUTF8)
  have hfirst : steps World.bare.disk = some once := by decide +kernel
  have hfree : once.find true lockFile = .ok (.free ["s", "lock.yaml"]) := by decide +kernel
  have hmake : once.makeDirs ⟨"/s"⟩ = (none, once) := by decide +kernel
  have hsecond : (steps twice).any (fun d =>
      (d.makeDirs ⟨"/s"⟩).1.isNone && (d.makeDirs ⟨"/s"⟩).2.isFile lockFile) = true := by
    decide +kernel
  obtain ⟨w, hrun, hdisk, hgate, hcount⟩ := brief_install hstate hcatalog (.inl rfl)
    (w := World.bare) rfl (.inl rfl) hfirst hmake (write_of_free hfree _)
  refine ⟨⟨w, hrun []⟩, ?_⟩
  cases hafter : steps twice with
  | none => simp [hafter] at hsecond
  | some after =>
      rw [hafter, Option.any_some, Bool.and_eq_true, Option.isNone_iff_eq_none] at hsecond
      obtain ⟨d', hwrite⟩ :=
        write_of_isFile hsecond.2 { (lock.record "a" "2.0.0" none (w.clock 0)) with
        generated := (w.clock 1).withOffset }.render.toUTF8
      obtain ⟨w', hrun', -, hgate', hcount'⟩ := brief_install hstate hcatalog (.inr rfl) hgate
        (.inr hcount) (hdisk ▸ hafter) (Prod.ext hsecond.1 rfl) hwrite
      exact ⟨w', (hrun _).trans ((hrun' []).trans rfl), hgate', by rw [hcount', hcount]; rfl⟩

end Packages

end PartDepot
