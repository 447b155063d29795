import PartDepot.Proofs.Holding
import PartDepot.Proofs.Reaching

/-!
# The lock over many installations

A state directory starts out empty and is only installed to, with any lists of packages,
catalogs and failures.  Whatever the lock then records of a package that stands at its name is
true: the package is what the archive of that version has, the last that was extracted under the
name, and the digest is the one of the archive.
-/

namespace PartDepot

open Disk

namespace Packages

variable {p : Packages} {d d' : Disk} {home : Place} {w w' : World} {x : Delivery}
  {log : List Delivery} {dep : Dependency} {lock : Lock}

/-! ## One package -/

/-- A disk whose state directory, once made, holds what was put there and records nothing else. -/
structure Kept (p : Packages) (home : Place) (log : List Delivery) (d : Disk) : Prop where
  held : p.Held home log (d.makeDirs p.stateDir).2
  backed : Backed log (p.recorded (d.makeDirs p.stateDir).2)

theorem Held.kept (h : p.Held home log d) (hbacked : Backed log (p.recorded d)) :
    p.Kept home log d := by
  have hmade := h.leads.makeDirs_self
  exact ⟨hmade.symm ▸ h, hmade.symm ▸ hbacked⟩

theorem Kept.recorded (h : p.Kept home log d) : Backed log (p.recorded d) :=
  fun e he => h.backed e (recorded_mono (d.makeDirs_extends p.stateDir) he)

/-- An extraction that fails keeps the state directory in order. -/
theorem Kept.extract_error (h : p.Kept home log w.disk) {name : String}
    (haccepted : Manifest.isPackageName name = true) {archive : ByteArray} {e : Failure}
    (hrun : p.extract name archive w = (.error e, w')) : p.Kept home log w'.disk := by
  rcases h.held.modules_made with ⟨fault, hfault⟩ | ⟨made, hmade, hheld, hhere, hlock⟩
  · rw [extract_eq, opening_of_fault hfault] at hrun
    obtain ⟨-, rfl⟩ := Prod.mk.inj hrun
    exact h
  · have hname : isName name = true ∨ name = "." := by
      by_cases hdot : name = "."
      · exact .inr hdot
      · exact .inl (isName_of_isPackageName haccepted hdot)
    obtain ⟨gone, d, rfl, hloses⟩ :=
      Packages.extract_error hname hmade hheld.tidy hheld.direct hheld.bounded hrun
    have hkept := hheld.loses hloses
    refine hkept.kept fun entry he => h.backed entry ?_
    refine h.held.recorded_of_same hkept (hloses.here.trans hhere) ?_ he
    rw [hloses.kept _ fun place name hleads _ hbelow => ?_, hlock]
    obtain ⟨rfl, -⟩ := hheld.of_leads_modules hleads
    simp at hbelow

/-- A package that is put in its place becomes the last one under its name. -/
theorem Kept.delivers (h : p.Kept home log w.disk)
    (haccepted : Manifest.isPackageName x.dep.name = true) (hx : p.Delivers w x w') :
    p.Held home (log ++ [x]) w'.disk ∧ ∃ place, w'.disk.Leads p.modulesDir place := by
  have hname := hx.isName haccepted
  rcases h.held.modules_made with ⟨fault, hfault⟩ | ⟨made, hmade, hheld, -⟩
  · obtain ⟨v, path, hfetch, hextract⟩ := hx
    have hstill : w.Still (p.fetchArchive x.dep w).2 := p.fetchArchive_keeps x.dep w
    rw [hfetch] at hstill
    rw [← hstill.disk] at hfault
    rw [extract_eq, opening_of_fault hfault] at hextract
    simp at hextract
  · obtain ⟨place, tmp, n, hstage, hextracted, -, -⟩ :=
      hx.extracted hname hmade hheld.tidy (.inr hheld.direct)
    exact ⟨hheld.extracted hname hstage hextracted, place, hextracted.leads⟩

/-- Where the lock can be saved, it is saved and the packages stay. -/
theorem Held.save (hwritable : LockWritable p.stateDir) (h : p.Held home log w.disk) {place : Place}
    (hleads : w.disk.Leads p.modulesDir place) (lock : Lock) :
    ∃ w', lock.save p.lockPath w = (.ok (), w') ∧ p.Held home log w'.disk := by
  obtain ⟨w', hsave⟩ := hwritable lock w home h.leads h.lockFile
  obtain ⟨w'', -, ⟨e, hfault, -⟩ | ⟨hok, hsaved⟩⟩ := save_cases hleads lock
  · have hboth := hfault.symm.trans hsave
    simp at hboth
  · exact ⟨w'', hok, h.saved hsaved⟩

/-- One package: the state directory is in order afterwards, and so is the lock that goes on. -/
theorem Kept.advance (hwritable : LockWritable p.stateDir)
    (haccepted : Manifest.isPackageName dep.name = true) (h : p.Kept home log w.disk)
    (hlock : Backed log lock.installed) :
    p.Kept home (log ++ (p.delivery? dep w).toList) (p.advance lock dep w).2.disk ∧
      ∀ lock', (p.advance lock dep w).1 = .ok lock' →
        Backed (log ++ (p.delivery? dep w).toList) lock'.installed := by
  rcases p.advance_cases lock dep w with
    ⟨hnone, e, w', hinstall, hfail⟩ | ⟨x, w₁, v, time, hsome, rfl, hx, hdisk, -, hrun⟩
  · rw [hnone, advance_of_error hinstall, Option.toList_none, List.append_nil]
    refine ⟨?_, fun lock' hok => by simp at hok⟩
    have hstill : w.Still (p.fetchArchive dep w).2 := p.fetchArchive_keeps dep w
    rcases hfail with hfetch | ⟨archive, digest, v, hfetch, hextract⟩
    · rw [hfetch] at hstill
      exact hstill.disk.symm ▸ h
    · rw [hfetch] at hstill
      exact Kept.extract_error (hstill.disk.symm ▸ h) haccepted hextract
  · obtain ⟨hheld, place, hleads⟩ := h.delivers haccepted hx
    rw [← hdisk] at hheld hleads
    obtain ⟨w', hsave, hheld'⟩ := hheld.save hwritable hleads (recording lock x time)
    have hbacked := hlock.record x time
    rw [hsome, hrun, Act.bind_of_ok hsave, Option.toList_some]
    refine ⟨hheld'.kept ?_, fun lock' hok => ?_⟩
    · rw [recorded_of_save hsave]
      exact hbacked
    · exact Except.ok.inj hok ▸ hbacked

/-! ## Installations -/

/-- The packages that are put in their places when packages are installed one after the other. -/
def deliveriesOf (p : Packages) : Lock → List Dependency → World → List Delivery
  | _, [], _ => []
  | lock, dep :: rest, w =>
    (p.delivery? dep w).toList ++
      match p.advance lock dep w with
      | (.ok lock', v) => p.deliveriesOf lock' rest v
      | (.error _, _) => []

/-- The packages that are put in their places by an installation. -/
def deliveries (p : Packages) (w : World) : List Delivery :=
  match (p.missing : Act Failure _) w with
  | (.ok missing, v) =>
    match (p.readLock : Act Failure _) v with
    | (.ok lock, v') => p.deliveriesOf lock missing v'
    | (.error _, _) => []
  | (.error _, _) => []

theorem Kept.installAll (hwritable : LockWritable p.stateDir) {deps : List Dependency}
    (haccepted : ∀ dep ∈ deps, Manifest.isPackageName dep.name = true)
    (h : p.Kept home log w.disk) (hlock : Backed log lock.installed) :
    p.Kept home (log ++ p.deliveriesOf lock deps w) (p.installAll lock deps w).2.disk := by
  induction deps generalizing lock log w with
  | nil =>
      rw [deliveriesOf, List.append_nil]
      exact h
  | cons dep rest ih =>
      obtain ⟨hkept, hbacked⟩ := h.advance hwritable (haccepted dep List.mem_cons_self) hlock
      rw [installAll_eq, Act.bind_apply, deliveriesOf, ← List.append_assoc]
      rcases hrun : p.advance lock dep w with ⟨e | lock', v⟩
      · rw [hrun] at hkept
        rw [List.append_nil]
        exact hkept
      · rw [hrun] at hkept hbacked
        exact ih (fun dep hdep => haccepted dep (List.mem_cons_of_mem _ hdep)) hkept
          (hbacked lock' rfl)

theorem Kept.installMissing (hwritable : LockWritable p.stateDir)
    (haccepted : ∀ dep ∈ p.wanted, Manifest.isPackageName dep.name = true)
    (h : p.Kept home log w.disk) :
    p.Kept home (log ++ p.deliveries w) (p.installMissing w).2.disk := by
  obtain ⟨missing, wₘ, hmissing, hiff, hstillₘ, -⟩ := p.missing_apply Failure w
  obtain ⟨lock, wₗ, hlock, hentries, hstillₗ, -⟩ := p.readLock_apply Failure wₘ
  have hdisk : wₗ.disk = w.disk := hstillₗ.disk.trans hstillₘ.disk
  have hlog : p.deliveries w = p.deliveriesOf lock missing wₗ := by
    unfold deliveries
    rw [hmissing]
    dsimp only
    rw [hlock]
  by_cases hne : missing = []
  · have hrun : p.installMissing w = (.ok (), wₘ) := by
      unfold Packages.installMissing
      rw [Act.bind_of_ok hmissing, hne]
      rfl
    rw [hlog, hne, hrun, deliveriesOf, List.append_nil]
    exact hstillₘ.disk.symm ▸ h
  · rw [installMissing_of_missing hmissing hne hlock, hlog]
    refine Kept.installAll hwritable (fun dep hdep => haccepted dep ((hiff dep).mp hdep).1)
      (hdisk.symm ▸ h) ?_
    rw [hentries, hstillₘ.disk]
    exact h.recorded

/-! ## Histories -/

/-- An installation of any accepted packages from any catalog, at any time, in any listing order of
directories, and with the gate open or not. -/
structure Call where
  wanted : List Dependency
  accepted : ∀ dep ∈ wanted, Manifest.isPackageName dep.name = true
  catalog : Catalog
  offline : Bool
  clock : Nat → Timestamp
  listing : Listing

def Call.packages (c : Call) (stateDir : Path) : Packages := ⟨c.wanted, stateDir, c.catalog⟩

/-- The world in which a call begins. -/
def Call.begin (c : Call) (w : World) : World :=
  { w with offline := c.offline, clock := c.clock, listing := c.listing }

/-- Somebody else changed the disk, but nothing in the state directory, nor did the path to it
come to lead elsewhere or through it. -/
structure Aside (stateDir : Path) (d d' : Disk) : Prop where
  here : d'.here = d.here
  way : ∀ home, (d.makeDirs stateDir).2.Leads stateDir home →
    ((d'.makeDirs stateDir).2.eraseBelow home).Leads stateDir home
  same : ∀ home, (d.makeDirs stateDir).2.Leads stateDir home → ∀ q, home <+: q →
    (d'.makeDirs stateDir).2.node? q = (d.makeDirs stateDir).2.node? q

/-- The worlds to which calls lead from an empty state directory, with the packages that they put in
their places on the way. -/
inductive History (stateDir : Path) : World → List Delivery → Prop
  | start {w : World} : w.disk.Rooted → (w.disk.makeDirs stateDir).2.list stateDir = .ok [] →
      History stateDir w []
  | call {w : World} {log : List Delivery} (c : Call) : History stateDir w log →
      History stateDir ((c.packages stateDir).installMissing (c.begin w)).2
        (log ++ (c.packages stateDir).deliveries (c.begin w))
  | aside {w : World} {log : List Delivery} {d : Disk} : History stateDir w log →
      Aside stateDir w.disk d → History stateDir { w with disk := d } log

theorem kept_of_empty (hrooted : d.Rooted)
    (hempty : (d.makeDirs p.stateDir).2.list p.stateDir = .ok []) :
    ∃ home, p.Kept home [] d := by
  have hclear (b : Place) : (d.makeDirs p.stateDir).2.Clear b := (hrooted b).makeDirs p.stateDir
  suffices hheld : ∃ home, p.Held home [] (d.makeDirs p.stateDir).2 ∧
      (d.makeDirs p.stateDir).2.node? (home ++ ["lock.yaml"]) = none by
    obtain ⟨home, hheld, hnone⟩ := hheld
    refine ⟨home, hheld, fun e he => ?_⟩
    obtain ⟨q, content, hfind, -⟩ := mem_recorded.mp he
    have hnode := congrArg Spot.node? (hheld.find_lock hfind)
    rw [spotAt_node?, hnone] at hnode
    simp [Spot.node?] at hnode
  generalize (d.makeDirs p.stateDir).2 = made at hempty hclear
  unfold Disk.list at hempty
  cases hfind : made.find true p.stateDir with
  | error fault => simp [hfind, bind, Except.bind] at hempty
  | ok s =>
      rw [hfind] at hempty
      cases s with
      | free q => simp [bind, Except.bind] at hempty
      | taken home n =>
          cases n with
          | file content => simp [bind, Except.bind] at hempty
          | link target => simp [bind, Except.bind] at hempty
          | dir =>
              have hnames : made.names home = [] := Except.ok.inj hempty
              have hnone (name : String) (hname : isName name = true) :
                  made.node? (home ++ [name]) = none := by
                cases hnode : made.node? (home ++ [name]) with
                | none => rfl
                | some n =>
                    have hmem := mem_names hname hnode
                    simp [hnames] at hmem
              obtain ⟨hbelow, haway⟩ := hclear _ (hnone "modules" (by decide))
              have hless : made.Extends (made.eraseBelow (home ++ ["modules"])) :=
                (sameBut_eraseBelow made _).toExtends (.refl made) fun q hq => hbelow q hq.1
              have hlock := hnone "lock.yaml" (by decide)
              refine ⟨home, ⟨hless.leads (leads_of_find hfind), haway, .inr hbelow, fun n hn => ?_,
                fun name => .inl fun rest => hbelow _ (by simp)⟩, hlock⟩
              simp [hlock] at hn

theorem Kept.aside (h : p.Kept home log d) (haside : Aside p.stateDir d d') :
    p.Kept home log d' := by
  have hmade : (d'.makeDirs p.stateDir).2.here = (d.makeDirs p.stateDir).2.here := by
    rw [(d'.makeDirs_extends _).here, (d.makeDirs_extends _).here, haside.here]
  have hsame {q : Place} (hq : home <+: q) := haside.same home h.held.leads q hq
  have hway := haside.way home h.held.leads
  obtain ⟨hheld, hbacked⟩ := h
  generalize hd : (d.makeDirs p.stateDir).2 = made at hheld hbacked hmade hsame
  generalize hd' : (d'.makeDirs p.stateDir).2 = made' at hmade hsame hway
  have hheld' : p.Held home log made' := by
    have hless : (made'.eraseBelow home).Extends (made'.eraseBelow (home ++ ["modules"])) :=
      ((sameBut_eraseBelow made' _).mono fun q hq => below_of_name hq.1).eraseBelow_extends
    refine ⟨hless.leads hway, hmade ▸ hheld.away, ?_, ?_, fun name => ?_⟩
    · rw [hsame (by simp)]
      exact hheld.modules.imp_right fun hnone q hq =>
        (hsame (.trans (by simp) hq)).trans (hnone q hq)
    · rw [hsame (by simp)]
      exact hheld.lockFile
    · exact hheld.packages_congr fun rest => hsame (by simp)
  constructor
  · rwa [hd']
  · rw [hd']
    exact fun e he => hbacked e (hheld.recorded_of_same hheld' hmade (hsame (by simp)) he)

/-- Only the state directory matters, not what is wanted or where it comes from. -/
theorem Kept.of_stateDir {p' : Packages} (h : p.Kept home log d)
    (hstate : p'.stateDir = p.stateDir) :
    p'.Kept home log d := by
  have hrecorded : p'.recorded = p.recorded := by
    funext d
    unfold Packages.recorded lockPath
    rw [hstate]
  obtain ⟨⟨hway, haway, hmodules, hlock, hpackages⟩, hbacked⟩ := h
  rw [← hstate] at hway haway hmodules hlock hpackages hbacked
  exact ⟨⟨hway, haway, hmodules, hlock, hpackages⟩, hrecorded ▸ hbacked⟩

/-- Every world of a history holds what was put in the state directory. -/
theorem History.kept {stateDir : Path} (h : History stateDir w log)
    (hwritable : LockWritable stateDir) (hp : p.stateDir = stateDir) :
    ∃ home, p.Kept home log w.disk := by
  induction h generalizing p with
  | start hrooted hempty =>
      subst hp
      exact kept_of_empty hrooted hempty
  | @call w log c _ ih =>
      obtain ⟨home, hkept⟩ := ih (p := c.packages stateDir) rfl
      have hafter : (c.packages stateDir).Kept home _ _ :=
        Kept.installMissing (w := c.begin w) hwritable c.accepted hkept
      exact ⟨home, hafter.of_stateDir hp⟩
  | aside _ haside ih =>
      subst hp
      obtain ⟨home, hkept⟩ := ih rfl
      exact ⟨home, hkept.aside haside⟩

theorem delivers_of_delivery? (h : p.delivery? dep w = some x) :
    x.dep = dep ∧ ∃ w', p.Delivers w x w' := by
  unfold delivery? at h
  rcases hfetch : p.fetchArchive dep w with ⟨e | ⟨archive, digest⟩, v⟩
  · simp [hfetch] at h
  · rw [hfetch] at h
    dsimp only at h
    rcases hextract : p.extract dep.name archive v with ⟨e | path, w'⟩
    · simp [hextract] at h
    · rw [hextract] at h
      obtain rfl := Option.some.inj h
      exact ⟨rfl, w', v, path, hfetch, hextract⟩

theorem delivers_of_mem_deliveriesOf {deps : List Dependency} (h : x ∈ p.deliveriesOf lock deps w) :
    x.dep ∈ deps ∧ ∃ v w', p.Delivers v x w' := by
  induction deps generalizing lock w with
  | nil => simp [deliveriesOf] at h
  | cons dep rest ih =>
      rw [deliveriesOf] at h
      rcases List.mem_append.mp h with hfirst | hlater
      · obtain ⟨rfl, w', hx⟩ := delivers_of_delivery? (Option.mem_toList.mp hfirst)
        exact ⟨List.mem_cons_self, w, w', hx⟩
      · rcases hrun : p.advance lock dep w with ⟨e | lock', v⟩
        · simp [hrun] at hlater
        · rw [hrun] at hlater
          obtain ⟨hdep, hx⟩ := ih hlater
          exact ⟨List.mem_cons_of_mem _ hdep, hx⟩

theorem delivers_of_mem_deliveries (h : x ∈ p.deliveries w) :
    x.dep ∈ p.wanted ∧ ∃ v w', p.Delivers v x w' := by
  obtain ⟨missing, wₘ, hmissing, hiff, -, -⟩ := p.missing_apply Failure w
  obtain ⟨lock, wₗ, hlock, -, -, -⟩ := p.readLock_apply Failure wₘ
  unfold deliveries at h
  rw [hmissing] at h
  dsimp only at h
  rw [hlock] at h
  obtain ⟨hdep, hx⟩ := delivers_of_mem_deliveriesOf h
  exact ⟨((hiff x.dep).mp hdep).1, hx⟩

/-- Whatever was put in its place was downloaded and extracted in some call. -/
theorem History.delivered {stateDir : Path} (h : History stateDir w log) :
    ∀ x ∈ log, isName x.dep.name = true ∧
      ∃ (c : Call) (v v' : World), (c.packages stateDir).Delivers v x v' := by
  induction h with
  | start => simp
  | call c _ ih =>
      intro x hx
      rcases List.mem_append.mp hx with hearlier | hnew
      · exact ih x hearlier
      · obtain ⟨hdep, v, v', hdelivers⟩ := delivers_of_mem_deliveries hnew
        exact ⟨hdelivers.isName (c.accepted _ hdep), c, v, v', hdelivers⟩
  | aside _ _ ih => exact ih

theorem eq_digestOf_of_verify {archive : ByteArray} {digest : String}
    (h : verify archive (some digest) = .ok ()) : digest = digestOf archive := by
  unfold verify at h
  dsimp only at h
  split at h
  · next hsame => exact hsame.symm
  · simp at h

/-- The lock of a state directory that started out empty never lies: where something stands at the
name of an entry, it is what was extracted last under that name, from an archive that was downloaded
for the name and the version of the entry, and a digest in the entry is the one of that archive. -/
theorem recorded_stands (hwritable : LockWritable p.stateDir) (h : History p.stateDir w log)
    {e : InstalledPackage} (he : e ∈ p.recorded w.disk) {q : Place} {n : Node}
    (hfind : w.disk.find false (p.installPath e.name) = .ok (.taken q n)) :
    ∃ x, latest log e.name = some x ∧ x.dep = ⟨e.name, e.version⟩ ∧
      (∃ (c : Call) (v v' : World), (c.packages p.stateDir).Delivers v x v') ∧
      Unpacked x.archive w.disk q ∧
      ∀ digest, e.digest = some digest → digest = digestOf x.archive := by
  obtain ⟨home, hkept⟩ := h.kept hwritable rfl
  obtain ⟨x, hlatest, hdep, hdigest⟩ := hkept.recorded e he
  obtain ⟨hname, c, v, v', hdelivers⟩ := h.delivered x (mem_of_latest hlatest)
  rw [name_of_latest hlatest] at hname
  refine ⟨x, hlatest, hdep, ⟨c, v, v', hdelivers⟩, ?_, fun digest hsome => ?_⟩
  · obtain ⟨place, hleads⟩ := leads_of_find_join (isPiece_of_isName hname) hfind
    obtain ⟨root, hroot⟩ := hleads.of_join_root ⟨by decide, by decide⟩
    have hheld := hkept.held
    rw [hroot.makeDirs_self] at hheld
    obtain ⟨rfl, -⟩ := hheld.of_leads_modules hleads
    have hspot := hleads.find_name hname hfind
    have hplace := congrArg Spot.place hspot
    have hnode := congrArg Spot.node? hspot
    rw [spotAt_place, List.append_assoc] at hplace
    rw [spotAt_node?, List.append_assoc] at hnode
    obtain rfl : q = home ++ ["modules", e.name] := hplace
    rcases hheld.packages e.name with hnone | ⟨y, hlatest', hunpacked⟩
    · have hself := hnone []
      rw [List.append_nil] at hself
      exact absurd (hnode.trans hself) (Option.some_ne_none n)
    · obtain rfl := Option.some.inj (hlatest.symm.trans hlatest')
      exact hunpacked
  · obtain ⟨v'', path, hfetch, -⟩ := hdelivers
    obtain ⟨release, u, u', -, -, -, hverify⟩ := fetchArchive_eq_ok hfetch
    rw [hdigest, hsome] at hverify
    exact eq_digestOf_of_verify hverify

/-- A lock can be saved in any state directory whose paths are not too long and hold nothing
forbidden. -/
theorem lockWritable_of_start {stateDir folder : Path}
    (hfolder : (stateDir.join "lock.yaml").parent? = some folder)
    (hstart : ∀ d : Disk, ∃ place, d.start folder = .ok place)
    (hstart' : ∀ d : Disk, ∃ place, d.start (stateDir.join "lock.yaml") = .ok place) :
    LockWritable stateDir := by
  intro lock w home hleads hfile
  have hpiece : Path.IsPiece "lock.yaml" := ⟨by decide, by decide⟩
  obtain ⟨place, hplace⟩ := hstart w.disk
  obtain ⟨place', hplace'⟩ := hstart' w.disk
  obtain ⟨hnames, habsolute⟩ := Path.names_of_parent?_join hpiece (by decide) hfolder
  have hmake := hleads.makeDirs_of_start hnames habsolute hplace
  obtain ⟨links, henters⟩ := hleads
  have hunder := Path.under_join hpiece stateDir
  obtain ⟨s, hs⟩ : ∃ s, w.disk.walk false links home ["lock.yaml"] = .ok s :=
    w.disk.exists_walk_name (by decide) (by decide) (by decide) links home
  have hfind := (find_under henters hunder (by simp) hplace' false).trans hs
  have hspot := Leads.find_name ⟨links, henters⟩ (by decide) hfind
  have hsame : w.disk.find true (stateDir.join "lock.yaml") = .ok s := by
    rw [find_follow fun q target hlink => ?_, hfind]
    rw [hfind, hspot] at hlink
    have hnode := congrArg Spot.node? (Except.ok.inj hlink)
    rw [spotAt_node?] at hnode
    obtain ⟨content, hlinked⟩ := hfile _ hnode
    simp at hlinked
  have hwrite (content : ByteArray) :
      ∃ d', w.disk.write (stateDir.join "lock.yaml") content = (none, d') := by
    unfold Disk.write
    rw [hsame]
    cases s with
    | free q => exact ⟨_, rfl⟩
    | taken q n =>
        have hnode := congrArg Spot.node? hspot
        rw [spotAt_node?] at hnode
        obtain ⟨old, rfl⟩ := hfile n hnode.symm
        exact ⟨_, rfl⟩
  obtain ⟨d', hd'⟩ := hwrite { lock with generated := (w.clock 0).withOffset }.render.toUTF8
  exact ⟨_, Lock.save_of_write hfolder hmake hd'⟩

theorem lockWritable_plain : LockWritable ⟨"/s"⟩ := by
  have hfolder : ((Path.mk "/s").join "lock.yaml").parent? = some ⟨"/s"⟩ := by decide +kernel
  refine lockWritable_of_start hfolder (fun d => ⟨[], ?_⟩) fun d => ⟨[], ?_⟩
  · rfl
  · rfl

theorem exists_find_of_isDir {name : String} (hname : isName name = true)
    (h : d.isDir (p.installPath name) = true) :
    ∃ q n, d.find false (p.installPath name) = .ok (.taken q n) := by
  unfold Disk.isDir at h
  split at h
  · next q hfind =>
    obtain ⟨place, hleads⟩ := leads_of_find_join (isPiece_of_isName hname) hfind
    have hspot : d.find false (p.installPath name) = .ok (d.spotAt (place ++ [name])) :=
      hleads.find_name_again rfl hname hfind
    cases hnode : d.node? (place ++ [name]) with
    | some n => exact ⟨_, n, by rw [hspot, spotAt_of_node hnode]⟩
    | none =>
        have hfree : d.spotAt (place ++ [name]) = .free (place ++ [name]) := by
          unfold spotAt
          rw [hnode]
        rw [hfree] at hspot
        rw [find_follow (by simp [hspot]), hspot] at hfind
        simp at hfind
  · simp at h

/-- One call on a disk without files: the package is what its archive has. -/
theorem recorded_stands_one :
    ∃ w log, History ⟨"/s"⟩ w log ∧
      ∃ x q, latest log "a" = some x ∧ x.dep = ⟨"a", "1.0.0"⟩ ∧ Unpacked x.archive w.disk q := by
  let c : Call :=
    { wanted := [⟨"a", "1.0.0"⟩]
      accepted := by decide +kernel
      catalog := ⟨"http://c", .brief⟩
      offline := false
      clock := fun _ => ⟨0, 0⟩
      listing := .asStored }
  let p := c.packages ⟨"/s"⟩
  obtain ⟨hmissing, hlock⟩ := missing_bare (p := p) rfl (by decide +kernel) (by decide +kernel)
  obtain ⟨⟨w, hall⟩, -⟩ := installAll_versions (p := p) rfl rfl
  have hrun : p.installMissing World.bare = (.ok (), w) :=
    (installMissing_of_missing hmissing (by simp [p, c, Call.packages]) hlock).trans hall
  have hhistory : History p.stateDir w ([] ++ p.deliveries World.bare) := by
    have hcall := History.call c (.start World.bare_rooted (by decide +kernel) :
      History ⟨"/s"⟩ World.bare [])
    have hend : (p.installMissing World.bare).2 = w := by rw [hrun]
    exact hend ▸ hcall
  have hplain : ∀ dep ∈ p.wanted, ∀ home target, World.bare.disk.Leads p.modulesDir home →
      World.bare.disk.node? (home ++ [dep.name]) ≠ some (.link target) := by
    intro dep _ home target _ hlink
    simp [node?, World.bare] at hlink
  obtain ⟨kept, hwanted, -, hentry, hdir⟩ := present_of_installMissing c.accepted World.bare_rooted
    (brief_linkFree rfl) hplain hrun ⟨"a", "1.0.0"⟩ List.mem_cons_self
  obtain rfl : kept = ⟨"a", "1.0.0"⟩ := List.mem_singleton.mp hwanted
  obtain ⟨q, n, hfind⟩ := exists_find_of_isDir (by decide) hdir
  cases he : (p.recorded w.disk).find? (·.name = "a") with
  | none => simp [he] at hentry
  | some e =>
      have hname : e.name = "a" := by simpa using List.find?_some he
      rw [he, Option.any_some, decide_eq_true_iff] at hentry
      rw [← hname] at hfind
      obtain ⟨x, hlatest, hdep, -, hunpacked, -⟩ := recorded_stands lockWritable_plain hhistory
        (List.mem_of_find?_eq_some he) hfind
      rw [hname] at hlatest
      rw [hname, hentry] at hdep
      exact ⟨w, _, hhistory, x, q, hlatest, hdep, hunpacked⟩

end Packages

end PartDepot
