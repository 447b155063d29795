import PartDepot.Proofs.Recording

/-!
# Installing one package after the other

Every package that is downloaded and extracted is recorded before the next one is begun.  A run
keeps the packages that it does not install, and of those with one name the last stays.
-/

namespace PartDepot

open Disk

/-- A package as it was downloaded. -/
structure Delivery where
  dep : Dependency
  archive : ByteArray
  digest : Option String

namespace Packages

variable {p : Packages} {d d' made : Disk} {home : Place} {w w' : World} {x : Delivery}

/-! ## Runs -/

/-- A package is downloaded and put in its place. -/
def Delivers (p : Packages) (w : World) (x : Delivery) (w' : World) : Prop :=
  ∃ v path, p.fetchArchive x.dep w = (.ok (x.archive, x.digest), v) ∧
    p.extract x.dep.name x.archive v = (.ok path, w')

/-- The lock with a delivery recorded. -/
def recording (lock : Lock) (x : Delivery) (time : Timestamp) : Lock :=
  lock.record x.dep.name x.dep.version x.digest time

/-- Packages are delivered and recorded one after the other. -/
inductive Runs (p : Packages) : Lock → World → List Delivery → Lock → World → Prop
  | done {lock : Lock} {w : World} : Runs p lock w [] lock w
  | next {lock lock' : Lock} {w w₁ v w₂ w' : World} {x : Delivery} {time : Timestamp}
      {log : List Delivery} : p.Delivers w x w₁ → v.disk = w₁.disk → v.requests = w₁.requests →
      (recording lock x time).save p.lockPath v = (.ok (), w₂) →
      Runs p (recording lock x time) w₂ log lock' w' → Runs p lock w (x :: log) lock' w'

/-- Installs one package and records it; yields the lock that was saved. -/
def advance (p : Packages) (lock : Lock) (dep : Dependency) : Act Failure Lock := do
  let digest ← Act.mapError (.context s!"Failed to install {dep.text}") (p.install dep)
  let time ← Act.now
  let lock := lock.record dep.name dep.version digest time
  lock.save p.lockPath
  return lock

theorem installAll_eq (p : Packages) (lock : Lock) (dep : Dependency) (rest : List Dependency) :
    p.installAll lock (dep :: rest) =
      p.advance lock dep >>= fun lock => p.installAll lock rest := by
  rw [installAll, advance]
  simp only [bind_assoc, pure_bind]

/-- The package that an installation puts in its place, if it comes to that. -/
def delivery? (p : Packages) (dep : Dependency) (w : World) : Option Delivery :=
  match p.fetchArchive dep w with
  | (.ok (archive, digest), v) =>
    match p.extract dep.name archive v with
    | (.ok _, _) => some ⟨dep, archive, digest⟩
    | (.error _, _) => none
  | (.error _, _) => none

theorem advance_of_error {dep : Dependency} {e : Failure} (h : p.install dep w = (.error e, w'))
    (lock : Lock) :
    p.advance lock dep w = (.error (.context s!"Failed to install {dep.text}" e), w') := by
  exact Act.bind_of_error (Act.mapError_of_error h _) _

theorem installAll_of_error {dep : Dependency} {e : Failure}
    (h : p.install dep w = (.error e, w')) (lock : Lock) (rest : List Dependency) :
    p.installAll lock (dep :: rest) w =
      (.error (.context s!"Failed to install {dep.text}" e), w') := by
  rw [installAll_eq]
  exact Act.bind_of_error (advance_of_error h lock) _

/-- A package is not put in its place, or it is and is to be recorded. -/
theorem advance_cases (p : Packages) (lock : Lock) (dep : Dependency) (w : World) :
    (p.delivery? dep w = none ∧ ∃ e w', p.install dep w = (.error e, w') ∧
      (p.fetchArchive dep w = (.error e, w') ∨
        ∃ archive digest v, p.fetchArchive dep w = (.ok (archive, digest), v) ∧
          p.extract dep.name archive v = (.error e, w'))) ∨
    ∃ x w₁ v time, p.delivery? dep w = some x ∧ x.dep = dep ∧ p.Delivers w x w₁ ∧
      v.disk = w₁.disk ∧ v.requests = w₁.requests ∧ p.advance lock dep w =
        ((recording lock x time).save p.lockPath >>= fun _ => pure (recording lock x time)) v := by
  unfold delivery?
  rcases p.install_cases dep w with
    ⟨e, w', hfetch, hinstall⟩ | ⟨archive, digest, v, hfetch, ⟨e, w', hextract, hinstall⟩ |
      ⟨path, w₁, hextract, hinstall⟩⟩
  · exact .inl ⟨by rw [hfetch], e, w', hinstall, .inl hfetch⟩
  · refine .inl ⟨?_, e, w', hinstall, .inr ⟨archive, digest, v, hfetch, hextract⟩⟩
    rw [hfetch]
    dsimp only
    rw [hextract]
  · let told := w₁.record (.logged .info s!"Installed {dep.text} to {path.text}")
    refine .inr ⟨⟨dep, archive, digest⟩, w₁, { told with clock := fun n => told.clock (n + 1) },
      told.clock 0, ?_, rfl, ⟨v, path, hfetch, hextract⟩, rfl, ?_, ?_⟩
    · rw [hfetch]
      dsimp only
      rw [hextract]
    · exact w₁.requests_logged _ _
    · rw [advance, Act.bind_of_ok (Act.mapError_of_ok hinstall _)]
      rfl

theorem installAll_cons (p : Packages) (lock : Lock) (dep : Dependency) (w : World) :
    (∃ e w', p.install dep w = (.error e, w') ∧ ∀ rest, p.installAll lock (dep :: rest) w =
      (.error (.context s!"Failed to install {dep.text}" e), w')) ∨
    ∃ x w₁ v time, x.dep = dep ∧ p.Delivers w x w₁ ∧ v.disk = w₁.disk ∧ v.requests = w₁.requests ∧
      ∀ rest, p.installAll lock (dep :: rest) w =
        ((recording lock x time).save p.lockPath >>= fun _ =>
          p.installAll (recording lock x time) rest) v := by
  rcases p.advance_cases lock dep w with
    ⟨-, e, w', hinstall, -⟩ | ⟨x, w₁, v, time, -, hdep, hx, hdisk, hrequests, hrun⟩
  · exact .inl ⟨e, w', hinstall, installAll_of_error hinstall lock⟩
  · refine .inr ⟨x, w₁, v, time, hdep, hx, hdisk, hrequests, fun rest => ?_⟩
    rw [installAll_eq, Act.bind_apply, hrun, Act.bind_apply, Act.bind_apply]
    rcases (recording lock x time).save p.lockPath v with ⟨_ | _, _⟩ <;> rfl

/-- What installing comes to: all is delivered and recorded, or all up to some package, which
cannot be installed or not be recorded. -/
theorem installAll_course (p : Packages) (lock : Lock) (deps : List Dependency) (w : World) :
    ∃ log lock' w', p.Runs lock w log lock' w' ∧
      ((deps = log.map (·.dep) ∧ ∀ rest,
          p.installAll lock (deps ++ rest) w = p.installAll lock' rest w') ∨
        ∃ dep rest, deps = log.map (·.dep) ++ dep :: rest ∧
          ((∃ e w'', p.install dep w' = (.error e, w'') ∧ p.installAll lock deps w =
            (.error (.context s!"Failed to install {dep.text}" e), w'')) ∨
          ∃ x w₁ v time e w'', x.dep = dep ∧ p.Delivers w' x w₁ ∧ v.disk = w₁.disk ∧
            (recording lock' x time).save p.lockPath v = (.error e, w'') ∧
            p.installAll lock deps w = (.error e, w''))) := by
  induction deps generalizing lock w with
  | nil => exact ⟨[], lock, w, .done, .inl ⟨rfl, fun _ => rfl⟩⟩
  | cons dep deps ih =>
      rcases p.installAll_cons lock dep w with
        ⟨e, w', hinstall, hrun⟩ | ⟨x, w₁, v, time, rfl, hdelivers, hdisk, hrequests, hrun⟩
      · exact ⟨[], lock, w, .done, .inr ⟨dep, deps, rfl, .inl ⟨e, w', hinstall, hrun deps⟩⟩⟩
      · rcases hsave : (recording lock x time).save p.lockPath v with ⟨e | _, w₂⟩
        · refine ⟨[], lock, w, .done, .inr ⟨x.dep, deps, rfl, .inr ?_⟩⟩
          refine ⟨x, w₁, v, time, e, w₂, rfl, hdelivers, hdisk, hsave, ?_⟩
          rw [hrun, Act.bind_of_error hsave]
        · have hon (rest : List Dependency) : p.installAll lock (x.dep :: rest) w =
              p.installAll (recording lock x time) rest w₂ := by
            rw [hrun, Act.bind_of_ok hsave]
          obtain ⟨log, lock', w', hruns, hend⟩ := ih (recording lock x time) w₂
          refine ⟨x :: log, lock', w', .next hdelivers hdisk hrequests hsave hruns, ?_⟩
          rcases hend with ⟨hdeps, hall⟩ | ⟨dep', rest, hdeps, hfault⟩
          · left
            refine ⟨by rw [hdeps]; rfl, fun rest => ?_⟩
            rw [List.cons_append, hon, hall]
          · right
            refine ⟨dep', rest, by rw [hdeps]; rfl, ?_⟩
            rw [hon]
            exact hfault

/-! ## Packages in their places -/

/-- The way to the modules directory does not lead through anything in it. -/
def Direct (p : Packages) (d : Disk) : Prop :=
  ∀ home, d.Leads p.modulesDir home → (d.eraseBelow home).Leads p.modulesDir home

/-- The modules directory can be worked in. -/
structure Ready (p : Packages) (d : Disk) (home : Place) : Prop where
  leads : d.Leads p.modulesDir home
  clear : ∀ name, d.Clear (home ++ [name])

/-- A directory or a link has the name of a package. -/
structure Stands (p : Packages) (d : Disk) (home : Place) (name : String) (n : Node) : Prop where
  found : d.find false (p.installPath name) = .ok (.taken (home ++ [name]) n)
  notFile : ∀ content, n ≠ .file content

/-- Packages with other names than these are where they were, and all there is of them is as it was;
only a lock may have been written there, if that is where the lock file leads to. -/
structure Spares (p : Packages) (home : Place) (names : List String) (d d' : Disk) : Prop where
  here : d'.here = d.here
  stands : ∀ {name n}, isName name = true → name ∉ names → p.Stands d home name n →
    p.Stands d' home name n
  node : ∀ {name}, name ∉ names → ∀ rest,
    d'.node? (home ++ [name] ++ rest) = d.node? (home ++ [name] ++ rest) ∨
      ∃ l : Lock, d'.node? (home ++ [name] ++ rest) = some (.file l.render.toUTF8)

theorem Ready.tidy (h : p.Ready d home) : p.Tidy d := by
  intro home' hleads
  obtain rfl := hleads.unique h.leads
  exact h.clear

theorem Stands.node? {name : String} {n : Node} (h : p.Stands d home name n)
    (hname : isName name = true) : d.node? (home ++ [name]) = some n := by
  obtain ⟨home', hleads⟩ := leads_of_find_join (isPiece_of_isName hname) h.found
  have hspot := hleads.find_name hname h.found
  have hplace := congrArg Spot.place hspot
  rw [spotAt_place] at hplace
  have hnode := congrArg Spot.node? hspot
  rw [spotAt_node?, ← hplace] at hnode
  exact hnode.symm

namespace Spares

variable {names names' : List String} {d'' : Disk}

theorem refl (names : List String) (d : Disk) : p.Spares home names d d :=
  ⟨rfl, fun _ _ => id, fun _ _ => .inl rfl⟩

theorem trans (h : p.Spares home names d d') (h' : p.Spares home names' d' d'') :
    p.Spares home (names ++ names') d d'' := by
  refine ⟨h'.here.trans h.here, fun hname hother hstands => ?_, fun {name} hother rest => ?_⟩
  · rw [List.mem_append, not_or] at hother
    exact h'.stands hname hother.2 (h.stands hname hother.1 hstands)
  · rw [List.mem_append, not_or] at hother
    rcases h'.node hother.2 rest with hsame | hlock
    · rcases h.node hother.1 rest with hsame' | ⟨l, hlock⟩
      · exact .inl (hsame.trans hsame')
      · exact .inr ⟨l, hsame.trans hlock⟩
    · exact .inr hlock

end Spares

/-! ### Saving the lock -/

section Saved

variable {lock : Lock} (h : p.Saved lock d d')

include h

theorem Saved.ready (hready : p.Ready d home) : p.Ready d' home :=
  ⟨h.leads hready.leads, fun name => h.clear (hready.clear name)⟩

theorem Saved.stands {name : String} {n : Node} (hstands : p.Stands d home name n) :
    p.Stands d' home name n :=
  ⟨h.find hstands.found hstands.notFile, hstands.notFile⟩

theorem Saved.spares : p.Spares home [] d d' :=
  ⟨h.here, fun _ _ => h.stands, fun _ _ => h.node? _⟩

theorem Saved.direct (hdirect : p.Direct d) : p.Direct d' := by
  obtain ⟨q, l, htakes, rfl⟩ := h.exists_put
  intro home hleads
  have hway := hdirect home (hleads.of_put_file htakes)
  by_cases hbelow : home <+: q ∧ q ≠ home
  · have hput : d.SameBut (fun r => home <+: r ∧ r ≠ home) (d.put q (.file l.render.toUTF8)) :=
      (sameBut_put d htakes.1 _).mono fun r hr => hr ▸ hbelow
    exact (hput.trans (sameBut_eraseBelow _ home)).eraseBelow_extends.leads hway
  · rw [eraseBelow_put d hbelow]
    have hq : (d.eraseBelow home).node? q = d.node? q := by rw [node?_eraseBelow, if_neg hbelow]
    exact hway.put_file ⟨htakes.1, by rw [hq]; exact htakes.2⟩ _

end Saved

/-! ### Putting a package in its place -/

/-- A delivered package was extracted, with the modules directory made before. -/
theorem Delivers.extracted (h : p.Delivers w x w') (hname : isName x.dep.name = true)
    (hmade : (w.disk.makeDirs p.modulesDir).2 = made) (htidy : p.Tidy made)
    (hreach : LinkFree x.archive ∨ p.Direct made) :
    ∃ home tmp n, p.Stage made home tmp ∧
      p.Extracted x.dep.name x.archive made w'.disk home tmp n ∧
      (∀ content, n ≠ .file content) ∧ (LinkFree x.archive → n = .dir) := by
  obtain ⟨v, path, hfetch, hextract⟩ := h
  have hstill : w.Still (p.fetchArchive x.dep w).2 := p.fetchArchive_keeps x.dep w
  rw [hfetch] at hstill
  rw [← hstill.disk] at hmade
  rcases extract_cases hname x.archive v hmade htidy with
    ⟨e, d, hfault, -⟩ | ⟨home, tmp, n, d, hstage, hok, hfile, hlinks, hdone⟩
  · have hboth := hfault.symm.trans hextract
    simp at hboth
  · obtain ⟨-, rfl⟩ := Prod.mk.inj (hok.symm.trans hextract)
    refine ⟨home, tmp, n, hstage, hdone ?_, hfile, hlinks⟩
    rcases hreach with hfree | hdirect
    · exact .inl (hlinks hfree)
    · right
      have hless : made.SameBut (fun q => home <+: q ∧ q ≠ home)
          (made.without (home ++ [x.dep.name])) :=
        (sameBut_without made (by simp)).mono fun _ => below_of_name
      exact hless.eraseBelow_extends.leads (hdirect home hstage.leads)

/-- A package is in its place, and the others are as they were. -/
structure Placed (p : Packages) (x : Delivery) (home : Place) (d d' : Disk) : Prop where
  ready : p.Ready d' home
  stands : ∃ n, p.Stands d' home x.dep.name n ∧ (LinkFree x.archive → n = .dir)
  spares : p.Spares home [x.dep.name] d d'
  direct : p.Direct d → p.Direct d'

theorem Extracted.placed {tmp : String} {n : Node}
    (h : p.Extracted x.dep.name x.archive made d home tmp n) (hstage : p.Stage made home tmp)
    (hname : isName x.dep.name = true) (htidy : p.Tidy made) (hfile : ∀ content, n ≠ .file content)
    (hlinks : LinkFree x.archive → n = .dir) : p.Placed x home made d := by
  have hclear := htidy home hstage.leads
  have hother {name : String} (hne : name ≠ x.dep.name) (rest : Place) :
      d.node? (home ++ [name] ++ rest) = made.node? (home ++ [name] ++ rest) := by
    by_cases htmp : name = tmp
    · rw [htmp, h.gone _ (List.prefix_append _ _),
        (hclear tmp hstage.node?_eq_none).1 _ (List.prefix_append _ _)]
    · exact h.same.node _ (by simp [Ne.symm htmp, Ne.symm hne])
  refine ⟨⟨h.leads, fun name => ?_⟩, ⟨n, ⟨h.found, hfile⟩, hlinks⟩,
    ⟨h.same.here, fun {name m} hother' hne hstands => ⟨?_, hstands.notFile⟩,
      fun hne rest => .inl (hother ?_ rest)⟩,
    fun hdirect home' hleads => ?_⟩
  · by_cases hself : name = x.dep.name
    · rw [hself]
      exact .of_node (Stands.node? ⟨h.found, hfile⟩ hname)
    · refine (hclear name).congr h.same.here fun q hq => ?_
      obtain ⟨rest, rfl⟩ := hq
      exact hother hself rest
  · have hnode := hstands.node? hother'
    have hsame := hother (by simpa using hne : name ≠ x.dep.name) []
    rw [List.append_nil] at hsame
    have hagain := h.leads.find_name_again h.same.here hother' hstands.found
    rwa [spotAt_of_node (hsame.trans hnode)] at hagain
  · simpa using hne
  · obtain rfl := hleads.unique h.leads
    have hless := h.same.mono fun q hq => hq.elim below_of_name below_of_name
    exact (hless.trans (sameBut_eraseBelow d home')).eraseBelow_extends.leads
      (hdirect home' hstage.leads)

/-! ### Runs -/

/-- The last delivery of a package with a name. -/
def latest (log : List Delivery) (name : String) : Option Delivery :=
  log.reverse.find? (·.dep.name = name)

theorem latest_append (log log' : List Delivery) (name : String) :
    latest (log ++ log') name = (latest log' name).or (latest log name) := by
  rw [latest, List.reverse_append, List.find?_append]
  rfl

theorem latest_eq_none {log : List Delivery} {name : String} :
    latest log name = none ↔ name ∉ log.map (·.dep.name) := by
  simp [latest]

theorem name_of_latest {log : List Delivery} {name : String} (h : latest log name = some x) :
    x.dep.name = name := by
  simpa using List.find?_some h

theorem mem_of_latest {log : List Delivery} {name : String} (h : latest log name = some x) :
    x ∈ log := by
  simpa using List.mem_of_find?_eq_some h

/-- The last deliveries of a log are in their places, and all other packages are as they were. -/
structure Stocked (p : Packages) (log : List Delivery) (home : Place) (d d' : Disk) : Prop where
  ready : p.Ready d' home
  stands : ∀ {name x}, isName name = true → latest log name = some x →
    ∃ n, p.Stands d' home name n ∧ (LinkFree x.archive → n = .dir)
  spares : p.Spares home (log.map (·.dep.name)) d d'
  direct : p.Direct d → p.Direct d'

namespace Stocked

variable {log log' : List Delivery} {d'' : Disk}

theorem nil (h : p.Ready d home) : p.Stocked [] home d d :=
  ⟨h, fun _ hlatest => by simp [latest] at hlatest, .refl _ d, id⟩

theorem of_placed (h : p.Placed x home d d') : p.Stocked [x] home d d' := by
  refine ⟨h.ready, fun {name y} _ hlatest => ?_, h.spares, h.direct⟩
  obtain rfl : y = x := by simpa using mem_of_latest hlatest
  rw [← name_of_latest hlatest]
  exact h.stands

theorem saved {lock : Lock} (h : p.Stocked log home d d') (hsaved : p.Saved lock d' d'') :
    p.Stocked log home d d'' := by
  refine ⟨hsaved.ready h.ready, fun hname hlatest => ?_, ?_, fun hdirect =>
    hsaved.direct (h.direct hdirect)⟩
  · obtain ⟨n, hstands, hlinks⟩ := h.stands hname hlatest
    exact ⟨n, hsaved.stands hstands, hlinks⟩
  · simpa using h.spares.trans hsaved.spares

theorem trans (h : p.Stocked log home d d') (h' : p.Stocked log' home d' d'') :
    p.Stocked (log ++ log') home d d'' := by
  refine ⟨h'.ready, fun {name y} hname hlatest => ?_, ?_,
    fun hdirect => h'.direct (h.direct hdirect)⟩
  · rw [latest_append] at hlatest
    cases hlater : latest log' name with
    | some later =>
        rw [hlater, Option.some_or] at hlatest
        obtain rfl := Option.some.inj hlatest
        exact h'.stands hname hlater
    | none =>
        rw [hlater, Option.none_or] at hlatest
        obtain ⟨n, hstands, hlinks⟩ := h.stands hname hlatest
        exact ⟨n, h'.spares.stands hname (latest_eq_none.mp hlater) hstands, hlinks⟩
  · rw [List.map_append]
    exact h.spares.trans h'.spares

end Stocked

section Runs

variable {lock lock' : Lock} {log : List Delivery}

/-- A package that is delivered and recorded is in its place. -/
theorem Delivers.stocked (h : p.Delivers w x w') (hname : isName x.dep.name = true)
    (hmade : (w.disk.makeDirs p.modulesDir).2 = made) (htidy : p.Tidy made)
    (hreach : LinkFree x.archive ∨ p.Direct made) {v v' : World} (hdisk : v.disk = w'.disk)
    (hsave : lock.save p.lockPath v = (.ok (), v')) :
    ∃ home, made.Leads p.modulesDir home ∧ p.Stocked [x] home made v'.disk := by
  obtain ⟨home, tmp, n, hstage, hextracted, hfile, hlinks⟩ := h.extracted hname hmade htidy hreach
  have hplaced := hextracted.placed hstage hname htidy hfile hlinks
  have hleads : v.disk.Leads p.modulesDir home := hdisk.symm ▸ hplaced.ready.leads
  obtain ⟨v'', -, ⟨e, hfault, -⟩ | ⟨hok, hsaved⟩⟩ := save_cases hleads lock
  · have hboth := hfault.symm.trans hsave
    simp at hboth
  · obtain ⟨-, rfl⟩ := Prod.mk.inj (hok.symm.trans hsave)
    rw [hdisk] at hsaved
    exact ⟨home, hstage.leads, (Stocked.of_placed hplaced).saved hsaved⟩

theorem Runs.stocked_of_ready (h : p.Runs lock w log lock' w')
    (hnames : ∀ x ∈ log, isName x.dep.name = true) (hready : p.Ready w.disk home)
    (hreach : (∀ x ∈ log, LinkFree x.archive) ∨ p.Direct w.disk) :
    p.Stocked log home w.disk w'.disk := by
  induction h with
  | done => exact .nil hready
  | @next lock lock' w w₁ v w₂ w' x time log hdelivers hdisk _ hsave _ ih =>
      obtain ⟨home', hleads, hstocked⟩ := hdelivers.stocked (hnames x List.mem_cons_self)
        (makeDirs_modulesDir hready.leads) hready.tidy (hreach.imp_left (· x List.mem_cons_self))
        hdisk hsave
      obtain rfl := hleads.unique hready.leads
      refine hstocked.trans
        (ih (fun y hy => hnames y (List.mem_cons_of_mem _ hy)) hstocked.ready ?_)
      exact hreach.imp (fun hfree y hy => hfree y (List.mem_cons_of_mem _ hy)) hstocked.direct

/-- After a run that delivered anything the last deliveries are in their places. -/
theorem Runs.stocked (h : p.Runs lock w log lock' w') (hlog : log ≠ [])
    (hnames : ∀ x ∈ log, isName x.dep.name = true)
    (hmade : (w.disk.makeDirs p.modulesDir).2 = made) (htidy : p.Tidy made)
    (hreach : (∀ x ∈ log, LinkFree x.archive) ∨ p.Direct made) :
    ∃ home, made.Leads p.modulesDir home ∧ p.Stocked log home made w'.disk := by
  cases h with
  | done => exact absurd rfl hlog
  | @next _ _ _ w₁ v w₂ _ x time log hdelivers hdisk _ hsave hrest =>
      obtain ⟨home, hleads, hstocked⟩ := hdelivers.stocked (hnames x List.mem_cons_self) hmade
        htidy (hreach.imp_left (· x List.mem_cons_self)) hdisk hsave
      refine ⟨home, hleads, hstocked.trans (hrest.stocked_of_ready
        (fun y hy => hnames y (List.mem_cons_of_mem _ hy)) hstocked.ready ?_)⟩
      exact hreach.imp (fun hfree y hy => hfree y (List.mem_cons_of_mem _ hy)) hstocked.direct

/-- What a lock says after a run: what was delivered last, and for other names what it said
before. -/
theorem Runs.get? (h : p.Runs lock w log lock' w') (name : String) :
    (latest log name = none → lock'.get? name = lock.get? name) ∧
      ∀ x, latest log name = some x →
        ∃ e, lock'.get? name = some e ∧ e.version = x.dep.version ∧ e.digest = x.digest := by
  induction h with
  | done => exact ⟨fun _ => rfl, fun x hlatest => by simp [latest] at hlatest⟩
  | @next lock lock' w w₁ v w₂ w' x time log _ _ _ _ _ ih =>
      have hsplit : latest (x :: log) name = (latest log name).or (latest [x] name) :=
        latest_append [x] log name
      have hfirst : (recording lock x time).get? name = if name = x.dep.name then
          some ⟨x.dep.name, x.dep.version, x.digest, time.withOffset⟩ else lock.get? name :=
        Lock.get?_record name
      rw [hsplit]
      cases hlater : latest log name with
      | some later =>
          refine ⟨fun hnone => by simp at hnone, fun y hy => ih.2 y ?_⟩
          rw [hlater]
          simpa using hy
      | none =>
          rw [ih.1 hlater, hfirst, Option.none_or]
          by_cases hself : name = x.dep.name
          · rw [if_pos hself]
            have hlatest : latest [x] name = some x := by simp [latest, hself]
            rw [hlatest]
            refine ⟨fun hnone => by simp at hnone, fun y hy => ?_⟩
            obtain rfl := Option.some.inj hy
            exact ⟨_, rfl, rfl, rfl⟩
          · rw [if_neg hself]
            refine ⟨fun _ => rfl, fun y hy => ?_⟩
            obtain rfl : y = x := by simpa using mem_of_latest hy
            exact absurd (name_of_latest hy).symm hself

theorem Runs.recorded (h : p.Runs lock w log lock' w')
    (hlock : lock.installed = p.recorded w.disk) : lock'.installed = p.recorded w'.disk := by
  induction h with
  | done => exact hlock
  | next _ _ _ hsave _ ih => exact ih (recorded_of_save hsave).symm

end Runs

end Packages

end PartDepot
