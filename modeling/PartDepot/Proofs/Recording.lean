import PartDepot.Proofs.LockText
import PartDepot.Proofs.Neighbours
import PartDepot.Proofs.Stores

/-!
# What the lock records

The lock keeps one entry for each name that it records.  A disk records what the lock file on it
says; reading the lock and asking what is missing leave the disk alone, and after a lock is
saved the disk records what that lock says.
-/

namespace PartDepot

/-! ## Entries of a lock -/

namespace Lock

variable {l : Lock} {name version : String} {digest : Option String} {time : Timestamp}

theorem mem_record {e : InstalledPackage} :
    e ∈ (l.record name version digest time).installed ↔
      (e ∈ l.installed ∧ e.name ≠ name) ∨ e = ⟨name, version, digest, time.withOffset⟩ := by
  simp [record]

theorem byName_iff {a b : InstalledPackage} : byName a b = true ↔ a.name ≤ b.name := by
  simp only [byName, Bool.not_eq_true', decide_eq_false_iff_not, String.not_lt]

theorem byName_trans (a b c : InstalledPackage) (hab : byName a b = true)
    (hbc : byName b c = true) :
    byName a c = true :=
  byName_iff.mpr (String.le_trans (byName_iff.mp hab) (byName_iff.mp hbc))

theorem byName_total (a b : InstalledPackage) : (byName a b || byName b a) = true := by
  rw [Bool.or_eq_true, byName_iff, byName_iff]
  exact String.le_total a.name b.name

/-- Entries of one name keep their order when a lock is sorted. -/
theorem filter_mergeSort_byName (entries : List InstalledPackage) (other : String) :
    (entries.mergeSort byName).filter (·.name = other) = entries.filter (·.name = other) := by
  have hsorted : (entries.filter (·.name = other)).Pairwise fun a b => byName a b = true := by
    refine List.pairwise_iff_forall_sublist.mpr fun {a b} hboth => ?_
    have ha := List.mem_filter.mp (hboth.subset (by simp : a ∈ [a, b]))
    have hb := List.mem_filter.mp (hboth.subset (by simp : b ∈ [a, b]))
    have hname : a.name = b.name := by
      rw [of_decide_eq_true ha.2, of_decide_eq_true hb.2]
    simp [byName, hname]
  have hsub := (List.sublist_mergeSort byName_trans byName_total hsorted
    List.filter_sublist).filter (·.name = other)
  rw [List.filter_filter] at hsub
  simp only [Bool.and_self] at hsub
  refine (hsub.eq_of_length ?_).symm
  exact ((List.mergeSort_perm entries byName).filter _).length_eq.symm

/-- Of the recorded name only the new entry is left, and of every other name all that was there. -/
theorem filter_record (other : String) :
    (l.record name version digest time).installed.filter (·.name = other) =
      if other = name then [⟨name, version, digest, time.withOffset⟩]
      else l.installed.filter (·.name = other) := by
  rw [record, filter_mergeSort_byName, List.filter_append, List.filter_filter]
  split
  · next hself => simp [hself]
  · next hother =>
    have hnew : ([⟨name, version, digest, time.withOffset⟩] : List InstalledPackage).filter
        (·.name = other) = [] := by simp [Ne.symm hother]
    rw [hnew, List.append_nil]
    congr 1
    funext e
    by_cases he : e.name = other
    · simp [he, hother]
    · simp [he]

theorem get?_eq_head? (l : Lock) (other : String) :
    l.get? other = (l.installed.filter (·.name = other)).head? := (List.head?_filter ..).symm

/-- What is recorded for a name is what was recorded last. -/
theorem get?_record (other : String) :
    (l.record name version digest time).get? other =
      if other = name then some ⟨name, version, digest, time.withOffset⟩ else l.get? other := by
  rw [get?_eq_head?, get?_eq_head?, filter_record]
  split <;> rfl

/-! ## Writing a lock -/

/-- The last step of saving a lock. -/
def writeTo (l : Lock) (path : Path) : Act Failure Unit := do
  let time ← Act.now
  Act.edit (fun d => d.write path { l with generated := time.withOffset }.render.toUTF8) fun f =>
    .context s!"Failed to write {path.text}" (.refused f)

theorem save_of_parent {path folder : Path} (h : path.parent? = some folder) (l : Lock) :
    l.save path = Act.edit (·.makeDirs folder) .refused >>= fun _ => l.writeTo path := by
  unfold save
  rw [h]
  rfl

theorem save_of_no_parent {path : Path} (h : path.parent? = none) (l : Lock) :
    l.save path = l.writeTo path := by
  unfold save
  rw [h]
  rfl

/-- A lock that was saved was written once its directory was made. -/
theorem writeTo_of_save {l : Lock} {path : Path} {w w' : World} (h : l.save path w = (.ok (), w')) :
    ∃ d, l.writeTo path { w with disk := d } = (.ok (), w') := by
  cases hfolder : path.parent? with
  | none => exact ⟨w.disk, save_of_no_parent hfolder l ▸ h⟩
  | some folder =>
      rw [save_of_parent hfolder] at h
      obtain ⟨_, v, hmake, hwrite⟩ := Act.bind_eq_ok h
      rw [Act.edit_apply] at hmake
      obtain ⟨-, rfl⟩ := Prod.mk.inj hmake
      exact ⟨_, hwrite⟩

/-- A lock is written, with some date, or the disk stays as it is. -/
theorem writeTo_cases (l : Lock) (path : Path) (w : World) :
    ∃ w', w'.journal = w.journal ∧
      ((∃ e, l.writeTo path w = (.error e, w') ∧ w'.disk = w.disk) ∨
        l.writeTo path w = (.ok (), w') ∧ ∃ dated : Lock, dated.installed = l.installed ∧
          w.disk.write path dated.render.toUTF8 = (none, w'.disk)) := by
  let dated : Lock := { l with generated := (w.clock 0).withOffset }
  let ticked : World := { w with clock := fun n => w.clock (n + 1) }
  have hrun : l.writeTo path w = Act.edit (fun d => d.write path dated.render.toUTF8)
      (fun f => .context s!"Failed to write {path.text}" (.refused f)) ticked := rfl
  rw [hrun, Act.edit_apply]
  rcases w.disk.write_cases_fault path dated.render.toUTF8 with hnone | ⟨fault, hfault⟩
  · refine ⟨{ ticked with disk := (w.disk.write path dated.render.toUTF8).2 }, rfl, .inr ⟨?_, dated,
      rfl, Prod.ext hnone rfl⟩⟩
    rw [hnone]
  · refine ⟨ticked, rfl, .inl ⟨.context s!"Failed to write {path.text}" (.refused fault), ?_, rfl⟩⟩
    rw [hfault]

end Lock

/-! ## Reading and saving -/

open Disk

namespace Packages

variable {p : Packages} {d d' : Disk} {w : World} {home : Place}

/-- The entries of the lock file on a disk; one that cannot be read has none. -/
def recorded (p : Packages) (d : Disk) : List InstalledPackage :=
  match d.readText p.lockPath with
  | .ok text => ((Lock.parse text).map (·.installed)).getD []
  | .error _ => []

/-- A lock file that cannot be read is told about, and the lock is empty. -/
theorem readLock_eq (ε : Type) (p : Packages) (w : World) :
    (p.readLock : Act ε Lock) w = match Lock.load p.lockPath w with
      | (.ok lock, w') => (.ok lock, w')
      | (.error e, w') => (.ok (Lock.empty (w'.clock 0)),
          { w'.record (.logged .warn s!"Ignoring unreadable lock file: {e.line}") with
            clock := fun n => w'.clock (n + 1) }) := by
  unfold readLock
  rw [Act.bind_apply, Act.attempt]
  rcases Lock.load p.lockPath w with ⟨e | lock, w'⟩ <;> rfl

theorem readLock_apply (ε : Type) (p : Packages) (w : World) :
    ∃ lock w', (p.readLock : Act ε Lock) w = (.ok lock, w') ∧
      lock.installed = p.recorded w.disk ∧ w.Still w' ∧ w'.requests = w.requests := by
  have hstill : w.Still ((p.readLock : Act ε Lock) w).2 := p.readLock_keeps w
  have hload : (∃ lock w', Lock.load p.lockPath w = (.ok lock, w') ∧
        lock.installed = p.recorded w.disk ∧ w'.journal = w.journal) ∨
      ∃ e, Lock.load p.lockPath w = (.error e, w) ∧ p.recorded w.disk = [] := by
    unfold Lock.load recorded
    rw [Act.look_bind]
    by_cases hhas : w.disk.has p.lockPath = true
    · rw [if_neg (by simp [hhas]), Act.bind_apply, Act.ask]
      cases w.disk.readText p.lockPath with
      | error fault => exact .inr ⟨_, rfl, rfl⟩
      | ok text =>
          dsimp only
          cases Lock.parse text with
          | none => exact .inr ⟨_, rfl, rfl⟩
          | some lock => exact .inl ⟨lock, w, rfl, rfl, rfl⟩
    · rw [if_pos (by simp [hhas])]
      refine .inl ⟨_, _, rfl, ?_, rfl⟩
      have hread : ∃ fault, w.disk.readText p.lockPath = .error fault := by
        unfold has at hhas
        unfold readText Disk.read
        cases hfind : w.disk.find true p.lockPath with
        | error fault => exact ⟨fault, rfl⟩
        | ok s =>
            cases s with
            | free q => exact ⟨_, rfl⟩
            | taken q n => simp [hfind] at hhas
      obtain ⟨fault, hfault⟩ := hread
      rw [hfault]
      rfl
  have hrun := p.readLock_eq ε w
  rcases hload with ⟨lock, w', hload, hentries, hjournal⟩ | ⟨e, hload, hnone⟩
  · rw [hload] at hrun
    rw [hrun] at hstill
    exact ⟨lock, w', hrun, hentries, hstill, by simp [World.requests, hjournal]⟩
  · rw [hload] at hrun
    rw [hrun] at hstill
    exact ⟨_, _, hrun, hnone.symm, hstill, w.requests_logged _ _⟩

/-- The lock file records the dependency, and a directory has its name. -/
def Present (p : Packages) (d : Disk) (dep : Dependency) : Prop :=
  ((p.recorded d).find? (·.name = dep.name)).any (·.version = dep.version) = true ∧
    d.isDir (p.installPath dep.name) = true

theorem isPresent_iff {lock : Lock} {dep : Dependency} (h : lock.installed = p.recorded d) :
    p.isPresent d lock dep = true ↔ p.Present d dep := by
  unfold isPresent Lock.isInstalled Lock.get? Present
  rw [h, Bool.and_eq_true]

theorem missing_apply (ε : Type) (p : Packages) (w : World) :
    ∃ left w', (p.missing : Act ε _) w = (.ok left, w') ∧
      (∀ dep, dep ∈ left ↔ dep ∈ p.wanted ∧ ¬p.Present w.disk dep) ∧
      w.Still w' ∧ w'.requests = w.requests := by
  obtain ⟨lock, w', hlock, hentries, hstill, hrequests⟩ := p.readLock_apply ε w
  refine ⟨p.missingFrom w'.disk lock, w', ?_, fun dep => ?_, hstill, hrequests⟩
  · unfold missing
    rw [Act.bind_of_ok hlock]
    rfl
  · rw [missingFrom, List.mem_mergeSort, List.mem_eraseDups, List.mem_filter, hstill.disk,
      ← isPresent_iff hentries]
    simp

/-- The lock was written to its file, with some date. -/
def Saved (p : Packages) (lock : Lock) (d d' : Disk) : Prop :=
  ∃ l : Lock, l.installed = lock.installed ∧ d.write p.lockPath l.render.toUTF8 = (none, d')

theorem makeDirs_parent (h : d.Leads p.modulesDir home) {folder : Path}
    (hfolder : p.lockPath.parent? = some folder) : (d.makeDirs folder).2 = d := by
  have hmodules : Path.IsPiece "modules" := ⟨by decide, by decide⟩
  obtain ⟨hnames, habsolute⟩ :=
    Path.names_of_parent?_join ⟨by decide, by decide⟩ (by decide) hfolder
  refine h.makeDirs_above ?_ ?_
  · rw [modulesDir, Path.names_join hmodules]
    exact hnames.trans (List.prefix_append _ _)
  · rw [modulesDir, Path.isAbsolute_join hmodules, habsolute]

/-- Next to the modules directory a lock is saved or the disk stays as it is. -/
theorem save_cases (h : w.disk.Leads p.modulesDir home) (lock : Lock) :
    ∃ w', w'.journal = w.journal ∧
      ((∃ e, lock.save p.lockPath w = (.error e, w') ∧ w'.disk = w.disk) ∨
        lock.save p.lockPath w = (.ok (), w') ∧ p.Saved lock w.disk w'.disk) := by
  cases hfolder : p.lockPath.parent? with
  | none =>
      rw [Lock.save_of_no_parent hfolder]
      exact lock.writeTo_cases p.lockPath w
  | some folder =>
      have hsame := makeDirs_parent h hfolder
      rw [Lock.save_of_parent hfolder]
      rcases hmake : w.disk.makeDirs folder with ⟨fault | fault, d⟩
      · obtain rfl : d = w.disk := (congrArg Prod.snd hmake).symm.trans hsame
        rw [Act.bind_of_ok (Act.edit_of_done hmake _)]
        exact lock.writeTo_cases p.lockPath w
      · obtain rfl : d = w.disk := (congrArg Prod.snd hmake).symm.trans hsame
        exact ⟨w, rfl, .inl ⟨_, Act.bind_of_error (Act.edit_of_fault hmake _) _, rfl⟩⟩

namespace Saved

variable {lock : Lock} (h : p.Saved lock d d')

include h

theorem exists_put : ∃ q, ∃ l : Lock, d.TakesFile q ∧ d' = d.put q (.file l.render.toUTF8) := by
  obtain ⟨l, -, hwrite⟩ := h
  obtain ⟨q, htakes, hdisk, -⟩ := write_eq_none hwrite
  exact ⟨q, l, htakes, hdisk⟩

theorem here : d'.here = d.here := by
  obtain ⟨q, l, -, rfl⟩ := h.exists_put
  rfl

theorem leads {path : Path} (hleads : d.Leads path home) : d'.Leads path home := by
  obtain ⟨q, l, htakes, rfl⟩ := h.exists_put
  exact hleads.put_file htakes _

theorem clear {b : Place} (hclear : d.Clear b) : d'.Clear b := by
  obtain ⟨l, -, hwrite⟩ := h
  obtain rfl : (d.write p.lockPath l.render.toUTF8).2 = d' := congrArg Prod.snd hwrite
  exact hclear.write _ _

/-- Only the place of the lock file changes. -/
theorem node? (q : Place) :
    d'.node? q = d.node? q ∨ ∃ l : Lock, d'.node? q = some (.file l.render.toUTF8) := by
  obtain ⟨place, l, htakes, rfl⟩ := h.exists_put
  rw [node?_put htakes.1]
  split
  · exact .inr ⟨l, rfl⟩
  · exact .inl rfl

theorem find {path : Path} {q : Place} {n : Node} (hfind : d.find false path = .ok (.taken q n))
    (hfile : ∀ content, n ≠ .file content) : d'.find false path = .ok (.taken q n) := by
  obtain ⟨place, l, htakes, rfl⟩ := h.exists_put
  rw [(find_put_file htakes _ false path).1 _ hfind]
  cases n with
  | file content => exact absurd rfl (hfile content)
  | dir => rfl
  | link target => rfl

end Saved

/-- A lock that was saved is the one that is recorded. -/
theorem recorded_of_save {lock : Lock} {w' : World}
    (h : lock.save p.lockPath w = (.ok (), w')) : p.recorded w'.disk = lock.installed := by
  obtain ⟨d, hrun⟩ := Lock.writeTo_of_save h
  obtain ⟨v', -, ⟨e, hfault, -⟩ | ⟨hok, dated, hentries, hwrite⟩⟩ :=
    lock.writeTo_cases p.lockPath { w with disk := d }
  · have hboth := hfault.symm.trans hrun
    simp at hboth
  · obtain ⟨-, rfl⟩ := Prod.mk.inj (hok.symm.trans hrun)
    obtain ⟨q, -, -, hfind⟩ := write_eq_none hwrite
    unfold recorded
    rw [Cache.readText_of_file hfind, Cache.fromUTF8?_toUTF8]
    dsimp only
    rw [Lock.parse_render, Option.map_some, Option.getD_some, hentries]

end Packages

end PartDepot
