import PartDepot.Proofs.Enclosing
import PartDepot.Proofs.Strangers

/-!
# Ids and entry files

The file of an entry is one name below the cache directory, and this name is read back as
the id: stem and extension are told apart at the last dot, and an id as it is kept has no
blanks at its ends that could be trimmed.  So ids and entry files correspond one to one,
whatever dots and blanks an id has.
-/

namespace PartDepot

namespace Path

variable {name : String}

theorem fileName?_join (h : IsPiece name) (hdot : name ≠ ".") (hup : name ≠ "..") (p : Path) :
    (p.join name).fileName? = some name := by
  obtain ⟨front, -, hparts⟩ := dropIdle_join h hdot p
  have hself : name.toList ≠ ['.'] := fun hself => hdot (String.toList_injective hself)
  have habove : name.toList ≠ ['.', '.'] := fun hself => hup (String.toList_injective hself)
  unfold fileName?
  rw [hparts]
  simp [hself, habove]

theorem way_join (h : IsPiece name) (hdot : name ≠ ".") (p : Path) :
    (p.join name).way = p.way ++ [name] := by
  rw [way, names_join h, List.filter_append, List.filter_cons_of_pos (by simpa using hdot)]
  rfl

/-- Above a joined path stands the path that the name was joined to, but for dots on the way. -/
theorem above_join (h : IsPiece name) (hdot : name ≠ ".") (p : Path) : ∃ above,
    (p.join name).parent? = some above ∧ above.way = p.way ∧ above.isAbsolute = p.isAbsolute := by
  obtain ⟨front, -, hparts⟩ := dropIdle_join h hdot p
  obtain ⟨above, habove⟩ : ∃ above, (p.join name).parent? = some above := by
    unfold parent?
    rw [hparts]
    dsimp only
    split <;> exact ⟨_, rfl⟩
  refine ⟨above, habove, ?_, (parent?_way habove).2.trans (isAbsolute_join h p)⟩
  rw [way_of_parent? habove, way_join h hdot, List.dropLast_concat]

/-- A path stands directly below a directory, under a name: by its text, and wherever the directory
is on a disk. -/
structure IsChild (dir : Path) (name : String) (path : Path) : Prop where
  isName : Disk.isName name = true
  under : Under dir [name] path
  above : ∃ above, path.parent? = some above ∧ above.way = dir.way ∧
    above.isAbsolute = dir.isAbsolute
  place : ∀ (d : Disk) {home : Place} {spot : Disk.Spot}, d.Leads dir home →
    d.find false path = .ok spot → spot.place = home ++ [name]

theorem isChild_join (hname : Disk.isName name = true) (p : Path) :
    IsChild p name (p.join name) := by
  have hpiece := Disk.isPiece_of_isName hname
  refine ⟨hname, under_join hpiece p, above_join hpiece (Disk.ne_dots_of_isName hname).1 p, ?_⟩
  intro d home spot hleads hfind
  rw [hleads.find_name hname hfind, Disk.spotAt_place]

end Path

namespace Cache

/-! ## Files of entries -/

/-- The part whose entry stands at a path, by the last part of the path. -/
def idAt? (d : Disk) (p : Path) : Option PartId :=
  if d.isFile p then p.fileName?.bind idOfName? else none

/-- A name in the cache directory is read as an entry by the path that leads to it. -/
theorem entryId?_eq_idAt? (c : Cache) (d : Disk) {name : String} (hname : Disk.isName name = true) :
    c.entryId? d name = idAt? d (c.dir.join name) := by
  obtain ⟨hdot, hup⟩ := Disk.ne_dots_of_isName hname
  unfold entryId? idAt?
  rw [Path.fileName?_join (Disk.isPiece_of_isName hname) hdot hup]
  rfl

section Correspondence

variable {c : Cache} {id other : PartId}

theorem entryPath_eq (c : Cache) (id : PartId) : c.entryPath id = c.dir.join (entryName id) := rfl

theorem way_entryPath (c : Cache) (id : PartId) :
    (c.entryPath id).way = c.dir.way ++ [entryName id] :=
  Path.way_join (entryName_isPiece id) (entryName_ne_dot id) c.dir

theorem way_entryPath_inj : (c.entryPath other).way = (c.entryPath id).way ↔ other = id := by
  rw [way_entryPath, way_entryPath]
  constructor
  · intro h
    exact entryName_inj (List.singleton_inj.mp (List.append_cancel_left h))
  · rintro rfl
    rfl

theorem entryPath_inj : c.entryPath other = c.entryPath id ↔ other = id :=
  ⟨fun h => way_entryPath_inj.mp (congrArg Path.way h), fun h => congrArg c.entryPath h⟩

end Correspondence

/-- An id is kept in a form that is read as itself.  Its entry stands directly in the cache
directory, no other id has the same path, however it is written, and a file there is read as
the entry of the id. -/
theorem entries_correspond (c : Cache) {s : String} {id : PartId} (h : PartId.parse s = .ok id) :
    id.text = Text.trim s ∧ PartId.parse id.text = .ok id ∧
    Path.IsChild c.dir (entryName id) (c.entryPath id) ∧
    (∀ other, (c.entryPath other = c.entryPath id ↔ other = id) ∧
      ((c.entryPath other).way = (c.entryPath id).way ↔ other = id)) ∧
    ∀ d : Disk, d.isFile (c.entryPath id) = true →
      c.entryId? d (entryName id) = some id ∧ idAt? d (c.entryPath id) = some id := by
  have hname := entryName_isName id
  refine ⟨?_, PartId.parse_text id, Path.isChild_join hname c.dir,
    fun other => ⟨entryPath_inj, way_entryPath_inj⟩, fun d hfile => ?_⟩
  · have hread : (PartId.parse s).toOption = some id := by
      rw [h]
      rfl
    exact (toOption_parse_eq_some_iff.mp hread).symm
  · have hread : c.entryId? d (entryName id) = some id := by
      unfold entryId?
      rw [← entryPath_eq, hfile]
      exact idOfName?_entryName id
    refine ⟨hread, ?_⟩
    rw [entryPath_eq, ← entryId?_eq_idAt? c d hname, hread]

/-- An id of dots, blanks and an extension of its own, read from between wide blanks. -/
theorem entries_correspond_dotted :
    let c : Cache := { dir := ⟨"/c/./"⟩ }
    let d : Disk := ⟨[(["c"], .dir), (["c", ".a .yaml..yaml"], .file ByteArray.empty)], []⟩
    ∃ id, PartId.parse "\u2003.a .yaml.\u00a0" = .ok id ∧ id.text = ".a .yaml." ∧
      (c.entryPath id).text = "/c/./.a .yaml..yaml" ∧ d.isFile (c.entryPath id) = true ∧
      idAt? d (c.entryPath id) = some id ∧
      ∀ spot, d.find false (c.entryPath id) = .ok spot → spot.place = ["c", ".a .yaml..yaml"] := by
  intro c d
  let id : PartId := ⟨".a .yaml.", by decide, by decide⟩
  have hparse : PartId.parse "\u2003.a .yaml.\u00a0" = .ok id := by decide +kernel
  have hfile : d.isFile (c.entryPath id) = true := by decide +kernel
  have hleads : d.Leads c.dir ["c"] := Disk.leads_of_find (by decide +kernel)
  obtain ⟨-, -, hchild, -, hread⟩ := entries_correspond c hparse
  exact ⟨id, hparse, rfl, by decide +kernel, hfile, (hread d hfile).2,
    fun spot hspot => hchild.place d hleads hspot⟩

end Cache

end PartDepot
