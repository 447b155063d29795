import PartDepot.Proofs.FiniteMap

/-!
# Strangers in the cache directory

A file in the cache directory whose name is read as no id is a stranger there: every use of
the cache goes on beside it as if it were not there, and leaves it.  A name is read as an id
once its stem is trimmed.  So a file is no stranger if it differs from an entry by blanks
around the stem, though it is not the file that the cache looks at for this id: such a
double is listed and cleared as an entry.
-/

namespace PartDepot

namespace Disk

variable {d : Disk} {p : Path} {home : Place} {name other : String}

theorem node?_put_name (home : Place) (n : Node) (hne : other ≠ name) :
    (d.put (home ++ [name]) n).node? (home ++ [other]) = d.node? (home ++ [other]) := by
  rw [node?_put (by simp), if_neg (by simpa using hne)]

/-- Other names in a directory are found as before once a file was put there. -/
theorem Leads.find_beside (h : d.Leads p home)
    (hlinks : ∀ other target, d.node? (home ++ [other]) ≠ some (.link target))
    (hfree : d.node? (home ++ [name]) = none) (content : ByteArray) (hother : isName other = true)
    (hne : other ≠ name) (follow : Bool) :
    (d.put (home ++ [name]) (.file content)).find follow (p.join other) =
      d.find follow (p.join other) := by
  have h' := h.put_file ⟨by simp, .inl hfree⟩ content
  have hnode := node?_put_name (d := d) home (.file content) hne
  have hstarts : (d.put (home ++ [name]) (.file content)).start (p.join other) =
      d.start (p.join other) :=
    start_congr rfl _
  cases hstart : d.start (p.join other) with
  | error fault => rw [find_of_no_start hstart, find_of_no_start (hstarts.trans hstart)]
  | ok place =>
      rw [h.find_unlinked hother (hlinks other) hstart,
        h'.find_unlinked hother (by rw [hnode]; exact hlinks other) (hstarts.trans hstart)]
      unfold spotAt
      rw [hnode]

theorem not_mem_names_of_free (h : d.node? (home ++ [name]) = none) : name ∉ d.names home := by
  intro hmem
  unfold names at hmem
  obtain ⟨⟨place, n⟩, hin, hshown⟩ := List.mem_filterMap.mp hmem
  split at hshown
  · next hhome =>
    obtain ⟨hlast, -⟩ := Option.filter_eq_some_iff.mp hshown
    obtain ⟨front, hfront⟩ := List.getLast?_eq_some_iff.mp hlast
    dsimp only at hhome hfront
    have hplace : place = home ++ [name] := by
      rw [← hhome.2, hfront, List.dropLast_concat]
    rw [node?, if_neg (by simp), List.lookup_eq_none_iff] at h
    simpa [hplace] using h (place, n) hin
  · simp at hshown

theorem erase_put_of_ne (d : Disk) {a b : Place} (h : b ≠ a) (n : Node) :
    (d.put a n).erase b = (d.erase b).put a n := by
  unfold put erase
  rw [List.filter_append, List.filter_cons_of_pos (by simpa using Ne.symm h), List.filter_nil,
    List.filter_filter, List.filter_filter]
  simp only [Bool.and_comm]

end Disk

/-- The world with a file at a place, and with directories shown in some order. -/
def World.beside (w : World) (place : Place) (content : ByteArray) (order : Listing) : World :=
  { w with disk := w.disk.put place (.file content), listing := order }

namespace Cache

/-! ## Names that are read as ids -/

theorem splitExtension_yaml {stem : String} (hstem : stem ≠ "") :
    Path.splitExtension (stem ++ ".yaml") = (stem, some "yaml") := by
  have hreverse : (stem ++ ".yaml").toList.reverse =
      ['l', 'm', 'a', 'y'] ++ '.' :: stem.toList.reverse := by
    simp
  have hempty : (stem.toList.reverse).isEmpty = false := by simpa using hstem
  have hup : stem ++ ".yaml" ≠ ".." := by
    intro hup
    simp [hup] at hreverse
  unfold Path.splitExtension
  rw [hreverse]
  simp [hempty, hup]

theorem eq_of_splitExtension {name stem e : String}
    (h : Path.splitExtension name = (stem, some e)) :
    name = stem ++ "." ++ e := by
  unfold Path.splitExtension at h
  have hparts := List.takeWhile_append_dropWhile (p := (· != '.')) (l := name.toList.reverse)
  dsimp only at h
  split at h
  · simp at h
  · next dot before hdrop =>
    split at h
    · simp at h
    · have hdot : dot = '.' := by
        have hhead := List.head?_dropWhile_not (· != '.') name.toList.reverse
        rw [hdrop] at hhead
        simpa using hhead
      obtain ⟨hstem, hext⟩ := Prod.mk.inj h
      apply String.toList_injective
      have hreverse := congrArg List.reverse hparts
      rw [hdrop, hdot, List.reverse_append, List.reverse_reverse] at hreverse
      rw [← hreverse, ← hstem, ← Option.some.inj hext]
      simp

theorem toOption_parse_eq_some_iff {raw : String} {id : PartId} :
    (PartId.parse raw).toOption = some id ↔ Text.trim raw = id.text := by
  obtain ⟨text, trimmed, flawless⟩ := id
  unfold PartId.parse
  split
  · next flaw hflaw =>
    refine iff_of_false (by simp [Except.toOption]) ?_
    rintro rfl
    rw [flawless] at hflaw
    cases hflaw
  · simp [Except.toOption]

/-- The names that are read as an id: those of its entry, with blanks around the id or not. -/
theorem idOfName?_eq_some_iff {name : String} {id : PartId} :
    idOfName? name = some id ↔ ∃ stem, name = stem ++ ".yaml" ∧ Text.trim stem = id.text := by
  constructor
  · intro h
    unfold idOfName? at h
    split at h
    · next stem e hsplit =>
      split at h
      · next hext =>
        refine ⟨stem, ?_, toOption_parse_eq_some_iff.mp h⟩
        rw [eq_of_splitExtension hsplit, hext, extension]
        simp [String.append_assoc]
      · simp at h
    · simp at h
  · rintro ⟨stem, rfl, htrim⟩
    have hstem : stem ≠ "" := by
      rintro rfl
      exact id.text_ne_nil (by rw [← htrim]; decide)
    unfold idOfName?
    rw [splitExtension_yaml hstem]
    exact (if_pos rfl).trans (toOption_parse_eq_some_iff.mpr htrim)

theorem ne_entryName_of_unread {name : String} (h : idOfName? name = none) (id : PartId) :
    name ≠ entryName id := by
  rintro rfl
  rw [idOfName?_entryName] at h
  cases h

/-! ## Directories without links -/

/-- The cache directory is at a place, and no link stands in it. -/
structure Flat (c : Cache) (d : Disk) (home : Place) : Prop where
  leads : d.Leads c.dir home
  unlinked : ∀ name target, d.node? (home ++ [name]) ≠ some (.link target)

variable {c : Cache} {d : Disk} {home : Place} {name other : String}

namespace Flat

theorem put_file (h : c.Flat d home) (hfree : d.node? (home ++ [name]) = none)
    (content : ByteArray) :
    c.Flat (d.put (home ++ [name]) (.file content)) home where
  leads := h.leads.put_file ⟨by simp, .inl hfree⟩ content
  unlinked other target hlink := by
    rw [Disk.node?_put (by simp)] at hlink
    split at hlink
    · cases hlink
    · exact h.unlinked other target hlink

theorem erase_file (h : c.Flat d home) {content : ByteArray}
    (hfile : d.node? (home ++ [name]) = some (.file content)) :
    c.Flat (d.erase (home ++ [name])) home where
  leads := h.leads.erase_file hfile
  unlinked other target hlink := by
    rw [Disk.node?_erase (by simp)] at hlink
    split at hlink
    · cases hlink
    · exact h.unlinked other target hlink

/-- The file of an entry is removed at its name. -/
theorem removeFile (h : c.Flat d home) (hname : Disk.isName name = true)
    (hentry : (c.entryId? d name).isSome = true) :
    ∃ content, d.node? (home ++ [name]) = some (.file content) ∧
      d.removeFile (c.dir.join name) = (none, d.erase (home ++ [name])) := by
  have hfile : d.isFile (c.dir.join name) = true := by
    unfold entryId? at hentry
    split at hentry
    · assumption
    · cases hentry
  cases hstart : d.start (c.dir.join name) with
  | error fault => simp [Disk.isFile, Disk.find_of_no_start hstart] at hfile
  | ok place =>
      have hfind := h.leads.find_unlinked hname (h.unlinked name) hstart
      unfold Disk.isFile at hfile
      unfold Disk.removeFile
      rw [hfind] at hfile ⊢
      split at hfile
      · next content hspot =>
        split at hspot
        · cases hspot
        · next hshort =>
          have hplace := d.spotAt_place (home ++ [name])
          have hnode := d.spotAt_node? (home ++ [name])
          rw [Except.ok.inj hspot] at hplace hnode
          refine ⟨content, hnode.symm, ?_⟩
          rw [if_neg hshort, Except.ok.inj hspot, ← hplace]
          rfl
      · cases hfile

section Put

variable (h : c.Flat d home) (hfree : d.node? (home ++ [name]) = none) (content : ByteArray)

include h hfree

theorem find_put (hother : Disk.isName other = true) (hne : other ≠ name) (follow : Bool) :
    (d.put (home ++ [name]) (.file content)).find follow (c.dir.join other) =
      d.find follow (c.dir.join other) :=
  h.leads.find_beside h.unlinked hfree content hother hne follow

theorem has_put (hname : ∀ id, name ≠ entryName id) (id : PartId) :
    c.has (d.put (home ++ [name]) (.file content)) id = c.has d id := by
  have hfind : (d.put (home ++ [name]) (.file content)).find true (c.entryPath id) =
      d.find true (c.entryPath id) :=
    h.find_put hfree content (entryName_isName id) (Ne.symm (hname id)) true
  unfold Cache.has Disk.isFile
  rw [hfind]

theorem load_put (hname : ∀ id, name ≠ entryName id) (id : PartId) :
    c.load (d.put (home ++ [name]) (.file content)) id = c.load d id := by
  have hfind : (d.put (home ++ [name]) (.file content)).find true (c.entryPath id) =
      d.find true (c.entryPath id) :=
    h.find_put hfree content (entryName_isName id) (Ne.symm (hname id)) true
  have hread : (d.put (home ++ [name]) (.file content)).readText (c.entryPath id) =
      d.readText (c.entryPath id) := by
    unfold Disk.readText Disk.read
    rw [hfind]
  unfold Cache.load
  dsimp only
  rw [hread]

theorem entryId?_put (hother : Disk.isName other = true) (hne : other ≠ name) :
    c.entryId? (d.put (home ++ [name]) (.file content)) other = c.entryId? d other := by
  unfold entryId? Disk.isFile
  rw [h.find_put hfree content hother hne]

end Put

end Flat

/-! ## Beside a stranger -/

section Beside

variable {w : World} (h : c.Flat w.disk home) (hfree : w.disk.node? (home ++ [name]) = none)
  (content : ByteArray) (order : Listing)

include h hfree

theorem needsRefresh_beside {ε : Type} (hname : ∀ id, name ≠ entryName id) (id : PartId) :
    (c.needsRefresh id : Act ε Bool) (w.beside (home ++ [name]) content order) =
      (((c.needsRefresh id : Act ε Bool) w).1,
        ((c.needsRefresh id : Act ε Bool) w).2.beside (home ++ [name]) content order) := by
  have hstatus : c.status (w.disk.put (home ++ [name]) (.file content)) id =
      c.status w.disk id := by
    unfold status
    rw [h.has_put hfree content hname, h.load_put hfree content hname]
  unfold needsRefresh check
  rw [bind_assoc, Act.look_bind, Act.look_bind]
  rw [show (w.beside (home ++ [name]) content order).disk =
    w.disk.put (home ++ [name]) (.file content) from rfl, hstatus]
  cases c.status w.disk id <;> rfl

/-- The directory shows the names that it showed and the new one, or cannot be read as before. -/
theorem names_beside (hname : Disk.isName name = true)
    (horder : (order.arrange (w.disk.names home ++ [name])).filter (· ≠ name) =
      w.listing.arrange (w.disk.names home)) :
    (∃ shown, c.names w = (.ok (shown.filter (· ≠ name)), w) ∧
      c.names (w.beside (home ++ [name]) content order) =
        (.ok shown, w.beside (home ++ [name]) content order) ∧
      ∀ other ∈ shown, Disk.isName other = true) ∨
    ∃ e, c.names w = (.error e, w) ∧ c.names (w.beside (home ++ [name]) content order) =
      (.error e, w.beside (home ++ [name]) content order) := by
  have hstarts : (w.disk.put (home ++ [name]) (.file content)).start c.dir = w.disk.start c.dir :=
    Disk.start_congr rfl _
  have hbeside : (w.beside (home ++ [name]) content order).disk =
      w.disk.put (home ++ [name]) (.file content) := rfl
  unfold Cache.names
  rw [hbeside]
  cases hstart : w.disk.start c.dir with
  | error fault =>
      have hlist : w.disk.list c.dir = .error fault := by
        unfold Disk.list
        rw [Disk.find_of_no_start hstart]
        rfl
      have hlist' : (w.disk.put (home ++ [name]) (.file content)).list c.dir = .error fault := by
        unfold Disk.list
        rw [Disk.find_of_no_start (hstarts.trans hstart)]
        rfl
      rw [hlist, hlist']
      cases fault
      case notFound => exact .inl ⟨[], rfl, rfl, by simp⟩
      all_goals exact .inr ⟨_, rfl, rfl⟩
  | ok place =>
      have hnames : (w.disk.put (home ++ [name]) (.file content)).names home =
          w.disk.names home ++ [name] := by
        rw [w.disk.names_put home hname, List.filter_eq_self.mpr]
        rintro other hother
        rw [decide_eq_true_iff]
        rintro rfl
        exact Disk.not_mem_names_of_free hfree hother
      rw [h.leads.list hstart, (h.put_file hfree content).leads.list (hstarts.trans hstart), hnames]
      refine .inl ⟨order.arrange (w.disk.names home ++ [name]), ?_, rfl, fun other hother => ?_⟩
      · rw [horder]
      · rcases List.mem_append.mp ((order.perm _).mem_iff.mp hother) with hold | hnew
        · exact Disk.isName_of_mem_names hold
        · rwa [List.mem_singleton.mp hnew]

theorem loadNames_beside (hunread : idOfName? name = none) {names : List String}
    (hnames : ∀ other ∈ names, Disk.isName other = true) :
    c.loadNames names (w.beside (home ++ [name]) content order) =
      ((c.loadNames (names.filter (· ≠ name)) w).1,
        (c.loadNames (names.filter (· ≠ name)) w).2.beside (home ++ [name]) content order) := by
  have hbeside : (w.beside (home ++ [name]) content order).disk =
      w.disk.put (home ++ [name]) (.file content) := rfl
  induction names generalizing w with
  | nil => rfl
  | cons other names ih =>
      have hrest := fun o ho => hnames o (List.mem_cons_of_mem _ ho)
      rw [loadNames_cons, Act.look_bind, hbeside]
      by_cases hne : other = name
      · have hskip : c.entryId? (w.disk.put (home ++ [name]) (.file content)) other = none := by
          rw [entryId?, hne, hunread, ite_self]
        rw [List.filter_cons_of_neg (by simpa using hne), hskip]
        exact ih h hfree hrest hbeside
      · have hsame : (c.entryId? (w.disk.put (home ++ [name]) (.file content)) other).map
            (c.load (w.disk.put (home ++ [name]) (.file content))) =
            (c.entryId? w.disk other).map (c.load w.disk) := by
          rw [h.entryId?_put hfree content (hnames other List.mem_cons_self) hne,
            show c.load (w.disk.put (home ++ [name]) (.file content)) = c.load w.disk from
              funext (h.load_put hfree content (ne_entryName_of_unread hunread))]
        rw [List.filter_cons_of_pos (by simpa using hne), hsame, loadNames_cons, Act.look_bind]
        rcases (c.entryId? w.disk other).map (c.load w.disk) with - | (e | a)
        · exact ih h hfree hrest hbeside
        · exact ih (w := w.record _) h hfree hrest rfl
        · simp only [Act.bind_apply, ih h hfree hrest hbeside]
          rcases c.loadNames (names.filter (· ≠ name)) w with ⟨e | rest, w'⟩ <;> rfl

theorem list_beside (hname : Disk.isName name = true) (hunread : idOfName? name = none)
    (horder : (order.arrange (w.disk.names home ++ [name])).filter (· ≠ name) =
      w.listing.arrange (w.disk.names home)) :
    c.list (w.beside (home ++ [name]) content order) =
      ((c.list w).1, (c.list w).2.beside (home ++ [name]) content order) := by
  unfold Cache.list
  simp only [Act.bind_apply]
  rcases names_beside h hfree content order hname horder with
    ⟨shown, hnames, hnames', hshown⟩ | ⟨e, hnames, hnames'⟩
  · rw [hnames, hnames']
    dsimp only
    rw [loadNames_beside h hfree content order hunread hshown]
    rcases c.loadNames (shown.filter (· ≠ name)) w with ⟨e | artifacts, w'⟩ <;> rfl
  · rw [hnames, hnames']

/-- Each entry that is removed leaves the stranger where it is, and a directory without links. -/
theorem clearNames_beside (hunread : idOfName? name = none) {names : List String}
    (hnames : ∀ other ∈ names, Disk.isName other = true) :
    c.clearNames names (w.beside (home ++ [name]) content order) =
      ((c.clearNames (names.filter (· ≠ name)) w).1,
        (c.clearNames (names.filter (· ≠ name)) w).2.beside (home ++ [name]) content order) := by
  induction names generalizing w with
  | nil => rfl
  | cons other names ih =>
      have hother := hnames other List.mem_cons_self
      have hrest := fun o ho => hnames o (List.mem_cons_of_mem _ ho)
      have hbeside : (w.beside (home ++ [name]) content order).disk =
          w.disk.put (home ++ [name]) (.file content) := rfl
      rw [clearNames_cons, Act.look_bind, hbeside]
      by_cases hne : other = name
      · have hskip : c.entryId? (w.disk.put (home ++ [name]) (.file content)) other = none := by
          rw [entryId?, hne, hunread, ite_self]
        rw [List.filter_cons_of_neg (by simpa using hne), hskip]
        exact ih h hfree hrest
      · rw [List.filter_cons_of_pos (by simpa using hne), clearNames_cons, Act.look_bind,
          h.entryId?_put hfree content hother hne]
        by_cases hentry : (c.entryId? w.disk other).isSome = true
        · have hentry' :
              (c.entryId? (w.disk.put (home ++ [name]) (.file content)) other).isSome = true := by
            rwa [h.entryId?_put hfree content hother hne]
          obtain ⟨old, hold, hremove⟩ := h.removeFile hother hentry
          obtain ⟨-, -, hremove'⟩ := (h.put_file hfree content).removeFile hother hentry'
          have hapart : home ++ [other] ≠ home ++ [name] := by simpa using hne
          rw [w.disk.erase_put_of_ne hapart] at hremove'
          have hfree' : (w.disk.erase (home ++ [other])).node? (home ++ [name]) = none := by
            rw [Disk.node?_erase (by simp), if_neg (Ne.symm hapart), hfree]
          have hleft := ih (w := { w with disk := w.disk.erase (home ++ [other]) })
            (h.erase_file hold) hfree' hrest
          have hedit (refused : Fault → FetchError) :
              Act.edit (·.removeFile (c.dir.join other)) refused
                (w.beside (home ++ [name]) content order) =
                (.ok (), World.beside { w with disk := w.disk.erase (home ++ [other]) }
                  (home ++ [name]) content order) := by
            rw [Act.edit_apply, hbeside, hremove']
            rfl
          rw [if_pos hentry, if_pos hentry, Act.bind_of_ok (hedit _),
            Act.bind_of_ok (Act.edit_of_done hremove _), Act.bind_apply, Act.bind_apply, hleft]
          rcases c.clearNames (names.filter (· ≠ name)) _ with ⟨e | count, w'⟩ <;> rfl
        · rw [if_neg hentry, if_neg hentry]
          exact ih h hfree hrest

theorem clear_beside (hname : Disk.isName name = true) (hunread : idOfName? name = none)
    (horder : (order.arrange (w.disk.names home ++ [name])).filter (· ≠ name) =
      w.listing.arrange (w.disk.names home)) :
    c.clear (w.beside (home ++ [name]) content order) =
      ((c.clear w).1, (c.clear w).2.beside (home ++ [name]) content order) := by
  unfold Cache.clear
  simp only [Act.bind_apply]
  rcases names_beside h hfree content order hname horder with
    ⟨shown, hnames, hnames', hshown⟩ | ⟨e, hnames, hnames'⟩
  · rw [hnames, hnames']
    exact clearNames_beside h hfree content order hunread hshown
  · rw [hnames, hnames']

end Beside

/-- A file that no id is read from makes no difference to any use of the cache, and stays
where it is when the cache is cleared.  The directory may show its other names in the order
in which it showed them. -/
theorem strangers_unnoticed (c : Cache) {w : World} (h : c.Flat w.disk home)
    (hname : Disk.isName name = true) (hunread : idOfName? name = none)
    (hfree : w.disk.node? (home ++ [name]) = none) (content : ByteArray) (order : Listing)
    (horder : (order.arrange (w.disk.names home ++ [name])).filter (· ≠ name) =
      w.listing.arrange (w.disk.names home)) :
    let beside (w : World) : World := w.beside (home ++ [name]) content order
    (∀ part, c.has (beside w).disk part = c.has w.disk part ∧
      c.load (beside w).disk part = c.load w.disk part ∧
      (c.needsRefresh part : Act FetchError Bool) (beside w) =
        ((c.needsRefresh part : Act FetchError Bool) w).map id beside) ∧
    c.list (beside w) = (c.list w).map id beside ∧
    c.clear (beside w) = (c.clear w).map id beside ∧
    (c.clear (beside w)).2.disk.node? (home ++ [name]) = some (.file content) := by
  have hentries := ne_entryName_of_unread hunread
  have hclear := clear_beside h hfree content order hname hunread horder
  refine ⟨fun part => ⟨h.has_put hfree content hentries part,
    h.load_put hfree content hentries part,
    needsRefresh_beside h hfree content order hentries part⟩,
    list_beside h hfree content order hname hunread horder, hclear, ?_⟩
  rw [hclear]
  exact (Disk.node?_put (by simp) _ _).trans (if_pos rfl)

/-- Every name that an id is read from lists the artifact of this id, whatever the file
itself holds. -/
theorem loadNames_of_one {w : World} {id : PartId} {a : CachedArtifact}
    (hload : c.load w.disk id = .ok a) {names : List String}
    (hnames : ∀ other ∈ names, c.entryId? w.disk other = some id) :
    c.loadNames names w = (.ok (names.map fun _ => a), w) := by
  induction names with
  | nil => rfl
  | cons other names ih =>
      have hrest := ih fun o ho => hnames o (List.mem_cons_of_mem _ ho)
      rw [loadNames_cons, Act.look_bind, hnames other List.mem_cons_self, Option.map_some, hload]
      dsimp only
      rw [Act.bind_of_ok hrest]
      rfl

theorem list_of_one {w : World} {id : PartId} {a : CachedArtifact}
    (hload : c.load w.disk id = .ok a) {names : List String} (hshown : c.names w = (.ok names, w))
    (hnames : ∀ other ∈ names, c.entryId? w.disk other = some id) :
    c.list w = (.ok (names.map fun _ => a), w) := by
  have hle : a.partId.le a.partId = true := by simpa using PartId.le_total a.partId a.partId
  have hsorted : (names.map fun _ => a).Pairwise fun a b => a.partId.le b.partId = true :=
    List.pairwise_map.mpr (List.pairwise_of_forall fun _ _ => hle)
  unfold Cache.list
  rw [Act.bind_of_ok hshown, Act.bind_of_ok (loadNames_of_one hload hnames),
    List.mergeSort_of_pairwise hsorted]
  rfl

/-- Blanks around an id make a double of its entry: beside `C1.yaml` it is listed as this entry
once more, and it is removed as an entry. -/
theorem double_noticed :
    let c : Cache := ⟨⟨"/c"⟩, Freshness.never⟩
    let id : PartId := ⟨"C1", by decide, by decide⟩
    let a : CachedArtifact := ⟨id, ⟨0, 0⟩, .null⟩
    let d : Disk := ⟨[(["c"], .dir), (["c", "C1.yaml"], .file a.render.toUTF8)], []⟩
    let w : World := ⟨d, false, fun _ => ⟨0, 0⟩, Listing.asStored, []⟩
    let double : World := w.beside ["c", " C1.yaml"] ByteArray.empty Listing.asStored
    (∀ other, " C1.yaml" ≠ entryName other) ∧
    (c.list w).1 = .ok [a] ∧ (c.list double).1 = .ok [a, a] ∧
    (c.clear w).1.toOption = some 1 ∧ (c.clear double).1.toOption = some 2 ∧
    (c.clear double).2.disk.has ⟨"/c/ C1.yaml"⟩ = false := by
  intro c id a d w double
  have hparse : CachedArtifact.parse a.render = some a :=
    CachedArtifact.parse_eq_some_null (by decide +kernel)
  have hload {d : Disk} (hentry : c.entry? d id = some a.render.toUTF8) : c.load d id = .ok a := by
    rw [load_eq_ok_iff, artifact?, hentry, Option.bind_some, fromUTF8?_toUTF8,
      Option.bind_some, hparse]
  refine ⟨fun other hother => ?_, ?_, ?_, by decide +kernel, by decide +kernel, by decide +kernel⟩
  · have hread : idOfName? " C1.yaml" = some id := by decide +kernel
    rw [hother, idOfName?_entryName] at hread
    rw [Option.some.inj hread] at hother
    exact absurd hother (by decide)
  · have hlist : w.disk.list c.dir = .ok ["C1.yaml"] := by decide +kernel
    have hshown : c.names w = (.ok ["C1.yaml"], w) := by
      unfold Cache.names
      rw [hlist]
      rfl
    rw [list_of_one (hload (by decide +kernel)) hshown (by decide +kernel)]
    rfl
  · have hlist : double.disk.list c.dir = .ok ["C1.yaml", " C1.yaml"] := by decide +kernel
    have hshown : c.names double = (.ok ["C1.yaml", " C1.yaml"], double) := by
      unfold Cache.names
      rw [hlist]
      rfl
    rw [list_of_one (hload (by decide +kernel)) hshown (by decide +kernel)]
    rfl

end Cache

end PartDepot
