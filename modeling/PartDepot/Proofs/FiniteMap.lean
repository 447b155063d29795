import Mathlib.Data.List.AList
import PartDepot.Proofs.ClosedGate
import PartDepot.Proofs.Members

/-!
# The cache as a finite map

A cache directory that nobody else writes to holds a finite map from parts to artifacts: the entries
are its keys, whatever else the ids look like, and every use of the cache answers as the map does.
-/

namespace PartDepot

namespace PartId

/-! ## The order of ids -/

theorem le_trans {a b e : PartId} (h : a.le b = true) (h' : b.le e = true) : a.le e = true := by
  simp only [le, Bool.not_eq_true', decide_eq_false_iff_not, String.not_lt] at h h' ⊢
  exact String.le_trans h h'

theorem le_total (a b : PartId) : (a.le b || b.le a) = true := by
  simp only [le, Bool.or_eq_true, Bool.not_eq_true', decide_eq_false_iff_not, String.not_lt]
  exact String.le_total a.text b.text

theorem lt_of_le_of_ne {a b : PartId} (h : a.le b = true) (hne : a ≠ b) : a.text < b.text := by
  simp only [le, Bool.not_eq_true', decide_eq_false_iff_not, String.not_lt] at h
  by_contra hnot
  have htext := String.le_antisymm h (String.not_lt.mp hnot)
  obtain ⟨a, _, _⟩ := a
  obtain ⟨b, _, _⟩ := b
  obtain rfl : a = b := htext
  exact hne rfl

/-! ## Characters of ids -/

theorem text_ne_nil (id : PartId) : id.text.toList ≠ [] := by
  intro hnil
  have hflaw := id.flawless
  simp [flaw?, hnil] at hflaw

theorem no_nul (id : PartId) : '\x00' ∉ id.text.toList := by
  intro hnul
  have hflaw := id.flawless
  have hany : id.text.toList.any Text.isControl = true :=
    List.any_eq_true.mpr ⟨'\x00', hnul, by decide⟩
  unfold flaw? at hflaw
  simp only [hany, if_true] at hflaw
  split at hflaw
  · simp at hflaw
  · split at hflaw
    · simp at hflaw
    · split at hflaw <;> simp at hflaw

end PartId

namespace Cache

/-! ## Reading entries -/

theorem loadNames_nil (c : Cache) : c.loadNames [] = pure [] := by rfl

theorem loadNames_cons (c : Cache) (name : String) (rest : List String) :
    c.loadNames (name :: rest) = (do
      let found ← Act.look fun w => (c.entryId? w.disk name).map (c.load w.disk)
      match found with
      | none => c.loadNames rest
      | some (.ok a) => return a :: (← c.loadNames rest)
      | some (.error e) =>
        Act.log .warn s!"Skipping cache entry {(c.dir.join name).text}: {e.message}"
        c.loadNames rest) := by rfl

theorem clearNames_cons (c : Cache) (name : String) (rest : List String) :
    c.clearNames (name :: rest) = (do
      let path := c.dir.join name
      if (← Act.look fun w => c.entryId? w.disk name).isSome then
        Act.edit (·.removeFile path) fun _ => .cacheWrite path
        return (← c.clearNames rest) + 1
      else c.clearNames rest) := by rfl

/-! ## Names and ids -/

theorem entryName_no_nul (id : PartId) : '\x00' ∉ (entryName id).toList := by
  simp [entryName_toList, id.no_nul]

/-- A file that is named for a part is read as an entry of this part, dots and all. -/
theorem idOfName?_entryName (id : PartId) : idOfName? (entryName id) = some id := by
  have hsplit : Path.splitExtension (entryName id) = (id.text, some "yaml") := by
    have hreverse : (entryName id).toList.reverse =
        ['l', 'm', 'a', 'y'] ++ '.' :: id.text.toList.reverse := by
      simp [entryName_toList]
    have htext : (id.text.toList.reverse).isEmpty = false := by simpa using id.text_ne_nil
    unfold Path.splitExtension
    rw [hreverse]
    simp [htext, entryName_ne_up]
  unfold idOfName?
  rw [hsplit]
  simp [extension, Except.toOption]

theorem map_entryName_filterMap {names : List String}
    (h : ∀ name ∈ names, ∃ id, name = entryName id) :
    (names.filterMap idOfName?).map entryName = names := by
  induction names with
  | nil => rfl
  | cons name names ih =>
      obtain ⟨id, rfl⟩ := h name List.mem_cons_self
      rw [List.filterMap_cons, idOfName?_entryName]
      dsimp only
      rw [List.map_cons, ih fun other hother => h other (List.mem_cons_of_mem _ hother)]

/-- The file system takes the file name of a part, and the path that ends in it. -/
def Accepts (c : Cache) (id : PartId) : Prop :=
  (entryName id).utf8ByteSize ≤ Disk.nameLimit ∧ (c.entryPath id).text.utf8ByteSize ≤ Disk.pathLimit

instance (c : Cache) (id : PartId) : Decidable (c.Accepts id) := by
  unfold Accepts
  infer_instance

/-! ## Directories that hold a map -/

abbrev Shelf := AList fun _ : PartId => CachedArtifact

/-- The entries at a place are the artifacts of a map, each under the name of its key, and
nothing else is there. -/
structure Holds (c : Cache) (home : Place) (d : Disk) (m : Shelf) : Prop where
  start : ∃ place, d.start c.dir = .ok place
  leads : d.Leads c.dir home
  node : ∀ id, d.node? (home ++ [entryName id]) = (m.lookup id).map fun a => .file a.render.toUTF8
  names : (d.names home).Perm (m.keys.map entryName)
  accepts : ∀ id ∈ m, c.Accepts id
  readable : ∀ id a, m.lookup id = some a → CachedArtifact.parse a.render = some a

/-- There is no cache directory, and there is an empty one once it can be made. -/
structure Missing (c : Cache) (makeable : Bool) (d : Disk) : Prop where
  named : c.dir.text ≠ ""
  absent : d.list c.dir = .error .notFound
  made : (d.makeDirs c.dir).1.isNone = makeable
  empty : (d.makeDirs c.dir).2.list c.dir = if makeable then .ok [] else .error .notFound

/-- What looking at single entries shows is what a map says. -/
structure Shows (c : Cache) (d : Disk) (m : Shelf) : Prop where
  artifact : ∀ id, c.artifact? d id = m.lookup id
  has : ∀ id, c.has d id = (m.lookup id).isSome
  absent : ∀ id, id ∉ m → c.Accepts id → c.load d id = .error (.notCached id.text)

variable {c : Cache} {home : Place} {d : Disk} {m : Shelf} {id : PartId}

theorem has_eq (c : Cache) (d : Disk) (id : PartId) : c.has d id = (c.entry? d id).isSome := by
  unfold has Disk.isFile entry?
  rcases d.find true (c.entryPath id) with fault | (⟨q, n⟩ | q)
  · rfl
  · cases n <;> rfl
  · rfl

theorem start_entryPath {place : Place} (hstart : d.start c.dir = .ok place) (id : PartId) :
    d.start (c.entryPath id) =
      if Disk.pathLimit < (c.entryPath id).text.utf8ByteSize then .error .nameTooLong
      else .ok place :=
  Disk.start_join (entryName_isPiece id) (entryName_no_nul id) hstart

/-- Where no entry has a name that is not accepted, none is found. -/
theorem not_found_of_not_accepts {place : Place} (hstart : d.start c.dir = .ok place)
    (h : ¬c.Accepts id) (follow : Bool) (s : Disk.Spot) :
    d.find follow (c.entryPath id) ≠ .ok s := by
  intro hfind
  have hentry := start_entryPath hstart id
  split at hentry
  · simp [Disk.find_of_no_start hentry] at hfind
  · next hpath =>
    have hlong : Disk.nameLimit < (entryName id).utf8ByteSize := by
      by_contra hshort
      exact h ⟨Nat.le_of_not_lt hshort, Nat.le_of_not_lt hpath⟩
    exact Disk.find_of_long (entryName_isName id) hlong follow s hfind

namespace Holds

theorem find (h : c.Holds home d m) (hid : c.Accepts id) (follow : Bool) :
    d.find follow (c.entryPath id) = .ok (d.spotAt (home ++ [entryName id])) := by
  obtain ⟨place, hstart⟩ := h.start
  have hentry := start_entryPath hstart id
  rw [if_neg (Nat.not_lt.mpr hid.2)] at hentry
  have hfind : d.find false (c.entryPath id) = .ok (d.spotAt (home ++ [entryName id])) :=
    h.leads.find_of_short (entryName_isName id) hid.1 hentry
  cases follow with
  | false => exact hfind
  | true =>
      rw [Disk.find_follow, hfind]
      intro q target hlink
      have hnode := d.spotAt_node? (home ++ [entryName id])
      rw [hfind] at hlink
      rw [Except.ok.inj hlink, h.node] at hnode
      cases hlookup : m.lookup id <;> simp [hlookup, Disk.Spot.node?] at hnode

theorem not_mem (h : c.Holds home d m) (hid : ¬c.Accepts id) : m.lookup id = none :=
  AList.lookup_eq_none.mpr fun hmem => hid (h.accepts id hmem)

theorem entry?_eq (h : c.Holds home d m) (id : PartId) :
    c.entry? d id = (m.lookup id).map fun a => a.render.toUTF8 := by
  unfold entry?
  by_cases hid : c.Accepts id
  · rw [h.find hid, Disk.spotAt, h.node]
    cases m.lookup id <;> rfl
  · obtain ⟨place, hstart⟩ := h.start
    rw [h.not_mem hid]
    cases hfind : d.find true (c.entryPath id) with
    | error fault => rfl
    | ok s => exact absurd hfind (not_found_of_not_accepts hstart hid true s)

theorem shows (h : c.Holds home d m) : c.Shows d m where
  artifact id := by
    unfold artifact?
    rw [h.entry?_eq]
    cases hlookup : m.lookup id with
    | none => rfl
    | some a =>
        rw [Option.map_some, Option.bind_some, fromUTF8?_toUTF8, Option.bind_some,
          h.readable id a hlookup]
  has id := by
    rw [has_eq, h.entry?_eq, Option.isSome_map]
  absent id hid haccepts := by
    have hlookup := AList.lookup_eq_none.mpr hid
    unfold load
    simp only [Disk.readText, Disk.read, h.find haccepts, Disk.spotAt, h.node, hlookup,
      Option.map_none]
    rfl

/-! ### Changes -/

theorem names_filter (h : c.Holds home d m) (id : PartId) :
    ((d.names home).filter (· ≠ entryName id)).Perm ((m.keys.erase id).map entryName) := by
  have hsame : (fun name => decide (name ≠ entryName id)) ∘ entryName =
      fun other => other != id := by
    funext other
    by_cases hother : other = id
    · simp [hother]
    · have hname : entryName other ≠ entryName id := fun hname => hother (entryName_inj hname)
      simp [hother, hname]
  rw [m.keys_nodup.erase_eq_filter, ← hsame, ← List.filter_map]
  exact h.names.filter _

theorem erase (h : c.Holds home d m) (hid : id ∈ m) :
    c.Holds home (d.erase (home ++ [entryName id])) (m.erase id) where
  start := h.start
  leads := by
    obtain ⟨a, ha⟩ := Option.isSome_iff_exists.mp (AList.lookup_isSome.mpr hid)
    have hfile := h.node id
    rw [ha] at hfile
    exact h.leads.erase_file hfile
  node other := by
    rw [Disk.node?_erase (by simp)]
    by_cases hother : other = id
    · rw [if_pos (by rw [hother]), hother, AList.lookup_erase]
      rfl
    · rw [if_neg (by simpa using fun hname => hother (entryName_inj hname)), h.node,
        AList.lookup_erase_ne hother]
  names := by
    rw [d.names_erase home (entryName_isName id), AList.keys_erase]
    exact h.names_filter id
  accepts other hother := h.accepts other (AList.mem_erase.mp hother).2
  readable other a ha := by
    refine h.readable other a ?_
    have hother : other ≠ id := by
      rintro rfl
      simp at ha
    rwa [AList.lookup_erase_ne hother] at ha

theorem put (h : c.Holds home d m) (hid : c.Accepts id) {a : CachedArtifact}
    (hread : CachedArtifact.parse a.render = some a) :
    c.Holds home (d.put (home ++ [entryName id]) (.file a.render.toUTF8)) (m.insert id a) where
  start := h.start
  leads := by
    refine h.leads.put_file ⟨by simp, ?_⟩ _
    rw [h.node]
    cases m.lookup id with
    | none => exact .inl rfl
    | some old => exact .inr ⟨_, rfl⟩
  node other := by
    rw [Disk.node?_put (by simp)]
    by_cases hother : other = id
    · rw [if_pos (by rw [hother]), hother, AList.lookup_insert]
      rfl
    · rw [if_neg (by simpa using fun hname => hother (entryName_inj hname)), h.node,
        AList.lookup_insert_ne hother]
  names := by
    rw [d.names_put home (entryName_isName id), AList.keys_insert, List.map_cons]
    exact (List.perm_append_singleton _ _).trans ((h.names_filter id).cons _)
  accepts other hother := by
    rcases (AList.mem_insert m).mp hother with rfl | hold
    · exact hid
    · exact h.accepts other hold
  readable other b hb := by
    by_cases hother : other = id
    · rw [hother, AList.lookup_insert] at hb
      obtain rfl := Option.some.inj hb
      exact hread
    · rw [AList.lookup_insert_ne hother] at hb
      exact h.readable other b hb

theorem makeDirs (h : c.Holds home d m) : d.makeDirs c.dir = (none, d) := by
  obtain ⟨place, hstart⟩ := h.start
  exact h.leads.makeDirs_of_start (List.prefix_refl _) rfl hstart

theorem stored (h : c.Holds home d m) (hid : c.Accepts id) (content : ByteArray) :
    c.stored d id content = (none, d.put (home ++ [entryName id]) (.file content)) := by
  have hplace : Replaceable d (c.entryPath id) (d.spotAt (home ++ [entryName id])) := by
    refine ⟨h.find hid false, fun q hdir => ?_⟩
    have hnode := d.spotAt_node? (home ++ [entryName id])
    rw [hdir, h.node] at hnode
    cases hlookup : m.lookup id <;> simp [hlookup, Disk.Spot.node?] at hnode
  have hput := replace_of_replaceable hplace content
  rw [Disk.spotAt_place] at hput
  unfold Cache.stored
  rw [h.makeDirs]
  exact hput

theorem not_stored (h : c.Holds home d m) (hid : ¬c.Accepts id) (content : ByteArray) :
    ∃ fault, c.stored d id content = (some fault, d) := by
  obtain ⟨place, hstart⟩ := h.start
  have hnot : ∀ s, ¬Replaceable d (c.entryPath id) s :=
    fun s hs => not_found_of_not_accepts hstart hid false s hs.1
  unfold Cache.stored
  rw [h.makeDirs]
  exact replace_of_not_replaceable hnot content

end Holds

theorem holds_of_empty (h : d.list c.dir = .ok []) : ∃ home, c.Holds home d ∅ := by
  obtain ⟨home, hleads, hnames⟩ := Disk.leads_of_list h
  refine ⟨home, Disk.start_of_list h, hleads, fun id => ?_, ?_, ?_, ?_⟩
  · cases hnode : d.node? (home ++ [entryName id]) with
    | none => rfl
    | some n =>
        have hmem := Disk.mem_names (entryName_isName id) hnode
        simp [hnames] at hmem
  · rw [hnames]
    exact List.Perm.refl _
  · intro id hid
    exact absurd hid (AList.notMem_empty id)
  · intro id a ha
    simp at ha

namespace Missing

variable {makeable : Bool}

theorem find_error (h : c.Missing makeable d) (id : PartId) (follow : Bool) :
    ∃ fault, d.find follow (c.entryPath id) = .error fault ∧
      (c.Accepts id → fault = .notFound) := by
  obtain ⟨place, hstart⟩ := Disk.start_of_missing h.absent h.named
  have hentry := start_entryPath hstart id
  split at hentry
  · next hlong =>
    refine ⟨_, Disk.find_of_no_start hentry follow, fun hid => ?_⟩
    exact absurd hid.2 (Nat.not_le.mpr hlong)
  · exact ⟨_, Disk.find_in_missing h.absent h.named (entryName_isPiece id) follow hentry,
      fun _ => rfl⟩

theorem shows (h : c.Missing makeable d) : c.Shows d ∅ where
  artifact id := by
    obtain ⟨fault, hfind, -⟩ := h.find_error id true
    unfold artifact? entry?
    rw [hfind, AList.lookup_empty]
    rfl
  has id := by
    obtain ⟨fault, hfind, -⟩ := h.find_error id true
    rw [has_eq, AList.lookup_empty]
    unfold entry?
    rw [hfind]
    rfl
  absent id _ haccepts := by
    obtain ⟨fault, hfind, hfault⟩ := h.find_error id true
    obtain rfl := hfault haccepts
    unfold load
    simp only [Disk.readText, Disk.read, hfind]
    rfl

theorem names_apply (h : c.Missing makeable d) {w : World} (hd : w.disk = d) :
    c.names w = (.ok [], w) := by
  unfold Cache.names
  rw [hd, h.absent]

theorem list (h : c.Missing makeable d) {w : World} (hd : w.disk = d) : c.list w = (.ok [], w) := by
  unfold Cache.list
  rw [Act.bind_of_ok (h.names_apply hd), loadNames_nil, pure_bind, Act.pure_apply,
    List.mergeSort_nil]

theorem clear (h : c.Missing makeable d) {w : World} (hd : w.disk = d) :
    c.clear w = (.ok 0, w) := by
  unfold Cache.clear
  rw [Act.bind_of_ok (h.names_apply hd)]
  rfl

theorem made_again (h : c.Missing false d) : c.Missing false (d.makeDirs c.dir).2 where
  named := h.named
  absent := h.empty
  made := by
    rw [d.makeDirs_again]
    exact h.made
  empty := by
    rw [d.makeDirs_again]
    exact h.empty

/-- A store makes the directory if it can be made, and then goes on as where it is there. -/
theorem stored_of_makeable (h : c.Missing true d) :
    ∃ home made, c.Holds home made ∅ ∧
      ∀ id content, c.stored d id content = c.stored made id content := by
  obtain ⟨home, hholds⟩ := holds_of_empty h.empty
  refine ⟨home, _, hholds, fun id content => ?_⟩
  unfold Cache.stored
  rw [d.makeDirs_again]

theorem stored_of_not_makeable (h : c.Missing false d) (id : PartId) (content : ByteArray) :
    ∃ fault, c.stored d id content = (some fault, (d.makeDirs c.dir).2) := by
  have hmade := h.made
  unfold Cache.stored
  rcases hmake : d.makeDirs c.dir with ⟨_ | fault, made⟩
  · simp [hmake] at hmade
  · exact ⟨fault, rfl⟩

end Missing

/-! ## Reading the directory -/

theorem Shelf.filterMap_lookup (m : Shelf) :
    m.keys.filterMap (fun id => m.lookup id) = m.entries.map Sigma.snd := by
  have hall : ∀ l : List (Sigma fun _ : PartId => CachedArtifact), (∀ s ∈ l, s ∈ m.entries) →
      (l.map Sigma.fst).filterMap (fun id => m.lookup id) = l.map Sigma.snd := by
    intro l hl
    induction l with
    | nil => rfl
    | cons s l ih =>
        have hlookup : m.lookup s.1 = some s.2 := AList.mem_lookup_iff.mpr (hl s List.mem_cons_self)
        rw [List.map_cons, List.filterMap_cons, hlookup]
        dsimp only
        rw [ih fun t ht => hl t (List.mem_cons_of_mem _ ht), List.map_cons]
  exact hall m.entries fun _ => id

namespace Holds

theorem names_apply (h : c.Holds home d m) {w : World} (hd : w.disk = d) :
    c.names w = (.ok (w.listing.arrange (d.names home)), w) := by
  obtain ⟨place, hstart⟩ := h.start
  unfold Cache.names
  rw [hd, h.leads.list hstart]

/-- In whatever order the directory is read, it is read as the names of keys. -/
theorem exists_keys (h : c.Holds home d m) {names : List String}
    (hnames : names.Perm (d.names home)) :
    ∃ ids : List PartId, names = ids.map entryName ∧ ids.Perm m.keys := by
  have hperm := hnames.trans h.names
  refine ⟨names.filterMap idOfName?, (map_entryName_filterMap fun name hname => ?_).symm, ?_⟩
  · obtain ⟨id, -, hid⟩ := List.mem_map.mp (hperm.mem_iff.mp hname)
    exact ⟨id, hid.symm⟩
  · have hkeys := hperm.filterMap idOfName?
    rwa [List.filterMap_map, show idOfName? ∘ entryName = some from funext idOfName?_entryName,
      List.filterMap_some] at hkeys

theorem entryId?_eq (h : c.Holds home d m) (hid : id ∈ m) :
    c.entryId? d (entryName id) = some id := by
  have hhas := h.shows.has id
  rw [AList.lookup_isSome.mpr hid] at hhas
  have hfile : d.isFile (c.dir.join (entryName id)) = true := hhas
  unfold entryId?
  rw [if_pos hfile, idOfName?_entryName]

theorem loadNames (h : c.Holds home d m) {w : World} (hd : w.disk = d) {ids : List PartId}
    (hids : ∀ id ∈ ids, id ∈ m) :
    c.loadNames (ids.map entryName) w = (.ok (ids.filterMap fun id => m.lookup id), w) := by
  induction ids with
  | nil => rfl
  | cons id ids ih =>
      have hid := hids id List.mem_cons_self
      have hrest := ih fun other hother => hids other (List.mem_cons_of_mem _ hother)
      obtain ⟨a, ha⟩ := Option.isSome_iff_exists.mp (AList.lookup_isSome.mpr hid)
      have hload : c.load d id = .ok a := load_eq_ok_iff.mpr ((h.shows.artifact id).trans ha)
      rw [List.map_cons, loadNames_cons, Act.look_bind, hd, h.entryId?_eq hid,
        Option.map_some, hload]
      dsimp only
      rw [Act.bind_of_ok hrest, List.filterMap_cons, ha]
      rfl

/-- The artifacts of a map in any order of its keys are its values. -/
theorem values_perm {ids : List PartId} (hids : ids.Perm m.keys) :
    (ids.filterMap fun id => m.lookup id).Perm (m.entries.map Sigma.snd) := by
  rw [← Shelf.filterMap_lookup]
  exact hids.filterMap _

theorem list (h : c.Holds home d m) {w : World} (hd : w.disk = d) :
    ∃ artifacts, c.list w = (.ok artifacts, w) ∧ artifacts.Perm (m.entries.map Sigma.snd) ∧
      artifacts.Pairwise fun a b => a.partId.le b.partId = true := by
  obtain ⟨ids, hnames, hids⟩ := h.exists_keys (w.listing.perm (d.names home))
  have hload := h.loadNames hd fun id hid => AList.mem_keys.mpr (hids.mem_iff.mp hid)
  let le (a b : CachedArtifact) : Bool := a.partId.le b.partId
  have hsorted := @List.pairwise_mergeSort _ le (fun _ _ _ => PartId.le_trans)
    (fun _ _ => PartId.le_total _ _) (ids.filterMap fun id => m.lookup id)
  refine ⟨_, ?_, ((List.mergeSort_perm _ le).trans (values_perm hids)), hsorted⟩
  unfold Cache.list
  rw [Act.bind_of_ok (h.names_apply hd), hnames, Act.bind_of_ok hload]
  rfl

theorem removeFile (h : c.Holds home d m) (hid : id ∈ m) :
    d.removeFile (c.dir.join (entryName id)) = (none, d.erase (home ++ [entryName id])) := by
  obtain ⟨a, ha⟩ := Option.isSome_iff_exists.mp (AList.lookup_isSome.mpr hid)
  have hnode := h.node id
  rw [ha, Option.map_some] at hnode
  have hfind : d.find false (c.dir.join (entryName id)) =
      .ok (.taken (home ++ [entryName id]) (.file a.render.toUTF8)) :=
    (h.find (h.accepts id hid) false).trans (congrArg Except.ok (Disk.spotAt_of_node hnode))
  unfold Disk.removeFile
  rw [hfind]

/-- Every entry that is removed is one key less, until none is left. -/
theorem clearNames (h : c.Holds home d m) {w : World} (hd : w.disk = d) {ids : List PartId}
    (hids : ids.Perm m.keys) :
    ∃ left, c.clearNames (ids.map entryName) w = (.ok ids.length, { w with disk := left }) ∧
      c.Holds home left ∅ := by
  induction ids generalizing m d w with
  | nil =>
      have hnone : m = ∅ := AList.ext (List.map_eq_nil_iff.mp (List.nil_perm.mp hids))
      subst hnone hd
      exact ⟨w.disk, rfl, h⟩
  | cons id ids ih =>
      have hid : id ∈ m := AList.mem_keys.mpr (hids.mem_iff.mp List.mem_cons_self)
      have hrest : ids.Perm (m.erase id).keys := by
        rw [AList.keys_erase]
        exact (List.perm_cons id).mp (hids.trans (List.perm_cons_erase (AList.mem_keys.mp hid)))
      obtain ⟨left, hclear, hleft⟩ := ih (h.erase hid)
        (w := { w with disk := d.erase (home ++ [entryName id]) }) rfl hrest
      refine ⟨left, ?_, hleft⟩
      have hremove :=
        (congrArg (·.removeFile (c.dir.join (entryName id))) hd).trans (h.removeFile hid)
      rw [List.map_cons, clearNames_cons, Act.look_bind, hd, h.entryId?_eq hid, Option.isSome_some,
        if_pos rfl, Act.bind_of_ok (Act.edit_of_done hremove _), Act.bind_of_ok hclear]
      rfl

theorem clear (h : c.Holds home d m) {w : World} (hd : w.disk = d) :
    ∃ left, c.clear w = (.ok m.entries.length, { w with disk := left }) ∧ c.Holds home left ∅ := by
  obtain ⟨ids, hnames, hids⟩ := h.exists_keys (w.listing.perm (d.names home))
  obtain ⟨left, hclear, hleft⟩ := h.clearNames hd hids
  have hlength : ids.length = m.entries.length := hids.length_eq.trans (List.length_map _)
  refine ⟨left, ?_, hleft⟩
  unfold Cache.clear
  rw [Act.bind_of_ok (h.names_apply hd), hnames, ← hlength]
  exact hclear

end Holds

/-! ## Uses of a cache -/

/-- One use of a cache. Whoever reads the directory is shown it in some order. -/
inductive Use where
  | store (id : PartId) (artifact : CachedArtifact)
  | has (id : PartId)
  | load (id : PartId)
  | needsRefresh (id : PartId)
  | list (order : Listing)
  | clear (order : Listing)

inductive Reply where
  | stored (result : Except FetchError Unit)
  | has (answer : Bool)
  | loaded (result : Except FetchError CachedArtifact)
  | mustRefresh (answer : Bool)
  | listed (result : Except FetchError (List CachedArtifact))
  | cleared (result : Except FetchError Nat)

/-- One use in a world: the reply, and the world afterwards. -/
def use (c : Cache) (w : World) : Use → Reply × World
  | .store id a => (.stored (c.store id a w).1, (c.store id a w).2)
  | .has id => (.has (c.has w.disk id), w)
  | .load id => (.loaded (c.load w.disk id), w)
  | .needsRefresh id =>
      (.mustRefresh (c.mustRefresh w id), (c.needsRefresh id w : Except Empty _ × _).2)
  | .list order =>
    let w := { w with listing := order }
    (.listed (c.list w).1, (c.list w).2)
  | .clear order =>
    let w := { w with listing := order }
    (.cleared (c.clear w).1, (c.clear w).2)

/-- One use after the other. -/
def uses (c : Cache) : World → List Use → List Reply × World
  | w, [] => ([], w)
  | w, u :: rest =>
    let (reply, w) := c.use w u
    let (replies, w) := c.uses w rest
    (reply :: replies, w)

theorem uses_cons (c : Cache) (w : World) (u : Use) (rest : List Use) :
    (c.uses w (u :: rest)).1 = (c.use w u).1 :: (c.uses (c.use w u).2 rest).1 := rfl

/-- How a map answers a use, and what it is afterwards. A store works if the directory can be made
and the file system takes the name, and not else. -/
inductive Conforms (c : Cache) (makeable : Bool) (m : Shelf) : Use → Reply → Shelf → Prop
  | stored {id : PartId} {a : CachedArtifact} : makeable = true → c.Accepts id →
      Conforms c makeable m (.store id a) (.stored (.ok ())) (m.insert id a)
  | unstored {id : PartId} {a : CachedArtifact} : ¬(makeable = true ∧ c.Accepts id) →
      Conforms c makeable m (.store id a) (.stored (.error (.cacheWrite (c.entryPath id)))) m
  | has {id : PartId} : Conforms c makeable m (.has id) (.has (decide (id ∈ m))) m
  | loaded {id : PartId} {a : CachedArtifact} : m.lookup id = some a →
      Conforms c makeable m (.load id) (.loaded (.ok a)) m
  | notCached {id : PartId} : id ∉ m → c.Accepts id →
      Conforms c makeable m (.load id) (.loaded (.error (.notCached id.text))) m
  | unnamed {id : PartId} {e : FetchError} : id ∉ m → ¬c.Accepts id →
      Conforms c makeable m (.load id) (.loaded (.error e)) m
  | mustRefresh {id : PartId} :
      Conforms c makeable m (.needsRefresh id) (.mustRefresh ((m.lookup id).all c.shallRefresh)) m
  | listed {order : Listing} {artifacts : List CachedArtifact} :
      artifacts.Perm (m.entries.map Sigma.snd) →
      artifacts.Pairwise (fun a b => a.partId.le b.partId = true) →
      ((∀ id a, m.lookup id = some a → a.partId = id) →
        artifacts.Pairwise fun a b => a.partId.text < b.partId.text) →
      Conforms c makeable m (.list order) (.listed (.ok artifacts)) m
  | cleared {order : Listing} :
      Conforms c makeable m (.clear order) (.cleared (.ok m.entries.length)) ∅

/-- A map answers one use after the other. -/
inductive Follows (c : Cache) (makeable : Bool) : Shelf → List Use → List Reply → Shelf → Prop
  | done {m : Shelf} : Follows c makeable m [] [] m
  | next {m m' m'' : Shelf} {u : Use} {reply : Reply} {us : List Use} {replies : List Reply} :
      Conforms c makeable m u reply m' → Follows c makeable m' us replies m'' →
      Follows c makeable m (u :: us) (reply :: replies) m''

/-- A disk on which the cache is what a map says. -/
def Mirrors (c : Cache) (makeable : Bool) (d : Disk) (m : Shelf) : Prop :=
  (makeable = true ∧ ∃ home, c.Holds home d m) ∨ (c.Missing makeable d ∧ m = ∅)

variable {makeable : Bool}

theorem Mirrors.shows (h : c.Mirrors makeable d m) : c.Shows d m := by
  rcases h with ⟨-, home, hholds⟩ | ⟨hmissing, rfl⟩
  · exact hholds.shows
  · exact hmissing.shows

theorem use_store {w : World} {a : CachedArtifact} (h : c.Mirrors makeable w.disk m)
    (hread : CachedArtifact.parse a.render = some a) :
    ∃ m', c.Conforms makeable m (.store id a) (c.use w (.store id a)).1 m' ∧
      c.Mirrors makeable (c.use w (.store id a)).2.disk m' := by
  have hholds {home : Place} {d : Disk} (h : c.Holds home d m)
    (hsame : c.stored w.disk id a.render.toUTF8 = c.stored d id a.render.toUTF8) :
    ∃ m', c.Conforms true m (.store id a) (c.use w (.store id a)).1 m' ∧
      c.Mirrors true (c.use w (.store id a)).2.disk m' := by
    dsimp only [use]
    rw [store_apply, hsame]
    by_cases hid : c.Accepts id
    · rw [h.stored hid]
      exact ⟨_, .stored rfl hid, .inl ⟨rfl, home, h.put hid hread⟩⟩
    · obtain ⟨fault, hfault⟩ := h.not_stored hid a.render.toUTF8
      rw [hfault]
      exact ⟨_, .unstored (by simp [hid]), .inl ⟨rfl, home, h⟩⟩
  rcases h with ⟨rfl, home, h⟩ | ⟨h, rfl⟩
  · exact hholds h rfl
  · cases makeable with
    | true =>
        obtain ⟨home, made, hmade, hsame⟩ := h.stored_of_makeable
        exact hholds hmade (hsame _ _)
    | false =>
        obtain ⟨fault, hfault⟩ := h.stored_of_not_makeable id a.render.toUTF8
        dsimp only [use]
        rw [store_apply, hfault]
        exact ⟨_, .unstored (by simp), .inr ⟨h.made_again, rfl⟩⟩

/-- In a sorted list of artifacts that are kept under their own ids no id comes twice. -/
theorem strictly_sorted {artifacts : List CachedArtifact}
    (hperm : artifacts.Perm (m.entries.map Sigma.snd))
    (hsorted : artifacts.Pairwise fun a b => a.partId.le b.partId = true)
    (hown : ∀ id a, m.lookup id = some a → a.partId = id) :
    artifacts.Pairwise fun a b => a.partId.text < b.partId.text := by
  have hkeys : (m.entries.map Sigma.snd).map (·.partId) = m.keys := by
    rw [List.map_map]
    refine List.map_congr_left fun s hs => ?_
    exact hown s.1 s.2 (AList.mem_lookup_iff.mpr hs)
  have hnodup : (artifacts.map (·.partId)).Nodup := by
    rw [(hperm.map _).nodup_iff, hkeys]
    exact m.keys_nodup
  have hne := List.pairwise_map.mp hnodup
  exact (hsorted.and hne).imp fun h => PartId.lt_of_le_of_ne h.1 h.2

theorem use_list {w : World} (order : Listing) (h : c.Mirrors makeable w.disk m) :
    c.Conforms makeable m (.list order) (c.use w (.list order)).1 m ∧
      c.Mirrors makeable (c.use w (.list order)).2.disk m := by
  dsimp only [use]
  rcases h with ⟨rfl, home, h⟩ | ⟨h, rfl⟩
  · obtain ⟨artifacts, hlist, hperm, hsorted⟩ := h.list (w := { w with listing := order }) rfl
    rw [hlist]
    exact ⟨.listed hperm hsorted (strictly_sorted hperm hsorted), .inl ⟨rfl, home, h⟩⟩
  · rw [h.list (w := { w with listing := order }) rfl]
    refine ⟨.listed ?_ .nil fun _ => .nil, .inr ⟨h, rfl⟩⟩
    exact List.Perm.refl _

theorem use_clear {w : World} (order : Listing) (h : c.Mirrors makeable w.disk m) :
    c.Conforms makeable m (.clear order) (c.use w (.clear order)).1 ∅ ∧
      c.Mirrors makeable (c.use w (.clear order)).2.disk ∅ := by
  dsimp only [use]
  rcases h with ⟨rfl, home, h⟩ | ⟨h, rfl⟩
  · obtain ⟨left, hclear, hleft⟩ := h.clear (w := { w with listing := order }) rfl
    rw [hclear]
    exact ⟨.cleared, .inl ⟨rfl, home, hleft⟩⟩
  · rw [h.clear (w := { w with listing := order }) rfl]
    exact ⟨.cleared, .inr ⟨h, rfl⟩⟩

theorem use_load {w : World} (h : c.Shows w.disk m) :
    c.Conforms makeable m (.load id) (.loaded (c.load w.disk id)) m := by
  have hartifact := h.artifact id
  rw [← load_toOption] at hartifact
  cases hload : c.load w.disk id with
  | ok a => exact .loaded (by simpa [hload, Except.toOption] using hartifact.symm)
  | error e =>
      have hid : id ∉ m := by
        rw [← AList.lookup_eq_none, ← hartifact, hload]
        rfl
      by_cases haccepts : c.Accepts id
      · rw [← hload, h.absent id hid haccepts]
        exact .notCached hid haccepts
      · exact .unnamed hid haccepts

theorem needsRefresh_disk {ε : Type} (c : Cache) (id : PartId) (w : World) :
    (c.needsRefresh id w : Except ε Bool × World).2.disk = w.disk := by
  obtain ⟨told, hcheck, hnotes, -⟩ := c.check_notes (ε := ε) id w
  unfold needsRefresh
  rw [Act.bind_of_ok hcheck]
  cases c.status w.disk id <;> exact hnotes.disk_eq

theorem use_needsRefresh {w : World} (h : c.Shows w.disk m) :
    c.Conforms makeable m (.needsRefresh id) (.mustRefresh (c.mustRefresh w id)) m := by
  have hanswer : c.mustRefresh w id = (m.lookup id).all c.shallRefresh := by
    rw [mustRefresh_eq, ← h.artifact]
    cases hfresh : c.isFresh w.disk id with
    | true =>
        obtain ⟨a, hload, haccept⟩ := isFresh_iff.mp hfresh
        rw [load_eq_ok_iff.mp hload]
        simp [haccept]
    | false =>
        cases hartifact : c.artifact? w.disk id with
        | none => rfl
        | some a =>
            cases hrefresh : c.shallRefresh a with
            | true => simp [hrefresh]
            | false =>
                have htrue := isFresh_iff.mpr ⟨a, load_eq_ok_iff.mpr hartifact, hrefresh⟩
                simp [hfresh] at htrue
  rw [hanswer]
  exact .mustRefresh

/-- One use of a cache that is what a map says is answered as the map does, and the cache is
what the map then says. -/
theorem use_conforms {w : World} {u : Use} (h : c.Mirrors makeable w.disk m)
    (hread : ∀ id a, u = .store id a → CachedArtifact.parse a.render = some a) :
    ∃ m', c.Conforms makeable m u (c.use w u).1 m' ∧ c.Mirrors makeable (c.use w u).2.disk m' := by
  cases u with
  | store id a => exact use_store h (hread id a rfl)
  | has id =>
      have hhas : c.has w.disk id = decide (id ∈ m) := by
        rw [h.shows.has, Bool.eq_iff_iff, AList.lookup_isSome, decide_eq_true_iff]
      refine ⟨m, ?_, h⟩
      dsimp only [use]
      rw [hhas]
      exact .has
  | load id => exact ⟨m, use_load h.shows, h⟩
  | needsRefresh id =>
      refine ⟨m, use_needsRefresh h.shows, ?_⟩
      dsimp only [use]
      rwa [c.needsRefresh_disk]
  | list order => exact ⟨m, use_list order h⟩
  | clear order => exact ⟨∅, use_clear order h⟩

/-- The cache directory is absent or empty, and so it is once the directories that are missing on
the way to it are made: empty if they can be made, and absent if they cannot. -/
structure Vacant (c : Cache) (d : Disk) : Prop where
  before : d.list c.dir = .error .notFound ∨ d.list c.dir = .ok []
  after : (d.makeDirs c.dir).2.list c.dir =
    if (d.makeDirs c.dir).1.isNone then .ok [] else .error .notFound

theorem Vacant.mirrors (h : c.Vacant d) : c.Mirrors (d.makeDirs c.dir).1.isNone d ∅ := by
  rcases h.before with habsent | hempty
  · refine .inr ⟨⟨?_, habsent, rfl, h.after⟩, rfl⟩
    intro hnone
    have hafter := h.after
    simp [Disk.makeDirs, hnone, habsent] at hafter
  · obtain ⟨home, hholds⟩ := holds_of_empty hempty
    exact .inl ⟨by rw [hholds.makeDirs]; rfl, home, hholds⟩

theorem uses_mirror {us : List Use} {w : World} (h : c.Mirrors makeable w.disk m)
    (hread : ∀ id a, Use.store id a ∈ us → CachedArtifact.parse a.render = some a) :
    ∃ m', c.Follows makeable m us (c.uses w us).1 m' := by
  induction us generalizing m w with
  | nil => exact ⟨m, .done⟩
  | cons u us ih =>
      obtain ⟨m', hone, hmirrors⟩ := use_conforms h fun id a hu =>
        hread id a (hu ▸ List.mem_cons_self)
      obtain ⟨m'', hrest⟩ := ih hmirrors fun id a hu => hread id a (List.mem_cons_of_mem _ hu)
      exact ⟨m'', .next hone hrest⟩

/-- However a cache is used whose directory was absent or empty at the start and belongs to it
alone, it answers as a finite map does that was empty at the start. -/
theorem uses_follow (c : Cache) (us : List Use) {w : World} (hvacant : c.Vacant w.disk)
    (hread : ∀ id a, Use.store id a ∈ us → CachedArtifact.parse a.render = some a) :
    ∃ m, c.Follows (w.disk.makeDirs c.dir).1.isNone ∅ us (c.uses w us).1 m :=
  uses_mirror hvacant.mirrors hread

/-- An id that ends in a dot and looks like an entry is as good a key as any. -/
theorem uses_follow_from_nothing :
    let c : Cache := ⟨⟨"/c/d"⟩, Freshness.never⟩
    let w : World := ⟨⟨[], []⟩, false, fun _ => ⟨0, 0⟩, Listing.asStored, []⟩
    let id : PartId := ⟨".yaml.", by decide, by decide⟩
    let a : CachedArtifact := ⟨⟨"C1", by decide, by decide⟩, ⟨0, 0⟩, .null⟩
    let us : List Use := [.store id a, .list Listing.asStored, .clear Listing.asStored]
    (c.uses w us).1 = [.stored (.ok ()), .listed (.ok [a]), .cleared (.ok 1)] := by
  intro c w id a us
  have hvacant : c.Vacant w.disk := ⟨.inl (by decide +kernel), by decide +kernel⟩
  have hread : CachedArtifact.parse a.render = some a :=
    CachedArtifact.parse_eq_some_null (by decide +kernel)
  have haccepts : c.Accepts id := by decide +kernel
  have hmakeable : (w.disk.makeDirs c.dir).1.isNone = true := by decide +kernel
  obtain ⟨m, hfollows⟩ := uses_follow c us hvacant fun other b hb => by
    have hb : other = id ∧ b = a := by simpa [us] using hb
    rw [hb.2, hread]
  simp only [us, hmakeable, uses_cons] at hfollows ⊢
  clear_value c w id a
  generalize (c.use w (.store id a)).1 = first at hfollows ⊢
  generalize (c.use w (.store id a)).2 = v at hfollows ⊢
  generalize (c.use v (.list Listing.asStored)).1 = second at hfollows ⊢
  generalize (c.use v (.list Listing.asStored)).2 = v' at hfollows ⊢
  generalize (c.use v' (.clear Listing.asStored)).1 = third at hfollows ⊢
  rcases hfollows with - | ⟨hstore, - | ⟨hlist, - | ⟨hclear, -⟩⟩⟩
  cases hstore with
  | unstored hnot => exact absurd ⟨rfl, haccepts⟩ hnot
  | stored =>
      cases hlist with
      | listed hperm =>
          cases hclear with
          | cleared =>
              simp only [AList.insert_empty, AList.singleton_entries, List.map_singleton,
                List.perm_singleton] at hperm
              rw [hperm, AList.insert_empty, AList.singleton_entries]
              rfl

/-- What was absent need not be readable once the directories on the way to it are made: then it
cannot be read, and is not taken for empty. -/
theorem uses_behind_file :
    let c : Cache := ⟨⟨"/a/../f/c"⟩, Freshness.never⟩
    let w : World := ⟨⟨[(["f"], .file ByteArray.empty)], []⟩, false, fun _ => ⟨0, 0⟩,
      Listing.asStored, []⟩
    let id : PartId := ⟨"C1", by decide, by decide⟩
    let a : CachedArtifact := ⟨id, ⟨0, 0⟩, .null⟩
    let us : List Use := [.store id a, .list Listing.asStored]
    w.disk.list c.dir = .error .notFound ∧ CachedArtifact.parse a.render = some a ∧
      ∀ makeable m, ¬c.Follows makeable ∅ us (c.uses w us).1 m := by
  intro c w id a us
  refine ⟨by decide +kernel, CachedArtifact.parse_eq_some_null (by decide +kernel),
    fun makeable m h => ?_⟩
  have hlist : (c.list { (c.store id a w).2 with listing := Listing.asStored }).1.toOption.isNone =
      true := by
    decide +kernel
  simp only [us, uses_cons] at h
  clear_value c w id a
  cases h with
  | next hstore hrest =>
      cases hrest with
      | next hlisted hnone =>
          dsimp only [use] at hlisted
          generalize hreply : (c.list _).1 = reply at hlisted
          cases hlisted with
          | listed => simp [hreply, Except.toOption] at hlist

end Cache

end PartDepot
