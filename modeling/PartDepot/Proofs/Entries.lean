import PartDepot.Cache
import PartDepot.Proofs.Leading

/-!
# The cache as a map

What the cache has for a part depends on the bytes of one file alone, and storing the entry of a
part changes those of no other.  This needs a plain cache, in which no entry is a link and no entry
comes to light when the cache directory is made.
-/

namespace PartDepot

theorem PartId.no_slash (id : PartId) : '/' ∉ id.text.toList := by
  have hflaw := id.flawless
  unfold PartId.flaw? PartId.hasSeparator at hflaw
  intro hslash
  have hany : id.text.toList.any (fun c => c == '/' || c == '\\') = true :=
    List.any_eq_true.mpr ⟨'/', hslash, by simp⟩
  simp only [hany, if_true] at hflaw
  split at hflaw <;> simp at hflaw

namespace Cache

/-! ## Names of entries -/

def entryName (id : PartId) : String := id.text ++ "." ++ extension

theorem entryName_toList (id : PartId) :
    (entryName id).toList = id.text.toList ++ ['.', 'y', 'a', 'm', 'l'] := by
  simp [entryName, extension]

theorem entryName_isPiece (id : PartId) : Path.IsPiece (entryName id) := by
  constructor
  · simp [entryName_toList]
  · simp [entryName_toList, id.no_slash]

theorem entryName_ne_dot (id : PartId) : entryName id ≠ "." := by
  intro h
  have hlength := congrArg List.length (congrArg String.toList h)
  simp [entryName_toList] at hlength

theorem entryName_ne_up (id : PartId) : entryName id ≠ ".." := by
  intro h
  have hlength := congrArg List.length (congrArg String.toList h)
  simp [entryName_toList] at hlength

theorem entryName_isName (id : PartId) : Disk.isName (entryName id) = true :=
  Disk.isName_of_isPiece (entryName_isPiece id) (entryName_ne_dot id) (entryName_ne_up id)

theorem entryName_inj {a b : PartId} (h : entryName a = entryName b) : a = b := by
  have htext := congrArg String.toList h
  rw [entryName_toList, entryName_toList] at htext
  obtain ⟨a, _, _⟩ := a
  obtain ⟨b, _, _⟩ := b
  obtain rfl := String.toList_inj.mp (List.append_cancel_right htext)
  rfl

/-! ## What the cache has -/

def entry? (c : Cache) (d : Disk) (id : PartId) : Option ByteArray :=
  match d.find true (c.entryPath id) with
  | .ok (.taken _ (.file content)) => some content
  | _ => none

/-- What the cache has for a part whose entry has these bytes. -/
def statusOf (c : Cache) (id : PartId) : Option ByteArray → Status
  | none => .absent
  | some content =>
    match String.fromUTF8? content with
    | none => .unusable (.cacheRead (c.entryPath id))
    | some text =>
      match CachedArtifact.parse text with
      | none => .unusable (.cacheParse (c.entryPath id))
      | some a => if c.shallRefresh a then .stale a else .fresh a

theorem readText_of_file {d : Disk} {p : Path} {q : Place} {content : ByteArray}
    (h : d.find true p = .ok (.taken q (.file content))) :
    d.readText p = match String.fromUTF8? content with
      | some text => .ok text
      | none => .error .notText := by
  unfold Disk.readText Disk.read
  rw [h]
  cases htext : String.fromUTF8? content <;> simp [bind, Except.bind, htext]

theorem status_eq (c : Cache) (d : Disk) (id : PartId) :
    c.status d id = c.statusOf id (c.entry? d id) := by
  unfold status has entry? statusOf Disk.isFile
  rcases hfind : d.find true (c.entryPath id) with fault | (⟨q, n⟩ | q)
  · rfl
  · cases n with
    | dir => rfl
    | link target => rfl
    | file content =>
        have hread := readText_of_file hfind
        unfold load
        dsimp only
        rw [hread]
        cases htext : String.fromUTF8? content with
        | none => simp
        | some text => cases hparse : CachedArtifact.parse text <;> simp [hparse]
  · rfl

/-- Whether the cache has a fresh artifact for a part. -/
def isFresh (c : Cache) (d : Disk) (id : PartId) : Bool :=
  match c.status d id with
  | .fresh _ => true
  | _ => false

theorem isFresh_congr {c : Cache} {d d' : Disk} {id : PartId} (h : c.entry? d' id = c.entry? d id) :
    c.isFresh d' id = c.isFresh d id := by
  unfold isFresh
  rw [status_eq, status_eq, h]

/-! ## Storing -/

def stored (c : Cache) (d : Disk) (id : PartId) (content : ByteArray) : Disk.Edited :=
  match d.makeDirs c.dir with
  | (none, made) => made.replace (c.entryPath id) content
  | (some fault, made) => (some fault, made)

theorem store_apply (c : Cache) (id : PartId) (a : CachedArtifact) (w : World) :
    c.store id a w =
      (if (c.stored w.disk id a.render.toUTF8).1.isNone then .ok ()
        else .error (.cacheWrite (c.entryPath id)),
        { w with disk := (c.stored w.disk id a.render.toUTF8).2 }) := by
  unfold store stored
  rw [Act.bind_apply, Act.edit_apply]
  rcases w.disk.makeDirs c.dir with ⟨_ | fault, made⟩
  · simp only [Act.edit_apply]
    cases (made.replace (c.entryPath id) a.render.toUTF8).1 <;> rfl
  · rfl

/-- Whether an entry can be stored for a part. -/
def canStore (c : Cache) (d : Disk) (id : PartId) : Bool :=
  (c.stored d id ByteArray.empty).1.isNone

/-- A plain cache: no entry is a link, and making the cache directory shows no entry that was not to
be seen before, as it would behind a way that goes through a missing directory and back. -/
structure Plain (c : Cache) (d : Disk) : Prop where
  unlinked : ∀ id place target, d.find false (c.entryPath id) ≠ .ok (.taken place (.link target))
  unveiled : ∀ id place n, (d.makeDirs c.dir).2.find false (c.entryPath id) = .ok (.taken place n) →
    d.find false (c.entryPath id) = .ok (.taken place n)

theorem find_shows {d : Disk} {c : Cache} {id : PartId} {s : Disk.Spot}
    (h : d.find false (c.entryPath id) = .ok s) : s.Shows d (entryName id) := by
  obtain ⟨home, hleads⟩ := Disk.leads_of_find_join (entryName_isPiece id) h
  exact hleads.find_name (entryName_isName id) h ▸ Disk.spotAt_shows d home (entryName id)

theorem plain_of_made {c : Cache} {d : Disk} (hmade : d.makeDirs c.dir = (none, d))
    (hlinks : ∀ p target, d.node? p ≠ some (.link target)) : c.Plain d where
  unlinked _ place target hfind := hlinks place target (find_shows hfind).node
  unveiled id place n hfind := by
    rw [hmade] at hfind
    exact hfind

/-- A path names something in whose place a file can be put. -/
def Replaceable (d : Disk) (p : Path) (s : Disk.Spot) : Prop :=
  d.find false p = .ok s ∧ ∀ q, s ≠ .taken q .dir

theorem replace_of_replaceable {d : Disk} {p : Path} {s : Disk.Spot} (h : Replaceable d p s)
    (content : ByteArray) : d.replace p content = (none, d.put s.place (.file content)) := by
  obtain ⟨hfind, hdir⟩ := h
  unfold Disk.replace
  rw [hfind]
  cases s with
  | free q => rfl
  | taken q n =>
      cases n with
      | dir => exact absurd rfl (hdir q)
      | file old => rfl
      | link target => rfl

theorem replace_of_not_replaceable {d : Disk} {p : Path} (h : ∀ s, ¬Replaceable d p s)
    (content : ByteArray) : ∃ fault, d.replace p content = (some fault, d) := by
  unfold Disk.replace
  rcases hfind : d.find false p with fault | s
  · exact ⟨fault, rfl⟩
  · cases s with
    | free q => exact absurd ⟨hfind, by simp⟩ (h _)
    | taken q n =>
        cases n with
        | dir => exact ⟨.isDirectory, rfl⟩
        | file old => exact absurd ⟨hfind, by simp⟩ (h _)
        | link target => exact absurd ⟨hfind, by simp⟩ (h _)

theorem stored_cases (c : Cache) (d : Disk) (id : PartId) (content : ByteArray) :
    (c.canStore d id = false ∧ (c.stored d id content).1.isNone = false ∧
      (c.stored d id content).2 = (d.makeDirs c.dir).2) ∨
    ∃ made s, d.makeDirs c.dir = (none, made) ∧ made.makeDirs c.dir = (none, made) ∧
      Replaceable made (c.entryPath id) s ∧ c.canStore d id = true ∧
      c.stored d id content = (none, made.put s.place (.file content)) := by
  have hagain := d.makeDirs_again c.dir
  unfold canStore stored
  rcases hmake : d.makeDirs c.dir with ⟨_ | fault, made⟩
  · rw [hmake] at hagain
    by_cases hplace : ∃ s, Replaceable made (c.entryPath id) s
    · obtain ⟨s, hs⟩ := hplace
      refine .inr ⟨made, s, rfl, hagain, hs, ?_, replace_of_replaceable hs content⟩
      simp [replace_of_replaceable hs]
    · have hnot := not_exists.mp hplace
      obtain ⟨fault, hput⟩ := replace_of_not_replaceable hnot content
      obtain ⟨fault', hempty⟩ := replace_of_not_replaceable hnot ByteArray.empty
      exact .inl (by simp [hput, hempty])
  · exact .inl (by simp)

theorem stored_isNone (c : Cache) (d : Disk) (id : PartId) (content : ByteArray) :
    (c.stored d id content).1.isNone = c.canStore d id := by
  rcases c.stored_cases d id content with ⟨hcan, hfault, -⟩ | ⟨made, s, -, -, -, hcan, hstored⟩
  · rw [hcan, hfault]
  · rw [hcan, hstored]
    rfl

theorem canStore_makeDirs (c : Cache) (d : Disk) (id : PartId) :
    c.canStore (d.makeDirs c.dir).2 id = c.canStore d id := by
  unfold canStore stored
  rw [d.makeDirs_again]

/-- Where the directory stands, an entry can be stored if the name of its file leads somewhere. -/
theorem canStore_iff {d : Disk} {c : Cache} (hmade : d.makeDirs c.dir = (none, d)) (id : PartId) :
    c.canStore d id = true ↔ ∃ s, Replaceable d (c.entryPath id) s := by
  unfold canStore stored
  rw [hmade]
  by_cases hplace : ∃ s, Replaceable d (c.entryPath id) s
  · obtain ⟨s, hs⟩ := hplace
    simp only [replace_of_replaceable hs, Option.isNone_none, true_iff]
    exact ⟨s, hs⟩
  · obtain ⟨fault, hempty⟩ := replace_of_not_replaceable (not_exists.mp hplace) ByteArray.empty
    simp [hempty, hplace]

namespace Plain

variable {c : Cache} {d : Disk}

theorem entry?_eq_some (h : c.Plain d) {id : PartId} {content : ByteArray} :
    c.entry? d id = some content ↔
      ∃ place, d.find false (c.entryPath id) = .ok (.taken place (.file content)) := by
  unfold entry?
  rw [Disk.find_follow (h.unlinked id)]
  rcases d.find false (c.entryPath id) with fault | (⟨q, n⟩ | q)
  · simp
  · cases n <;> simp
  · simp

theorem entry?_congr {d' : Disk} {id : PartId} (h : c.Plain d) (h' : c.Plain d')
    (hsame : ∀ place n, d'.find false (c.entryPath id) = .ok (.taken place n) ↔
      d.find false (c.entryPath id) = .ok (.taken place n)) : c.entry? d' id = c.entry? d id := by
  ext content
  rw [h.entry?_eq_some, h'.entry?_eq_some]
  simp only [hsame]

/-! ### When the directory is made -/

theorem makeDirs (h : c.Plain d) : c.Plain (d.makeDirs c.dir).2 where
  unlinked id place target hfind := h.unlinked id place target (h.unveiled id place _ hfind)
  unveiled id place n hfind := by
    rw [d.makeDirs_again] at hfind
    exact hfind

theorem entry?_makeDirs (h : c.Plain d) (id : PartId) :
    c.entry? (d.makeDirs c.dir).2 id = c.entry? d id :=
  h.entry?_congr h.makeDirs fun place n => ⟨h.unveiled id place n, (d.makeDirs_extends c.dir).find⟩

/-! ### When an entry is put into the directory -/

section Put

variable {id : PartId} {s : Disk.Spot} (h : c.Plain d) (hs : Replaceable d (c.entryPath id) s)

include h hs

theorem takesFile : d.TakesFile s.place := by
  obtain ⟨hfind, hdir⟩ := hs
  have hshows := find_shows hfind
  refine ⟨fun hroot => ?_, ?_⟩
  · simpa [hroot] using hshows.last
  · rw [hshows.node]
    cases s with
    | free q => exact .inl rfl
    | taken q n =>
        cases n with
        | dir => exact absurd rfl (hdir q)
        | link target => exact absurd hfind (h.unlinked id q target)
        | file old => exact .inr ⟨old, rfl⟩

theorem find_put_self (content : ByteArray) :
    (d.put s.place (.file content)).find false (c.entryPath id) =
      .ok (.taken s.place (.file content)) := by
  have htakes := h.takesFile hs
  obtain ⟨hfind, hdir⟩ := hs
  rw [(Disk.find_put_file htakes content false _).1 s hfind]
  cases s with
  | free q => simp [Disk.Spot.stored, Disk.Spot.place]
  | taken q n =>
      cases n with
      | dir => exact absurd rfl (hdir q)
      | link target => exact absurd hfind (h.unlinked id q target)
      | file old => simp [Disk.Spot.stored, Disk.Spot.place]

theorem find_put_other (content : ByteArray) {other : PartId} (hother : other ≠ id)
    (t : Disk.Spot) :
    (d.put s.place (.file content)).find false (c.entryPath other) = .ok t ↔
      d.find false (c.entryPath other) = .ok t := by
  have hput := Disk.find_put_file (h.takesFile hs) content false (c.entryPath other)
  cases hd : d.find false (c.entryPath other) with
  | error fault =>
      obtain ⟨fault', hput'⟩ := hput.2 fault hd
      simp [hput']
  | ok u =>
      have hplace : u.place ≠ s.place := by
        intro hsame
        have hlast := (find_shows hd).last
        rw [hsame, (find_shows hs.1).last] at hlast
        exact hother (entryName_inj (Option.some.inj hlast).symm)
      rw [hput.1 u hd, Disk.Spot.stored_of_ne hplace]

theorem put (content : ByteArray) (hmade : d.makeDirs c.dir = (none, d)) :
    c.Plain (d.put s.place (.file content)) where
  unlinked other place target hlink := by
    by_cases hother : other = id
    · rw [hother, h.find_put_self hs] at hlink
      simp at hlink
    · rw [h.find_put_other hs content hother] at hlink
      exact h.unlinked other place target hlink
  unveiled other place n hshown := by
    rw [Disk.makeDirs_put_file (h.takesFile hs) content hmade] at hshown
    exact hshown

theorem entry?_put_self (content : ByteArray) (hmade : d.makeDirs c.dir = (none, d)) :
    c.entry? (d.put s.place (.file content)) id = some content := by
  rw [(h.put hs content hmade).entry?_eq_some]
  exact ⟨s.place, h.find_put_self hs content⟩

theorem entry?_put_other (content : ByteArray) (hmade : d.makeDirs c.dir = (none, d))
    {other : PartId} (hother : other ≠ id) :
    c.entry? (d.put s.place (.file content)) other = c.entry? d other :=
  h.entry?_congr (h.put hs content hmade) fun _ _ =>
    h.find_put_other hs content hother _

theorem canStore_put (content : ByteArray) (hmade : d.makeDirs c.dir = (none, d)) (other : PartId) :
    c.canStore (d.put s.place (.file content)) other = c.canStore d other := by
  have hmade' := Disk.makeDirs_put_file (h.takesFile hs) content hmade
  rw [Bool.eq_iff_iff, canStore_iff hmade', canStore_iff hmade]
  by_cases hother : other = id
  · rw [hother]
    exact ⟨fun _ => ⟨s, hs⟩, fun _ => ⟨_, h.find_put_self hs content, by simp⟩⟩
  · unfold Replaceable
    simp only [h.find_put_other hs content hother]

end Put

/-! ### When an entry is stored -/

variable (h : c.Plain d) (id : PartId) (content : ByteArray)

include h

theorem stored : c.Plain (c.stored d id content).2 := by
  rcases c.stored_cases d id content with ⟨-, -, hdisk⟩ | ⟨made, s, hmake, hmade, hs, -, hstored⟩
  · rw [hdisk]
    exact h.makeDirs
  · have hplain := h.makeDirs
    rw [hmake] at hplain
    rw [hstored]
    exact hplain.put hs content hmade

theorem canStore_stored (other : PartId) :
    c.canStore (c.stored d id content).2 other = c.canStore d other := by
  rcases c.stored_cases d id content with ⟨-, -, hdisk⟩ | ⟨made, s, hmake, hmade, hs, -, hstored⟩
  · rw [hdisk, canStore_makeDirs]
  · have hplain := h.makeDirs
    have hcan := c.canStore_makeDirs d other
    rw [hmake] at hplain hcan
    rw [hstored, hplain.canStore_put hs content hmade, hcan]

/-- Of all entries only the stored one changes, and only if it could be stored. -/
theorem entry?_stored (other : PartId) :
    c.entry? (c.stored d id content).2 other =
      if other = id ∧ c.canStore d id then some content else c.entry? d other := by
  rcases c.stored_cases d id content with
    ⟨hcan, -, hdisk⟩ | ⟨made, s, hmake, hmade, hs, hcan, hstored⟩
  · rw [hdisk, h.entry?_makeDirs, if_neg (by simp [hcan])]
  · have hplain := h.makeDirs
    have hentry := h.entry?_makeDirs other
    rw [hmake] at hplain hentry
    rw [hstored]
    by_cases hother : other = id
    · rw [if_pos ⟨hother, hcan⟩, hother]
      exact hplain.entry?_put_self hs content hmade
    · rw [if_neg (by simp [hother]), ← hentry]
      exact hplain.entry?_put_other hs content hmade hother

end Plain

end Cache

end PartDepot
