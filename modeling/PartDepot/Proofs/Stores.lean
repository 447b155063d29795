import PartDepot.Proofs.Entering
import PartDepot.Proofs.Entries
import PartDepot.Proofs.Regions

/-!
# Entries that stay

An entry that can be read stays so when others are stored, wherever links among the entries lead
to, as long as no entry is a link to a directory: a new file then cuts no walk but those that
end at its place, and these find the file.
-/

namespace PartDepot

namespace Disk

/-- A place at which no walk goes on: neither a directory stands there nor a link to one. -/
structure DeadEnd (d : Disk) (p : Place) : Prop where
  ne_root : p ≠ []
  not_dir : d.node? p ≠ some .dir
  not_link : ∀ target, d.node? p = some (.link target) → ∀ q,
    d.walk true linkLimit (if (Path.mk target).isAbsolute then [] else p.dropLast)
      (Path.mk target).steps ≠ .ok (.taken q .dir)

theorem walk_of_le {d : Disk} {follow : Bool} {links more : Nat} {place : Place}
    {names : List String} {s : Spot} (h : d.walk follow links place names = .ok s)
    (hle : links ≤ more) : d.walk follow more place names = .ok s := by
  induction links, place, names using walk_induct generalizing more with
  | nil links place =>
      rw [walk_nil] at h ⊢
      exact h
  | cons links place name rest ihrest ihlinks =>
      rw [walk_cons] at h ⊢
      cases hstride : d.stride follow place name rest with
      | on q =>
          rw [hstride] at h
          exact ihrest q h hle
      | stop result =>
          rw [hstride] at h
          exact h
      | link q todo =>
          rw [hstride] at h
          cases links with
          | zero => simp [goOn] at h
          | succ fewer =>
              cases more with
              | zero => omega
              | succ more => exact ihlinks fewer q todo rfl h (by omega)

section DeadEnd

variable {d : Disk} {p place : Place} {name : String} {links : Nat}

theorem DeadEnd.walk_past (h : d.DeadEnd p) (hp : place ++ [name] = p) (hdot : name ≠ ".")
    (hup : name ≠ "..") (hlinks : links ≤ linkLimit) (follow : Bool) {rest : List String}
    (hrest : rest ≠ []) : ∃ fault, d.walk follow links place (name :: rest) = .error fault := by
  subst hp
  rw [walk_cons, stride, if_neg hdot, if_neg hup]
  split
  · exact ⟨_, rfl⟩
  · cases hnode : d.node? (place ++ [name]) with
    | none => exact ⟨.notFound, by simp [goOn, hrest]⟩
    | some n =>
        cases n with
        | file content => exact ⟨.notDirectory, by simp [goOn, hrest]⟩
        | dir => exact absurd hnode h.not_dir
        | link target =>
            have hlink : Stride.ofNode follow place name rest (some (.link target)) =
                .link (if (Path.mk target).isAbsolute then [] else place)
                  ((Path.mk target).steps ++ rest) := by
              simp [hrest]
            rw [hlink]
            cases links with
            | zero => exact ⟨_, rfl⟩
            | succ fewer =>
                rw [goOn]
                cases hwalk : d.walk follow fewer
                    (if (Path.mk target).isAbsolute then [] else place)
                    ((Path.mk target).steps ++ rest) with
                | error fault => exact ⟨fault, rfl⟩
                | ok s =>
                    obtain ⟨links', q, henters⟩ := enters_of_walk hwalk hrest
                    have hdir := henters.walk_dir (show fewer ≤ linkLimit by omega)
                    have hnot := h.not_link target hnode q
                    rw [List.dropLast_concat] at hnot
                    exact absurd hdir hnot

theorem DeadEnd.walk_end (h : d.DeadEnd p) (hp : place ++ [name] = p) (hdot : name ≠ ".")
    (hup : name ≠ "..") (hlinks : links ≤ linkLimit) (follow : Bool) (q : Place) :
    d.walk follow links place [name] ≠ .ok (.taken q .dir) := by
  subst hp
  intro hwalk
  rw [walk_cons, stride, if_neg hdot, if_neg hup] at hwalk
  split at hwalk
  · simp [goOn] at hwalk
  · cases hnode : d.node? (place ++ [name]) with
    | none => simp [hnode, goOn] at hwalk
    | some n =>
        cases n with
        | file content => simp [hnode, goOn] at hwalk
        | dir => exact absurd hnode h.not_dir
        | link target =>
            cases follow with
            | false => simp [hnode, goOn] at hwalk
            | true =>
                cases links with
                | zero => simp [hnode, goOn] at hwalk
                | succ fewer =>
                    simp only [hnode, Stride.ofNode_link, List.isEmpty_nil, Bool.not_true,
                      Bool.and_false, Bool.false_eq_true, if_false, goOn, List.append_nil] at hwalk
                    have hdir := walk_of_le hwalk (show fewer ≤ linkLimit by omega)
                    have hnot := h.not_link target hnode q
                    rw [List.dropLast_concat] at hnot
                    exact hnot hdir

/-- A file that is put at a dead end is what the walks to that place find; all others end as before,
or fail as before. -/
theorem DeadEnd.walk_put (h : d.DeadEnd p) (content : ByteArray) (hlinks : links ≤ linkLimit)
    (follow : Bool) (place : Place) (names : List String) :
    (d.put p (.file content)).walk follow links place names = d.walk follow links place names ∨
      ((d.put p (.file content)).walk follow links place names = .ok (.taken p (.file content)) ∧
        ∀ q, d.walk follow links place names ≠ .ok (.taken q .dir)) ∨
      ∃ fault fault', (d.put p (.file content)).walk follow links place names = .error fault' ∧
        d.walk follow links place names = .error fault := by
  induction links, place, names using walk_induct with
  | nil links place =>
      rw [walk_nil, walk_nil]
      exact .inl rfl
  | cons links place name rest ihrest ihlinks =>
      by_cases hdot : name = "."
      · rw [walk_cons, walk_cons, stride, stride, if_pos hdot, if_pos hdot, goOn, goOn]
        exact ihrest place hlinks
      by_cases hup : name = ".."
      · rw [walk_cons, walk_cons, stride, stride, if_neg hdot, if_neg hdot, if_pos hup, if_pos hup,
          goOn, goOn]
        exact ihrest place.dropLast hlinks
      by_cases hlong : nameLimit < name.utf8ByteSize
      · left
        rw [walk_cons, walk_cons, stride, stride, if_neg hdot, if_neg hdot, if_neg hup, if_neg hup,
          if_pos hlong, if_pos hlong, goOn, goOn]
      by_cases hp : place ++ [name] = p
      · have hnode : (d.put p (.file content)).node? (place ++ [name]) = some (.file content) := by
          rw [node?_put h.ne_root, if_pos hp]
        by_cases hrest : rest = []
        · subst hrest
          refine .inr (.inl ⟨?_, h.walk_end hp hdot hup hlinks follow⟩)
          rw [walk_cons, stride, if_neg hdot, if_neg hup, if_neg hlong, hnode]
          simp [goOn, hp]
        · obtain ⟨fault, hpast⟩ := h.walk_past hp hdot hup hlinks follow hrest
          refine .inr (.inr ⟨fault, .notDirectory, ?_, hpast⟩)
          rw [walk_cons, stride, if_neg hdot, if_neg hup, if_neg hlong, hnode]
          simp [goOn, hrest]
      · have hnode : (d.put p (.file content)).node? (place ++ [name]) =
            d.node? (place ++ [name]) := by
          rw [node?_put h.ne_root, if_neg hp]
        have hstride : (d.put p (.file content)).stride follow place name rest =
            d.stride follow place name rest := by
          unfold stride
          rw [hnode]
        rw [walk_cons, walk_cons, hstride]
        cases d.stride follow place name rest with
        | on q => exact ihrest q hlinks
        | stop result => exact .inl rfl
        | link q todo =>
            cases links with
            | zero => exact .inl rfl
            | succ fewer => exact ihlinks fewer q todo rfl (by omega)

theorem DeadEnd.find_put (h : d.DeadEnd p) (content : ByteArray) (follow : Bool) (path : Path) :
    (d.put p (.file content)).find follow path = d.find follow path ∨
      (d.put p (.file content)).find follow path = .ok (.taken p (.file content)) ∨
      ∃ fault fault', (d.put p (.file content)).find follow path = .error fault' ∧
        d.find follow path = .error fault := by
  have hsame : (d.put p (.file content)).start path = d.start path := start_congr rfl path
  cases hstart : d.start path with
  | error fault =>
      rw [find_of_no_start hstart, find_of_no_start (hsame.trans hstart)]
      exact .inl rfl
  | ok origin =>
      rw [find_of_start hstart, find_of_start (hsame.trans hstart)]
      rcases h.walk_put content (Nat.le_refl _) follow origin path.steps with hw | ⟨hw, -⟩ | hw
      · exact .inl hw
      · exact .inr (.inl hw)
      · exact .inr (.inr hw)

theorem DeadEnd.makeDirs_put (h : d.DeadEnd p) (content : ByteArray) {path : Path}
    (hmade : d.makeDirs path = (none, d)) :
    (d.put p (.file content)).makeDirs path = (none, d.put p (.file content)) := by
  refine Disk.makeDirs_put (fun {place next name} hdir => ?_) hmade
  rcases h.walk_put content (Nat.le_refl _) true place [name] with hw | ⟨-, hnot⟩ | hw
  · exact hw.trans hdir
  · exact absurd hdir (hnot next)
  · obtain ⟨fault, fault', -, herror⟩ := hw
    simp [hdir] at herror

end DeadEnd

end Disk

namespace Cache

/-- No entry is a link to a directory. -/
def Direct (c : Cache) (d : Disk) : Prop :=
  ∀ id place target, d.find false (c.entryPath id) = .ok (.taken place (.link target)) → ∀ q,
    d.walk true Disk.linkLimit (if (Path.mk target).isAbsolute then [] else place.dropLast)
      (Path.mk target).steps ≠ .ok (.taken q .dir)

/-- The place of some entry, once the cache directory is made. -/
def HasEntryAt (c : Cache) (d : Disk) (q : Place) : Prop :=
  ∃ id s, (d.makeDirs c.dir).2.find false (c.entryPath id) = .ok s ∧ s.place = q

/-- The second disk may be the first one after entries were stored: directories that were missing on
the way to the cache are there, and files stand in the places of entries. -/
structure Filled (c : Cache) (d d' : Disk) : Prop where
  here : d'.here = d.here
  node : ∀ q, d'.node? q = d.node? q ∨
    (d.node? q = none ∧ d'.node? q = some .dir ∧ (d.makeDirs c.dir).2.node? q = some .dir) ∨
    (d.node? q ≠ some .dir ∧ (∃ content, d'.node? q = some (.file content)) ∧ c.HasEntryAt d q)

theorem Filled.refl (c : Cache) (d : Disk) : c.Filled d d := ⟨rfl, fun _ => .inl rfl⟩

theorem Filled.dir {c : Cache} {d d' : Disk} (h : c.Filled d d') {q : Place}
    (hdir : d.node? q = some .dir) : d'.node? q = some .dir := by
  rcases h.node q with hsame | ⟨-, hmade, -⟩ | ⟨hnot, -, -⟩
  · rw [hsame, hdir]
  · exact hmade
  · exact absurd hdir hnot

/-- The entry of a part can be read. -/
def Readable (c : Cache) (d : Disk) (id : PartId) : Prop :=
  ∃ q content text, d.find true (c.entryPath id) = .ok (.taken q (.file content)) ∧
    String.fromUTF8? content = some text ∧ (CachedArtifact.parse text).isSome

theorem fromUTF8?_toUTF8 (text : String) : String.fromUTF8? text.toUTF8 = some text := by
  have hvalid : text.toUTF8.IsValidUTF8 := text.isValidUTF8
  unfold String.fromUTF8?
  rw [dif_pos hvalid]
  rfl

theorem readable_of_isFresh {c : Cache} {d : Disk} {id : PartId} (h : c.isFresh d id = true) :
    c.Readable d id := by
  unfold isFresh at h
  rw [status_eq] at h
  cases hentry : c.entry? d id with
  | none => simp [hentry, statusOf] at h
  | some content =>
      have hfind : ∃ q, d.find true (c.entryPath id) = .ok (.taken q (.file content)) := by
        unfold entry? at hentry
        split at hentry
        · next q old hfind =>
          obtain rfl := Option.some.inj hentry
          exact ⟨q, hfind⟩
        · simp at hentry
      obtain ⟨q, hfind⟩ := hfind
      cases htext : String.fromUTF8? content with
      | none => simp [hentry, statusOf, htext] at h
      | some text =>
          cases hparse : CachedArtifact.parse text with
          | none => simp [hentry, statusOf, htext, hparse] at h
          | some a => exact ⟨q, content, text, hfind, htext, by simp [hparse]⟩

theorem Readable.isFresh {dir : Path} {shallRefresh : Freshness} {d : Disk} {id : PartId}
    (h : Readable ⟨dir, shallRefresh⟩ d id) :
    Cache.isFresh ⟨dir, Freshness.never⟩ d id = true := by
  obtain ⟨q, content, text, hfind, htext, hparse⟩ := h
  obtain ⟨a, ha⟩ := Option.isSome_iff_exists.mp hparse
  have hentry : Cache.entry? ⟨dir, Freshness.never⟩ d id = some content := by
    have hfind' : d.find true (Cache.entryPath ⟨dir, Freshness.never⟩ id) =
        .ok (.taken q (.file content)) := hfind
    unfold entry?
    rw [hfind']
  unfold Cache.isFresh
  rw [status_eq, hentry]
  simp [statusOf, htext, ha, Freshness.never]

/-! ## Storing an entry -/

section Put

variable {c : Cache} {d : Disk} {id : PartId} {s : Disk.Spot} (h : c.Direct d)
  (hs : Replaceable d (c.entryPath id) s)

include h hs

theorem Direct.deadEnd : d.DeadEnd s.place := by
  obtain ⟨hfind, hdir⟩ := hs
  have hshows := find_shows hfind
  refine ⟨fun hroot => ?_, fun hnode => ?_, fun target hnode => ?_⟩
  · simpa [hroot] using hshows.last
  · rw [hshows.node] at hnode
    cases s with
    | free q => simp [Disk.Spot.node?] at hnode
    | taken q n =>
        obtain rfl : n = .dir := by simpa [Disk.Spot.node?] using hnode
        exact hdir q rfl
  · rw [hshows.node] at hnode
    cases s with
    | free q => simp [Disk.Spot.node?] at hnode
    | taken q n =>
        obtain rfl : n = .link target := by simpa [Disk.Spot.node?] using hnode
        exact h id q target hfind

theorem Direct.find_put_self (content : ByteArray) (follow : Bool) :
    (d.put s.place (.file content)).find follow (c.entryPath id) =
      .ok (.taken s.place (.file content)) := by
  have hdead := h.deadEnd hs
  have hlast : (d.put s.place (.file content)).find false (c.entryPath id) =
      .ok (.taken s.place (.file content)) := by
    rcases hdead.find_put content false (c.entryPath id) with hsame | hfile | ⟨_, _, -, herror⟩
    · rw [hs.1] at hsame
      have hnode := (find_shows hsame).node
      rw [Disk.node?_put hdead.ne_root, if_pos rfl] at hnode
      rw [hsame]
      cases s with
      | free q => simp [Disk.Spot.node?] at hnode
      | taken q n =>
          obtain rfl : Node.file content = n := by simpa [Disk.Spot.node?] using hnode
          rfl
    · exact hfile
    · simp [hs.1] at herror
  cases follow with
  | false => exact hlast
  | true => rw [Disk.find_follow (by simp [hlast]), hlast]

theorem Direct.put (content : ByteArray) : c.Direct (d.put s.place (.file content)) := by
  intro other place target hlink q hdir
  have hdead := h.deadEnd hs
  have hlink' : d.find false (c.entryPath other) = .ok (.taken place (.link target)) := by
    rcases hdead.find_put content false (c.entryPath other) with hsame | hfile | ⟨_, _, herror, -⟩
    · exact hsame.symm.trans hlink
    · simp [hfile] at hlink
    · simp [herror] at hlink
  apply h other place target hlink' q
  rcases hdead.walk_put content (Nat.le_refl _) true _ _ with hsame | ⟨hfile, -⟩ | ⟨_, _, herror, -⟩
  · exact hsame.symm.trans hdir
  · rw [hfile] at hdir
    simp at hdir
  · rw [herror] at hdir
    simp at hdir

/-- An entry that can be read can still be read when a readable one is put somewhere. -/
theorem Direct.readable_put {content : ByteArray} {text : String}
    (htext : String.fromUTF8? content = some text) (hparse : (CachedArtifact.parse text).isSome)
    {other : PartId} (hother : c.Readable d other) :
    c.Readable (d.put s.place (.file content)) other := by
  obtain ⟨q, old, oldText, hfind, holdText, holdParse⟩ := hother
  rcases (h.deadEnd hs).find_put content true (c.entryPath other) with
    hsame | hfile | ⟨_, _, -, herror⟩
  · exact ⟨q, old, oldText, hsame.trans hfind, holdText, holdParse⟩
  · exact ⟨s.place, content, text, hfile, htext, hparse⟩
  · simp [hfind] at herror

end Put

/-- A cache on which entries were stored since it was on the first disk, and which can store
them at no other places than then. -/
structure Grown (c : Cache) (d₁ d : Disk) : Prop extends c.Filled d₁ d where
  dirs : ∀ q, (d.makeDirs c.dir).2.node? q = some .dir →
    (d₁.makeDirs c.dir).2.node? q = some .dir
  entries : ∀ q, c.HasEntryAt d q → c.HasEntryAt d₁ q
  direct : c.Direct (d.makeDirs c.dir).2

namespace Grown

variable {c : Cache} {d₁ d : Disk}

theorem refl (h : c.Direct (d₁.makeDirs c.dir).2) : c.Grown d₁ d₁ :=
  ⟨.refl c d₁, fun _ => id, fun _ => id, h⟩

theorem makeDirs (h : c.Grown d₁ d) : c.Grown d₁ (d.makeDirs c.dir).2 := by
  refine ⟨⟨(d.makeDirs_extends c.dir).here.trans h.here, fun q => ?_⟩, fun q hq => ?_,
    fun q hq => ?_, ?_⟩
  · rcases d.node?_makeDirs c.dir q with hsame | ⟨hnone, hdir⟩
    · rw [hsame]
      exact h.node q
    · rcases h.node q with hsame | ⟨-, hmade, -⟩ | ⟨-, ⟨content, hfile⟩, -⟩
      · exact .inr (.inl ⟨hsame.symm.trans hnone, hdir, h.dirs q hdir⟩)
      · simp [hnone] at hmade
      · simp [hnone] at hfile
  · rw [d.makeDirs_again] at hq
    exact h.dirs q hq
  · apply h.entries q
    obtain ⟨id, s, hfind, hplace⟩ := hq
    rw [d.makeDirs_again] at hfind
    exact ⟨id, s, hfind, hplace⟩
  · rw [d.makeDirs_again]
    exact h.direct

theorem put (h : c.Grown d₁ d) (hmade : d.makeDirs c.dir = (none, d)) {id : PartId} {s : Disk.Spot}
    (hs : Replaceable d (c.entryPath id) s) (content : ByteArray) :
    c.Grown d₁ (d.put s.place (.file content)) := by
  have hdirect : c.Direct d := by
    have hd := h.direct
    rwa [hmade] at hd
  have hdead := hdirect.deadEnd hs
  have hmade' := hdead.makeDirs_put content hmade
  have hput := Disk.node?_put (d := d) hdead.ne_root (.file content)
  have hentry : c.HasEntryAt d₁ s.place :=
    h.entries _ ⟨id, s, by rw [hmade]; exact hs.1, rfl⟩
  refine ⟨⟨h.here, fun q => ?_⟩, fun q hq => ?_, fun q hq => ?_, ?_⟩
  · rw [hput]
    by_cases hself : q = s.place
    · subst hself
      refine .inr (.inr ⟨fun hdir => ?_, ⟨content, if_pos rfl⟩, hentry⟩)
      rcases h.node s.place with hsame | ⟨hnone, -, -⟩ | ⟨hnot, -, -⟩
      · exact hdead.not_dir (hsame.trans hdir)
      · simp [hnone] at hdir
      · exact hnot hdir
    · rw [if_neg hself]
      exact h.node q
  · rw [hmade', hput] at hq
    split at hq
    · simp at hq
    · apply h.dirs q
      rw [hmade]
      exact hq
  · obtain ⟨other, t, hfind, rfl⟩ := hq
    rw [hmade'] at hfind
    rcases hdead.find_put content false (c.entryPath other) with hsame | hfile | ⟨_, _, herror, -⟩
    · refine h.entries _ ⟨other, t, ?_, rfl⟩
      rw [hmade, ← hsame]
      exact hfind
    · obtain rfl := Except.ok.inj (hfile.symm.trans hfind)
      exact hentry
    · simp [hfind] at herror
  · rw [hmade']
    exact hdirect.put hs content

theorem stored (h : c.Grown d₁ d) (id : PartId) (content : ByteArray) :
    c.Grown d₁ (c.stored d id content).2 := by
  have hdirs := h.makeDirs
  rcases c.stored_cases d id content with ⟨-, -, hdisk⟩ | ⟨made, s, hmake, hmade, hs, -, hstored⟩
  · rw [hdisk]
    exact hdirs
  · rw [hmake] at hdirs
    rw [hstored]
    exact hdirs.put hmade hs content

end Grown

theorem Readable.makeDirs {c : Cache} {d : Disk} {id : PartId} (h : c.Readable d id) :
    c.Readable (d.makeDirs c.dir).2 id := by
  obtain ⟨q, content, text, hfind, htext, hparse⟩ := h
  exact ⟨q, content, text, (d.makeDirs_extends c.dir).find hfind, htext, hparse⟩

/-- What was stored can be read if it reads back, and with it all that could be read before. -/
theorem readable_stored {c : Cache} {d : Disk} (h : c.Direct (d.makeDirs c.dir).2) {id : PartId}
    {text : String} (hcan : c.canStore d id = true) (hparse : (CachedArtifact.parse text).isSome) :
    c.Readable (c.stored d id text.toUTF8).2 id ∧
      ∀ other, c.Readable d other → c.Readable (c.stored d id text.toUTF8).2 other := by
  have htext := fromUTF8?_toUTF8 text
  rcases c.stored_cases d id text.toUTF8 with
    ⟨hcannot, -, -⟩ | ⟨made, s, hmake, -, hs, -, hstored⟩
  · simp [hcan] at hcannot
  · rw [hmake] at h
    rw [hstored]
    refine ⟨⟨s.place, _, text, h.find_put_self hs _ true, htext, hparse⟩, fun other hother => ?_⟩
    have hmade := hother.makeDirs
    rw [hmake] at hmade
    exact h.readable_put hs htext hparse hmade

theorem readable_unstored {c : Cache} {d : Disk} {id other : PartId} (content : ByteArray)
    (hcan : c.canStore d id = false) (h : c.Readable d other) :
    c.Readable (c.stored d id content).2 other := by
  rcases c.stored_cases d id content with ⟨-, -, hdisk⟩ | ⟨made, s, -, -, -, hcan', -⟩
  · rw [hdisk]
    exact h.makeDirs
  · simp [hcan] at hcan'

end Cache

end PartDepot
