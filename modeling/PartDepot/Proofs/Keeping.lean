import PartDepot.Proofs.Lookups
import PartDepot.Proofs.Outside

/-!
# Runs lose nothing

A run changes the cache by the stores of its lookups and in no other way.  So what loads before a
run loads after it, however much of the run fails; an entry that differs holds what was stored last;
and no other file comes to stand in the cache directory.
-/

namespace PartDepot

open Disk

/-- What was stored last for a part. -/
def lastStored (lookups : List Lookup) (id : PartId) : Option CachedArtifact :=
  ((lookups.filter (·.id = id)).filterMap Lookup.stored?).getLast?

theorem lastStored_cons (l : Lookup) (rest : List Lookup) (id : PartId) :
    lastStored (l :: rest) id =
      (lastStored rest id).or (if l.id = id then l.stored? else none) := by
  unfold lastStored
  by_cases hid : l.id = id
  · rw [List.filter_cons_of_pos (by simpa using hid), List.filterMap_cons, if_pos hid]
    cases l.stored? with
    | none => simp
    | some a => simp [List.getLast?_cons]
  · rw [List.filter_cons_of_neg (by simpa using hid), if_neg hid, Option.or_none]

theorem exists_lookup_of_lastStored {lookups : List Lookup} {id : PartId} {a : CachedArtifact}
    (h : lastStored lookups id = some a) : ∃ l ∈ lookups, l.id = id ∧ l.stored? = some a := by
  obtain ⟨l, hl, hstored⟩ := List.mem_filterMap.mp (List.mem_of_getLast? h)
  obtain ⟨hmem, hid⟩ := List.mem_filter.mp hl
  exact ⟨l, hmem, by simpa using hid, hstored⟩

namespace Cache

/-- The place of the entry of a part, once the cache directory is made. -/
def EntryAt (c : Cache) (d : Disk) (id : PartId) (q : Place) : Prop :=
  ∃ s, (d.makeDirs c.dir).2.find false (c.entryPath id) = .ok s ∧ s.place = q

/-- Outside of a region, the second disk is the first one but for entries that were stored. Entries
of other parts are as before, or came to light when the cache directory was made; and the only other
new nodes are directories on the way to the cache. -/
structure OnlyStored (c : Cache) (region : Place → Prop) (stored? : PartId → Option CachedArtifact)
    (d d' : Disk) : Prop where
  stored : ∀ id a, stored? id = some a → c.entry? d' id = some a.render.toUTF8
  others : ∀ id, stored? id = none → c.entry? d' id = c.entry? d id ∨
    c.entry? d id = none ∧ c.entry? d' id = c.entry? (d.makeDirs c.dir).2 id
  node : ∀ q, ¬region q → d'.node? q = d.node? q ∨
    (d.node? q = none ∧ d'.node? q = some .dir ∧ (d.makeDirs c.dir).2.node? q = some .dir) ∨
    ∃ id, (stored? id).isSome ∧ c.EntryAt d id q

/-- The same on the whole disk, with what the next store counts on. -/
structure Tended (c : Cache) (stored? : PartId → Option CachedArtifact) (d d' : Disk) : Prop
    extends c.OnlyStored (fun _ => False) stored? d d' where
  unlinked : c.Unlinked (d'.makeDirs c.dir).2
  dirs : ∀ q, (d'.makeDirs c.dir).2.node? q = some .dir → (d.makeDirs c.dir).2.node? q = some .dir
  filed : ∀ id, stored? id = none →
    c.entry? (d'.makeDirs c.dir).2 id = c.entry? (d.makeDirs c.dir).2 id
  entryAt : ∀ id q, c.EntryAt d' id q → c.EntryAt d id q

namespace OnlyStored

variable {c : Cache} {region : Place → Prop} {stored? : PartId → Option CachedArtifact}
  {d d' : Disk}

/-- What loads still loads: what was stored in its place, or what was there. -/
theorem load (h : c.OnlyStored region stored? d d')
    (hread : ∀ id a, stored? id = some a → CachedArtifact.parse a.render = some a) {id : PartId}
    {a : CachedArtifact} (hload : c.load d id = .ok a) :
    c.load d' id = .ok ((stored? id).getD a) := by
  rw [load_eq_ok_iff, artifact?] at hload ⊢
  cases hstored : stored? id with
  | some b =>
      rw [h.stored id b hstored, Option.bind_some, fromUTF8?_toUTF8, Option.bind_some]
      exact hread id b hstored
  | none =>
      rcases h.others id hstored with hsame | ⟨hnone, -⟩
      · rw [hsame]
        exact hload
      · simp [hnone] at hload

end OnlyStored

namespace Tended

variable {c : Cache} {stored? stored?' : PartId → Option CachedArtifact} {d d' d'' : Disk}

theorem refl (h : c.Unlinked (d.makeDirs c.dir).2) : c.Tended (fun _ => none) d d where
  stored := by simp
  others _ _ := .inl rfl
  node _ _ := .inl rfl
  unlinked := h
  dirs _ := id
  filed _ _ := rfl
  entryAt _ _ := id

theorem makeDirs (h : c.Unlinked (d.makeDirs c.dir).2) :
    c.Tended (fun _ => none) d (d.makeDirs c.dir).2 := by
  have hagain := d.makeDirs_again c.dir
  refine ⟨⟨by simp, fun id _ => ?_, fun q _ => ?_⟩, ?_, ?_, fun id _ => ?_, ?_⟩
  · cases hentry : c.entry? d id with
    | some content => exact .inl (entry?_of_extends (d.makeDirs_extends c.dir) hentry)
    | none => exact .inr ⟨rfl, rfl⟩
  · rcases d.node?_makeDirs c.dir q with hsame | ⟨hnone, hdir⟩
    · exact .inl hsame
    · exact .inr (.inl ⟨hnone, hdir, hdir⟩)
  · rw [hagain]
    exact h
  · rw [hagain]
    exact fun q hq => hq
  · rw [hagain]
  · unfold EntryAt
    rw [hagain]
    exact fun id q hq => hq

/-- The first store makes the cache directory if it is missing, and each one puts one file. -/
theorem put {id : PartId} {a : CachedArtifact} {made : Disk} {s : Spot}
    (h : c.Unlinked (d.makeDirs c.dir).2) (hmake : d.makeDirs c.dir = (none, made))
    (hmade : made.makeDirs c.dir = (none, made)) (hs : Replaceable made (c.entryPath id) s) :
    c.Tended (fun other => if id = other then some a else none) d
      (made.put s.place (.file a.render.toUTF8)) := by
  have hdirs := Tended.makeDirs h
  have hplain := h.plain
  rw [hmake] at hdirs hplain
  have htakes := hplain.takesFile hs
  have hagain := makeDirs_put_file htakes a.render.toUTF8 hmade
  have hat : c.EntryAt d id s.place := ⟨s, by rw [hmake]; exact hs.1, rfl⟩
  have hput := node?_put (d := made) htakes.1 (.file a.render.toUTF8)
  have hother {other : PartId} (hnone : (if id = other then some a else none) = none) :
      other ≠ id := by
    rintro rfl
    simp at hnone
  refine ⟨⟨fun other b hb => ?_, fun other hnone => ?_, fun q _ => ?_⟩, ?_, fun q hq => ?_,
    fun other hnone => ?_, fun other q hq => ?_⟩
  · split at hb
    · next hid =>
      obtain rfl := Option.some.inj hb
      rw [← hid]
      exact hplain.entry?_put_self hs _ hmade
    · simp at hb
  · rw [hplain.entry?_put_other hs _ hmade (hother hnone)]
    exact hdirs.others other rfl
  · rw [hput]
    by_cases hq : q = s.place
    · exact .inr (.inr ⟨id, by simp, hq ▸ hat⟩)
    · rw [if_neg hq]
      rcases hdirs.node q (fun hno => hno) with hsame | hdir | ⟨_, hno, -⟩
      · exact .inl hsame
      · exact .inr (.inl hdir)
      · simp at hno
  · rw [hagain]
    exact (hplain.put hs _ hmade).unlinked
  · rw [hagain, hput] at hq
    split at hq
    · simp at hq
    · rw [hmake]
      exact hq
  · rw [hagain, hmake]
    exact hplain.entry?_put_other hs _ hmade (hother hnone)
  · obtain ⟨t, ht, rfl⟩ := hq
    rw [hagain] at ht
    by_cases hid : other = id
    · subst hid
      rw [hplain.find_put_self hs] at ht
      obtain rfl := Except.ok.inj ht
      exact hat
    · rw [hplain.find_put_other hs _ hid] at ht
      exact ⟨t, by rw [hmake]; exact ht, rfl⟩

theorem trans (h : c.Tended stored? d d') (h' : c.Tended stored?' d' d'') :
    c.Tended (fun id => (stored?' id).or (stored? id)) d d'' := by
  have hor {id : PartId} (hnone : (stored?' id).or (stored? id) = none) :
      stored?' id = none ∧ stored? id = none := Option.or_eq_none_iff.mp hnone
  refine ⟨⟨fun id a ha => ?_, fun id hnone => ?_, fun q _ => ?_⟩, h'.unlinked,
    fun q hq => h.dirs q (h'.dirs q hq), fun id hnone => ?_, fun id q hq =>
      h.entryAt id q (h'.entryAt id q hq)⟩
  · cases hlater : stored?' id with
    | some b =>
        obtain rfl : b = a := by simpa [hlater] using ha
        exact h'.stored id b hlater
    | none =>
        have hentry := h.stored id a (by simpa [hlater] using ha)
        rcases h'.others id hlater with hsame | ⟨hgone, -⟩
        · exact hsame.trans hentry
        · simp [hentry] at hgone
  · obtain ⟨hlater, hfirst⟩ := hor hnone
    have hfiled := h.filed id hfirst
    rcases h'.others id hlater with hsame | ⟨hnone', hlight⟩
    · rw [hsame]
      exact h.others id hfirst
    · rw [hlight, hfiled]
      rcases h.others id hfirst with hsame' | ⟨hnone'', -⟩
      · exact .inr ⟨hsame' ▸ hnone', rfl⟩
      · exact .inr ⟨hnone'', rfl⟩
  · rcases h'.node q (fun hno => hno) with hsame | ⟨hnone, hdir, hmade⟩ | ⟨id, hsome, hat⟩
    · rw [hsame]
      rcases h.node q (fun hno => hno) with hsame' | hdir | ⟨id, hsome, hat⟩
      · exact .inl hsame'
      · exact .inr (.inl hdir)
      · refine .inr (.inr ⟨id, ?_, hat⟩)
        simp [hsome]
    · rcases h.node q (fun hno => hno) with hsame' | ⟨-, hdir', -⟩ | ⟨id, hsome, hat⟩
      · exact .inr (.inl ⟨hsame' ▸ hnone, hdir, h.dirs q hmade⟩)
      · simp [hdir'] at hnone
      · exact .inr (.inr ⟨id, by simp [hsome], hat⟩)
    · exact .inr (.inr ⟨id, by simp [hsome], h.entryAt id q hat⟩)
  · obtain ⟨hlater, hfirst⟩ := hor hnone
    exact (h'.filed id hlater).trans (h.filed id hfirst)

end Tended

end Cache

/-! ## What a run stores -/

section Run

variable {c : Cache} (catalog : Catalog)

theorem Resolver.lookup_tended (id : PartId) {w : World}
    (h : c.Unlinked (w.disk.makeDirs c.dir).2) :
    let l := Resolver.lookup ⟨c, catalog.fetchPart⟩ id w
    c.Tended (fun other => if id = other then l.stored? else none) w.disk l.left.disk := by
  intro l
  have hresolves : Resolves c catalog id w l.result l.left :=
    Resolver.resolve_resolves c catalog id w
  have hidle (hnone : l.stored? = none) {d : Disk} (hd : c.Tended (fun _ => none) w.disk d) :
      c.Tended (fun other => if id = other then l.stored? else none) w.disk d := by
    simpa [hnone] using hd
  generalize hresult : l.result = result at hresolves
  generalize hleft : l.left = left at hresolves ⊢
  have hstill {v : World} (hv : w.Still v) : c.Tended (fun _ => none) w.disk v.disk := by
    rw [hv.disk]
    exact .refl h
  cases hresolves with
  | hit _ hv => exact hidle (by simp [Lookup.stored?, hresult]) (hstill hv)
  | blocked _ _ hv => exact hidle (by simp [Lookup.stored?, hresult]) (hstill hv)
  | unanswered _ _ _ hv => exact hidle (by simp [Lookup.stored?, hresult]) (hstill hv)
  | @stored payload k _ _ _ _ hcan _ =>
      have hsome : l.stored? = some ⟨id, w.clock k, payload⟩ := by simp [Lookup.stored?, hresult]
      rw [hsome]
      rcases c.stored_cases w.disk id (CachedArtifact.mk id (w.clock k) payload).render.toUTF8 with
        ⟨hcannot, -, -⟩ | ⟨made, s, hmake, hmade, hs, -, hstored⟩
      · simp [hcan] at hcannot
      · rw [hstored]
        exact .put h hmake hmade hs
  | @unstored payload a _ _ _ _ _ hcan _ =>
      refine hidle (by simp [Lookup.stored?, hresult]) ?_
      rcases c.stored_cases w.disk id a.render.toUTF8 with ⟨-, -, hdisk⟩ | ⟨_, _, -, -, -, hcan', -⟩
      · rw [hdisk]
        exact .makeDirs h
      · simp [hcan] at hcan'

theorem Lookups.tended {catalog : Catalog} {w last : World} {lookups : List Lookup}
    (hlookups : Lookups ⟨c, catalog.fetchPart⟩ w lookups last)
    (h : c.Unlinked (w.disk.makeDirs c.dir).2) :
    c.Tended (lastStored lookups) w.disk last.disk := by
  induction hlookups with
  | done hnotes =>
      rw [hnotes.disk_eq]
      exact .refl h
  | @next w seen last id rest hnotes _ ih =>
      rw [← hnotes.disk_eq] at h ⊢
      have hone := Resolver.lookup_tended catalog id h
      have hall := hone.trans (ih hone.unlinked)
      have hlast : lastStored (Resolver.lookup ⟨c, catalog.fetchPart⟩ id seen :: rest) =
          fun other => (lastStored rest other).or
            (if id = other then (Resolver.lookup ⟨c, catalog.fetchPart⟩ id seen).stored?
              else none) :=
        funext (lastStored_cons _ rest)
      rw [hlast]
      exact hall

end Run

/-! ## A cache beside the state directory -/

/-- Whatever stands in a region, the cache directory is made in the same way, and the
entries are found in the same places. -/
structure Cache.Beside (c : Cache) (region : Place → Prop) (d : Disk) : Prop where
  found : ∀ d₁, d.SameBut region d₁ → ∀ id,
    d₁.find true (c.entryPath id) = d.find true (c.entryPath id)
  made : ∀ d₁, d.SameBut region d₁ → (d₁.makeDirs c.dir).1 = (d.makeDirs c.dir).1 ∧
    (d.makeDirs c.dir).2.SameBut region (d₁.makeDirs c.dir).2
  foundMade : ∀ d₁, d.SameBut region d₁ → ∀ id,
    (d₁.makeDirs c.dir).2.find false (c.entryPath id) =
      (d.makeDirs c.dir).2.find false (c.entryPath id)

namespace Cache.Beside

variable {c : Cache} {region : Place → Prop} {d d₁ d₂ : Disk}

theorem entry?_eq (h : c.Beside region d) (hsame : d.SameBut region d₁) (id : PartId) :
    c.entry? d₁ id = c.entry? d id := by
  unfold entry?
  rw [h.found d₁ hsame id]

theorem unlinked (h : c.Beside region d) (hsame : d.SameBut region d₁)
    (hlinks : c.Unlinked (d.makeDirs c.dir).2) : c.Unlinked (d₁.makeDirs c.dir).2 := by
  intro id place target hfind
  rw [h.foundMade d₁ hsame] at hfind
  exact hlinks id place target hfind

theorem filed_eq (h : c.Beside region d) (hsame : d.SameBut region d₁)
    (hlinks : c.Unlinked (d.makeDirs c.dir).2) (id : PartId) :
    c.entry? (d₁.makeDirs c.dir).2 id = c.entry? (d.makeDirs c.dir).2 id := by
  have hlinks₁ := h.unlinked hsame hlinks
  unfold entry?
  rw [find_follow (hlinks₁ id), find_follow (hlinks id), h.foundMade d₁ hsame]

/-- What happened in the region before is not to be seen in the cache. -/
theorem onlyStored (h : c.Beside region d) (hsame : d.SameBut region d₁)
    (hlinks : c.Unlinked (d.makeDirs c.dir).2) {stored? : PartId → Option CachedArtifact}
    (htended : c.Tended stored? d₁ d₂) : c.OnlyStored region stored? d d₂ where
  stored := htended.stored
  others id hnone := by
    rw [← h.entry?_eq hsame id, ← h.filed_eq hsame hlinks id]
    exact htended.others id hnone
  node q hq := by
    rw [← hsame.node q hq, ← (h.made d₁ hsame).2.node q hq]
    rcases htended.node q (fun hno => hno) with hkept | hdir | ⟨id, hsome, s, hfind, hplace⟩
    · exact .inl hkept
    · exact .inr (.inl hdir)
    · rw [h.foundMade d₁ hsame] at hfind
      exact .inr (.inr ⟨id, hsome, s, hfind, hplace⟩)

/-- An entry can be stored for the same parts. -/
theorem canStore_eq (h : c.Beside region d) (hsame : d.SameBut region d₁) (id : PartId) :
    c.canStore d₁ id = c.canStore d id := by
  have hfind := h.foundMade d₁ hsame id
  obtain ⟨hfault, -⟩ := h.made d₁ hsame
  unfold canStore stored
  rcases hmake : d.makeDirs c.dir with ⟨_ | fault, made⟩
  · rcases hmake₁ : d₁.makeDirs c.dir with ⟨_ | fault₁, made₁⟩
    · rw [hmake, hmake₁] at hfind
      dsimp only at hfind ⊢
      unfold Disk.replace
      rw [hfind]
      rcases made.find false (c.entryPath id) with _ | (⟨_, _ | _ | _⟩ | _) <;> rfl
    · simp [hmake, hmake₁] at hfault
  · rcases hmake₁ : d₁.makeDirs c.dir with ⟨_ | fault₁, made₁⟩
    · simp [hmake, hmake₁] at hfault
    · rfl

theorem plain (h : c.Beside region d) (hsame : d.SameBut region d₁) (hplain : c.Plain d) :
    c.Plain d₁ := by
  have hmade {id : PartId} {place : Place} {n : Node}
      (hfind : (d₁.makeDirs c.dir).2.find false (c.entryPath id) = .ok (.taken place n)) :
      d.find false (c.entryPath id) = .ok (.taken place n) := by
    rw [h.foundMade d₁ hsame] at hfind
    exact hplain.unveiled id place n hfind
  have hunlinked : c.Unlinked d₁ := by
    intro id place target hfind
    exact hplain.unlinked id place target (hmade ((d₁.makeDirs_extends c.dir).find hfind))
  refine ⟨hunlinked, fun id place n hfind => ?_⟩
  rw [← find_follow (hunlinked id), h.found d₁ hsame, find_follow (hplain.unlinked id)]
  exact hmade hfind

end Cache.Beside

theorem Disk.PlainWay.makeDirsFrom_congr {region : Place → Prop} {d d' : Disk} {p : Place}
    {names : List String} (h : d.PlainWay p names) (hsame : d.SameBut region d')
    (hout : ∀ front, front ≠ [] → front <+: names → ¬region (p ++ front)) :
    (d'.makeDirsFrom p names).1 = (d.makeDirsFrom p names).1 ∧
      (d.makeDirsFrom p names).2.SameBut region (d'.makeDirsFrom p names).2 := by
  induction names generalizing d d' p with
  | nil => exact ⟨rfl, hsame⟩
  | cons name rest ih =>
      obtain ⟨hdot, hup, hlink⟩ := h.head
      have hself := hout [name] (by simp) (by simp)
      have hnext (front : List String) (hne : front ≠ []) (hfront : front <+: rest) :
          ¬region (p ++ [name] ++ front) := by
        rw [List.append_assoc]
        exact hout (name :: front) (by simp) (List.cons_prefix_cons.mpr ⟨rfl, hfront⟩)
      have hone : d.PlainWay p [name] := by
        refine ⟨fun x hx => h.plain x (by simp_all), fun front hne hfront => h.links front hne ?_⟩
        exact hfront.trans (by simp)
      have hwalk : d'.walk true linkLimit p [name] = d.walk true linkLimit p [name] := by
        apply hone.walk_congr
        intro front hne hfront
        exact hsame.node _ (hout front hne (hfront.trans (by simp)))
      rw [makeDirsFrom, makeDirsFrom, hwalk]
      cases hstep : d.walk true linkLimit p [name] with
      | error fault => exact ⟨rfl, hsame⟩
      | ok s =>
          obtain ⟨hplace, -⟩ := walk_last_name hdot hup (fun _ => hlink) hstep
          cases s with
          | taken next n =>
              obtain rfl : next = p ++ [name] := hplace
              cases n with
              | dir => exact ih h.tail hsame hnext
              | file content => exact ⟨rfl, hsame⟩
              | link target => exact ⟨rfl, hsame⟩
          | free next =>
              obtain rfl : next = p ++ [name] := hplace
              dsimp only
              rw [if_pos rfl, if_pos rfl]
              refine ih ⟨h.tail.plain, fun front hne hfront => ?_⟩ ⟨hsame.here,
                fun q hq => ?_⟩ hnext
              · refine (h.tail.links front hne hfront).congr ?_
                rw [node?_put (by simp), if_neg (by simpa using hne)]
              · rw [node?_put (by simp), node?_put (by simp), hsame.node q hq]

/-- The file of an entry is found in the same way where the same stands along a plain way to it. -/
theorem Cache.find_entryPath_congr {c : Cache} {d d' : Disk} {id : PartId}
    (hway : d.PlainWay (d.origin c.dir) (c.dir.names ++ [entryName id])) (hhere : d'.here = d.here)
    (hsame : ∀ front, front ≠ [] → front <+: c.dir.names ++ [entryName id] →
      d'.node? (d.origin c.dir ++ front) = d.node? (d.origin c.dir ++ front)) (follow : Bool) :
    d'.find follow (c.entryPath id) = d.find follow (c.entryPath id) := by
  have hstart' := start_congr hhere (c.entryPath id)
  cases hstart : d.start (c.entryPath id) with
  | error fault => rw [find_of_no_start hstart, find_of_no_start (hstart'.trans hstart)]
  | ok origin =>
      have horigin : origin = d.origin c.dir := by
        rw [start_eq hstart, Disk.origin, Disk.origin]
        exact congrArg (fun b : Bool => if b then [] else d.here)
          (Path.isAbsolute_join (entryName_isPiece id) c.dir)
      have hsteps : (c.entryPath id).steps = c.dir.names ++ [entryName id] :=
        Path.steps_join (entryName_isPiece id) c.dir
      rw [find_of_start hstart, find_of_start (hstart'.trans hstart), horigin, hsteps]
      exact hway.walk_congr hsame _ _

/-- On a disk without links, a cache directory that is not inside of a place is beside all that
stands at and below that place, unless an entry would stand right there. -/
theorem Cache.beside_of_linkless {c : Cache} {d : Disk} {place : Place} (hlinks : ∀ q, d.NoLink q)
    (hsteps : c.dir.steps = c.dir.names) (hplain : ∀ name ∈ c.dir.names, name ≠ "." ∧ name ≠ "..")
    (hdir : ¬place <+: d.origin c.dir ++ c.dir.names)
    (hentry : ∀ id, place ≠ d.origin c.dir ++ c.dir.names ++ [entryName id]) :
    c.Beside (place <+: ·) d := by
  have hway (id : PartId) {e : Disk} (he : ∀ q, e.node? q = d.node? q ∨ e.node? q = some .dir) :
      e.PlainWay (d.origin c.dir) (c.dir.names ++ [entryName id]) := by
    refine ⟨fun name hname => ?_, fun front _ _ => ?_⟩
    · rcases List.mem_append.mp hname with hname | hname
      · exact hplain name hname
      · obtain rfl := List.mem_singleton.mp hname
        exact ⟨entryName_ne_dot id, entryName_ne_up id⟩
    · rcases he (d.origin c.dir ++ front) with hsame | hmade
      · exact (hlinks _).congr hsame
      · exact noLink_of_dir hmade
  have hout (id : PartId) (front : List String) (hfront : front <+: c.dir.names ++ [entryName id]) :
      ¬place <+: d.origin c.dir ++ front := by
    intro hp
    have hwhole := hp.trans ((List.prefix_append_right_inj _).mpr hfront)
    rw [← List.append_assoc] at hwhole
    rcases List.prefix_concat_iff.mp hwhole with hself | hinside
    · exact hentry id hself
    · exact hdir hinside
  have hmade (d₁ : Disk) (hsame : d.SameBut (place <+: ·) d₁) :
      (d₁.makeDirs c.dir).1 = (d.makeDirs c.dir).1 ∧
        (d.makeDirs c.dir).2.SameBut (place <+: ·) (d₁.makeDirs c.dir).2 := by
    unfold Disk.makeDirs
    rw [start_congr hsame.here]
    split
    · exact ⟨rfl, hsame⟩
    · cases hstart : d.start c.dir with
      | error fault => exact ⟨rfl, hsame⟩
      | ok origin =>
          dsimp only
          rw [hsteps, start_eq hstart]
          refine PlainWay.makeDirsFrom_congr ⟨hplain, fun front _ _ => hlinks _⟩ hsame ?_
          exact fun front _ hfront hp =>
            hdir (hp.trans ((List.prefix_append_right_inj _).mpr hfront))
  have hfind {e e₁ : Disk} (he : ∀ q, e.node? q = d.node? q ∨ e.node? q = some .dir)
      (hhere : e.here = d.here) (hsame : e.SameBut (place <+: ·) e₁) (follow : Bool) (id : PartId) :
      e₁.find follow (c.entryPath id) = e.find follow (c.entryPath id) := by
    have horigin : e.origin c.dir = d.origin c.dir := by rw [Disk.origin, Disk.origin, hhere]
    apply Cache.find_entryPath_congr (horigin ▸ hway id he) hsame.here
    intro front _ hfront
    rw [horigin]
    exact hsame.node _ (hout id front hfront)
  refine ⟨fun d₁ hsame id => hfind (fun _ => .inl rfl) rfl hsame true id, hmade,
    fun d₁ hsame id => ?_⟩
  refine hfind (fun q => ?_) (d.makeDirs_extends c.dir).here (hmade d₁ hsame).2 false id
  exact (d.node?_makeDirs c.dir q).imp (fun h => h) And.right

/-! ## Whole runs -/

/-- What stands in the state directory and what the installer puts there is all that it changes. -/
theorem Packages.prepare_within {p : Packages} {s : StateDir} {d₀ : Disk}
    (hstate : p.stateDir = s.root.join ".partfetch") (hreach : s.Reached d₀)
    (hwanted : ∀ dep ∈ p.wanted, Manifest.isPackageName dep.name = true) :
    (Workflow.prepare p.installer).Keeps (World.Within (s.Holds d₀)) :=
  Workflow.prepare_keeps p.missing_keeps
    ((Packages.installMissing_within hstate hreach hwanted).mapError _)

/-- What a run over targets did to a cache. Its lookups were for parts that the targets list, and
what one of them stored was answered, under an open gate, to the one request that it sent. Outside
of a region the disk differs by what was stored last, so entries of other parts are as before. What
loaded before loads, if what was stored reads back. -/
structure Cache.Kept (c : Cache) (catalog : Catalog) (targets : List BuildTarget)
    (region : Place → Prop) (lookups : List Lookup) (d d' : Disk) : Prop where
  listed : ∀ l ∈ lookups, ∃ t ∈ targets, l.id ∈ t.parts
  answered : ∀ l ∈ lookups, ∀ a, l.stored? = some a → l.seen.offline = false ∧ a.partId = l.id ∧
    catalog.answer? l.seen.requests.length l.id = some a.payload ∧
      ∃ request, catalog.Queries l.id request ∧ l.sent = [request]
  only : c.OnlyStored region (lastStored lookups) d d'
  unlisted : ∀ id, (∀ t ∈ targets, id ∉ t.parts) → c.entry? d' id = c.entry? d id ∨
    c.entry? d id = none ∧ c.entry? d' id = c.entry? (d.makeDirs c.dir).2 id
  loads : (∀ l ∈ lookups, ∀ a, l.stored? = some a → CachedArtifact.parse a.render = some a) →
    ∀ id a, c.load d id = .ok a → c.load d' id = .ok ((lastStored lookups id).getD a)

theorem Cache.OnlyStored.kept {c : Cache} {catalog : Catalog} {targets : List BuildTarget}
    {region : Place → Prop} {lookups : List Lookup} {d d' : Disk} {w last : World}
    (honly : c.OnlyStored region (lastStored lookups) d d')
    (hlookups : Lookups ⟨c, catalog.fetchPart⟩ w lookups last)
    (hlisted : ∀ l ∈ lookups, ∃ t ∈ targets, l.id ∈ t.parts) :
    c.Kept catalog targets region lookups d d' where
  listed := hlisted
  answered l hl a ha := by
    have hlookup := hlookups.eq_lookup l hl
    rw [hlookup] at ha
    have hstored := Resolver.lookup_stored ha
    rwa [← hlookup] at hstored
  only := honly
  unlisted id hno := by
    refine honly.others id ?_
    cases hlast : lastStored lookups id with
    | none => rfl
    | some a =>
        obtain ⟨l, hl, rfl, -⟩ := exists_lookup_of_lastStored hlast
        obtain ⟨t, ht, hpart⟩ := hlisted l hl
        exact absurd hpart (hno t ht)
  loads hread id a hload := by
    refine honly.load (fun other b hb => ?_) hload
    obtain ⟨l, hl, -, hstored⟩ := exists_lookup_of_lastStored hb
    exact hread l hl b hstored

/-- No run loses what the cache has: neither a build, nor fetching with packages that are installed
into a state directory beside the cache, whatever of it fails. -/
theorem Workflow.runs_keep_entries {c : Cache} (catalog : Catalog) (targets : List BuildTarget)
    {w : World} (hlinks : c.Unlinked (w.disk.makeDirs c.dir).2) :
    let r : Resolver := ⟨c, catalog.fetchPart⟩
    (∀ ε : Type,
      let out := (buildTargets targets r.work w : Except ε Report × World).2
      Lookups r w (r.tour targets w) out ∧
        c.Kept catalog targets (fun _ => False) (r.tour targets w) w.disk out.disk) ∧
    ∀ (p : Packages) (s : StateDir), p.stateDir = s.root.join ".partfetch" →
      (∀ dep ∈ p.wanted, Manifest.isPackageName dep.name = true) →
      s.Reached w.disk → s.Holds w.disk w.disk → c.Beside (s.place <+: ·) w.disk →
      let ready := (prepare p.installer { w with offline := false }).2
      let lookups := tour p.installer targets r w
      let out := (fetchMissingParts p.installer targets r.work w).2
      (∃ last, Lookups r ready lookups last ∧ out = { last with offline := w.offline }) ∧
        c.Kept catalog targets (s.place <+: ·) lookups w.disk out.disk := by
  intro r
  constructor
  · intro ε out
    have hlookups : Lookups r w (r.tour targets w) out := by
      have hout : out = (Fanout.run BuildTarget.name r.work targets w : Except ε _ × World).2 := by
        rw [← congrArg Prod.snd (buildTargets_run targets r.work w)]
      rw [hout]
      exact r.tour_lookups targets w
    refine ⟨hlookups, ?_⟩
    apply (hlookups.tended hlinks).toOnlyStored.kept hlookups
    intro l hl
    exact r.id_mem_of_tour hl
  · intro p s hstate hwanted hreach hholds hbeside ready lookups out
    obtain ⟨last, hlookups, hout⟩ := fetchMissingParts_lookups p.installer targets r w
    refine ⟨⟨last, hlookups, hout⟩, ?_⟩
    have hready := Packages.prepare_within hstate hreach hwanted { w with offline := false }
    have hsame := (hready.disk hholds).same
    have htended := hlookups.tended (hbeside.unlinked hsame hlinks)
    have hdisk := congrArg World.disk hout
    rw [show out.disk = last.disk from hdisk]
    apply (hbeside.onlyStored hsame hlinks htended).kept hlookups
    intro l hl
    exact id_mem_of_tour p.installer targets r w hl

/-- An entry that no target lists stays, through a build that stores another one and through
fetching that fails to install a package. -/
theorem Workflow.runs_keep_entry_of_unlisted :
    let text := "part_id: C1\nfetched_at: 2024-01-02T03:04:05Z\npayload: null\n"
    let d : Disk := ⟨[(["c"], .dir), (["c", "C1.yaml"], .file text.toUTF8), (["p"], .dir)], []⟩
    let w : World := ⟨d, false, fun _ => ⟨0, 0⟩, Listing.asStored, []⟩
    let c : Cache := ⟨⟨"/c"⟩, Freshness.never⟩
    let catalog : Catalog := ⟨"http://depot", fun _ => true, fun _ _ => .answer 200 "{}".toUTF8⟩
    let r : Resolver := ⟨c, catalog.fetchPart⟩
    let p : Packages := ⟨[⟨"a", "1.0.0"⟩], ⟨"/p/.partfetch"⟩, catalog⟩
    let kept : PartId := ⟨"C1", by decide, by decide⟩
    let targets : List BuildTarget := [⟨"app", none, [⟨"C2", by decide, by decide⟩]⟩]
    c.entry? (buildTargets targets r.work w : Except Empty Report × World).2.disk kept =
      some text.toUTF8 ∧
      c.entry? (fetchMissingParts p.installer targets r.work w).2.disk kept = some text.toUTF8 := by
  intro text d w c catalog r p kept targets
  let s : StateDir := ⟨⟨"/p"⟩, ["p"]⟩
  have hlinks : ∀ q, d.NoLink q := Disk.noLink_of_nodes (by simp [d])
  have hreach : s.Reached d := by
    refine StateDir.reached_of_standing (by decide +kernel) (by decide +kernel)
      fun front hne hfront => ?_
    have hname : s.root.names = ["p"] := by decide +kernel
    rw [hname, List.prefix_cons_iff] at hfront
    obtain rfl | ⟨_, rfl, hnil⟩ := hfront
    · exact absurd rfl hne
    · obtain rfl := List.prefix_nil.mp hnil
      decide +kernel
  have hbeside : c.Beside (s.place <+: ·) d := by
    apply Cache.beside_of_linkless hlinks
    · decide +kernel
    · decide +kernel
    · decide +kernel
    · intro id hself
      have hcache : d.origin c.dir ++ c.dir.names = ["c"] := by decide +kernel
      rw [hcache] at hself
      exact absurd (List.cons.inj hself).1 (by decide)
  have hentry : c.entry? d kept = some text.toUTF8 := by decide +kernel
  have hunlisted : ∀ t ∈ targets, kept ∉ t.parts := by decide
  have hstate : p.stateDir = s.root.join ".partfetch" := by decide +kernel
  have hwanted : ∀ dep ∈ p.wanted, Manifest.isPackageName dep.name = true := by decide +kernel
  have hdisk : w.disk = d := rfl
  -- What these values are is not needed any more, and would be evaluated again.
  clear_value text targets s p kept w c d catalog
  subst hdisk
  have hkept {region : Place → Prop} {lookups : List Lookup} {d' : Disk}
      (h : c.Kept catalog targets region lookups w.disk d') :
      c.entry? d' kept = some text.toUTF8 := by
    rcases h.unlisted kept hunlisted with hsame | ⟨hnone, -⟩
    · exact hsame.trans hentry
    · simp [hentry] at hnone
  obtain ⟨hbuild, hfetch⟩ :=
    runs_keep_entries catalog targets (Cache.unlinked_of_linkless (c := c) hlinks)
  obtain ⟨-, hfetch⟩ :=
    hfetch p s hstate hwanted hreach ⟨.refl _ _, hlinks _, hlinks _, hlinks _⟩ hbeside
  exact ⟨hkept (hbuild Empty).2, hkept hfetch⟩

end PartDepot
