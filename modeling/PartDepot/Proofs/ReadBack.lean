import PartDepot.Catalog
import PartDepot.Proofs.ArtifactText
import PartDepot.Proofs.Deciding
import PartDepot.Proofs.Recording

/-!
# What is saved is loaded

After an artifact is stored the cache loads it, and after a lock is saved its file says the same
with another date.  Both go by the text: the text that was written reads back as what was written,
and the file is found where it was put.  An entry of the cache may be a link to a directory that the
way to the cache leads through; a file in its place cuts that way off.
-/

namespace PartDepot

namespace Disk

variable {d : Disk} {p : Place}

/-- A walk past a new file is the same as before, or it ends at the file or fails there. -/
theorem walk_put_cases (hp : p ≠ []) (content : ByteArray) (follow : Bool) (links : Nat)
    (place : Place) (names : List String) :
    (d.put p (.file content)).walk follow links place names = d.walk follow links place names ∨
      (d.put p (.file content)).walk follow links place names = .ok (.taken p (.file content)) ∨
      ∃ fault, (d.put p (.file content)).walk follow links place names = .error fault := by
  refine walk_related (d.put p (.file content)) d follow follow
    (fun r r' => r = r' ∨ r = .ok (.taken p (.file content)) ∨ ∃ fault, r = .error fault)
    (fun _ => .inl rfl) (fun _ => .inl rfl) (fun place name rest => ?_) links place names
  rw [node?_put hp]
  by_cases hq : place ++ [name] = p
  · rw [if_pos hq, Stride.ofNode_file, hq]
    refine .broken fun _ => .inr ?_
    cases rest with
    | nil => exact .inl rfl
    | cons => exact .inr ⟨.notDirectory, rfl⟩
  · rw [if_neg hq]
    exact .same (fun _ => .inl rfl) rest _

theorem find_put_cases (hp : p ≠ []) (content : ByteArray) (follow : Bool) (path : Path) :
    (d.put p (.file content)).find follow path = d.find follow path ∨
      (d.put p (.file content)).find follow path = .ok (.taken p (.file content)) ∨
      ∃ fault, (d.put p (.file content)).find follow path = .error fault := by
  have hsame : (d.put p (.file content)).start path = d.start path := start_congr rfl path
  cases hstart : d.start path with
  | error fault => exact .inr (.inr ⟨fault, find_of_no_start (hsame.trans hstart) follow⟩)
  | ok origin =>
      rw [find_of_start hstart, find_of_start (hsame.trans hstart)]
      exact walk_put_cases hp content follow linkLimit origin path.steps

end Disk

namespace Cache

variable {c : Cache} {id : PartId} {a : CachedArtifact} {w w' : World}

/-- A file in the place of an entry is found as the entry, if anything is found. -/
theorem find_put_entry {d : Disk} {s : Disk.Spot} (hs : Replaceable d (c.entryPath id) s)
    (content : ByteArray) :
    (d.put s.place (.file content)).find true (c.entryPath id) =
      .ok (.taken s.place (.file content)) ∨
      ∃ fault, (d.put s.place (.file content)).find true (c.entryPath id) = .error fault := by
  have hroot : s.place ≠ [] := by
    intro hroot
    have hlast := (find_shows hs.1).last
    simp [hroot] at hlast
  have hlast : (d.put s.place (.file content)).find false (c.entryPath id) =
      .ok (.taken s.place (.file content)) ∨
        ∃ fault, (d.put s.place (.file content)).find false (c.entryPath id) = .error fault := by
    rcases Disk.find_put_cases hroot content false (c.entryPath id) with hsame | hcases
    · rw [hs.1] at hsame
      have hnode := (find_shows hsame).node
      rw [Disk.node?_put hroot, if_pos rfl] at hnode
      refine .inl (hsame.trans ?_)
      cases s with
      | free q => cases hnode
      | taken q n =>
          cases hnode
          rfl
    · exact hcases
  rw [Disk.find_follow]
  · exact hlast
  · intro q target hlink
    rcases hlast with hfile | ⟨fault, hfault⟩
    · simp [hlink] at hfile
    · simp [hlink] at hfault

theorem load_of_file {d : Disk} {q : Place} (ha : CachedArtifact.parse a.render = some a)
    (hfind : d.find true (c.entryPath id) = .ok (.taken q (.file a.render.toUTF8))) :
    c.load d id = .ok a := by
  rw [load_eq_ok_iff, artifact?, entry?, hfind]
  dsimp only
  rw [Option.bind_some, fromUTF8?_toUTF8, Option.bind_some, ha]

/-- What was stored is loaded wherever the entry can be read. -/
theorem load_of_store (ha : CachedArtifact.parse a.render = some a)
    (h : c.store id a w = (.ok (), w')) :
    (∀ text, w'.disk.readText (c.entryPath id) = .ok text → c.load w'.disk id = .ok a) ∧
      (c.Direct (w.disk.makeDirs c.dir).2 → c.load w'.disk id = .ok a) := by
  rw [store_apply] at h
  rcases c.stored_cases w.disk id a.render.toUTF8 with
    ⟨-, hnot, -⟩ | ⟨made, s, hmake, -, hs, -, hstored⟩
  · rw [hnot] at h
    cases h
  rw [hstored] at h
  cases h
  refine ⟨fun text htext => ?_, fun hdirect => ?_⟩
  · rcases find_put_entry hs a.render.toUTF8 with hfile | ⟨fault, hfault⟩
    · exact load_of_file ha hfile
    · rw [Disk.readText, Disk.read, hfault] at htext
      cases htext
  · rw [hmake] at hdirect
    exact load_of_file ha (hdirect.find_put_self hs _ true)

end Cache

namespace Lock

variable {l : Lock} {path : Path} {w w' : World}

theorem load_of_file {q : Place}
    (hfind : w.disk.find true path = .ok (.taken q (.file l.render.toUTF8))) :
    load path w = (.ok l, w) := by
  have hhas : w.disk.has path = true := by rw [Disk.has, hfind]
  have htext : w.disk.readText path = .ok l.render := by
    rw [Cache.readText_of_file hfind, Cache.fromUTF8?_toUTF8]
  unfold load
  rw [Act.look_bind, if_neg (by simp [hhas]), Act.bind_apply, Act.ask, htext]
  dsimp only
  rw [parse_render]
  rfl

theorem load_of_writeTo (h : l.writeTo path w = (.ok (), w')) :
    load path w' = (.ok { l with generated := (w.clock 0).withOffset }, w') := by
  obtain ⟨dated, hdated⟩ : ∃ dated : Lock,
    dated = { l with generated := (w.clock 0).withOffset } := ⟨_, rfl⟩
  have hrun : l.writeTo path w = Act.edit (fun d => d.write path dated.render.toUTF8)
      (fun f => .context s!"Failed to write {path.text}" (.refused f))
      { w with clock := fun n => w.clock (n + 1) } := by
    rw [hdated]
    rfl
  rw [← hdated]
  rw [hrun, Act.edit_apply] at h
  rcases hwrite : w.disk.write path dated.render.toUTF8 with ⟨_ | fault, d⟩
  · rw [hwrite] at h
    cases h
    obtain ⟨q, -, -, hfind⟩ := Disk.write_eq_none hwrite
    exact load_of_file hfind
  · rw [hwrite] at h
    cases h

/-- A lock that was saved is loaded with the date of its file. -/
theorem load_of_save (h : l.save path w = (.ok (), w')) :
    load path w' = (.ok { l with generated := (w.clock 0).withOffset }, w') := by
  obtain ⟨d, hwrite⟩ := writeTo_of_save h
  exact load_of_writeTo (w := { w with disk := d }) hwrite

end Lock

/-! ## Both files -/

theorem CatalogResponse.json_eq_ok_iff {r : CatalogResponse} {v : Json} :
    r.json = .ok v ↔ Json.parse r.body = some v := by
  unfold json
  cases Json.parse r.body <;> simp

/-- What is saved is what is loaded: an artifact, whatever its part is called and whatever the
catalog answered, and a lock, whatever texts its entries hold. -/
theorem loads_what_was_saved :
    (∀ (r : CatalogResponse) (a : CachedArtifact), r.json = .ok a.payload → a.fetchedAt.Valid →
      CachedArtifact.parse a.render = some a ∧
        ∀ (c : Cache) (id : PartId) (w w' : World), c.store id a w = (.ok (), w') →
          (∀ text, w'.disk.readText (c.entryPath id) = .ok text → c.load w'.disk id = .ok a) ∧
            (c.Direct (w.disk.makeDirs c.dir).2 → c.load w'.disk id = .ok a)) ∧
      ∀ (l : Lock) (path : Path) (w w' : World), l.save path w = (.ok (), w') →
        Lock.load path w' = (.ok { l with generated := (w.clock 0).withOffset }, w') := by
  refine ⟨fun r a hpayload htime => ?_, fun l path w w' => Lock.load_of_save⟩
  have hread := CatalogResponse.json_eq_ok_iff.mp hpayload
  have ha := CachedArtifact.parse_render htime (Json.fits_of_parse hread)
  exact ⟨ha, fun c id w w' => Cache.load_of_store ha⟩

/-- Texts that look like something else, nested and empty collections, a fraction, a leap second,
and a lock that names one package twice. -/
theorem loads_lookalikes :
    let r : CatalogResponse := ⟨"http://catalog/v1/parts/null", 200,
      "\x7b\"size\": 1e3, \"no\": \"~\", \"note\": \"a\\nb: c\", " ++
        "\"list\": [-7, [], \x7b\x7d, \"1e3\"]\x7d"⟩
    let payload : Json := .object [
      ("list", .array [.number (.whole (-7)), .array [], .object [], .string "1e3"]),
      ("no", .string "~"), ("note", .string "a\nb: c"),
      ("size", .number (.float ⟨false, 1000 * 2 ^ 43, -43, by decide⟩))]
    let a : CachedArtifact := ⟨⟨"null", by decide, by decide⟩, ⟨1483228799, 1_250_000_000⟩, payload⟩
    let c : Cache := ⟨⟨"/c"⟩, Freshness.never⟩
    let l : Lock :=
      ⟨"true", "", [⟨"- a", "0x1F", none, "# b"⟩, ⟨"- a", " 1.0\n", some "null", "\t"⟩]⟩
    let path : Path := ⟨"/s/lock.yaml"⟩
    let w : World := ⟨⟨[], []⟩, false, fun _ => ⟨0, 0⟩, Listing.asStored, []⟩
    r.json = .ok payload ∧ a.fetchedAt.Valid ∧ c.Direct (w.disk.makeDirs c.dir).2 ∧
      (∃ w', c.store a.partId a w = (.ok (), w') ∧ c.load w'.disk a.partId = .ok a) ∧
      ∃ w', l.save path w = (.ok (), w') ∧
        Lock.load path w' = (.ok { l with generated := "1970-01-01T00:00:00+00:00" }, w') := by
  intro r payload a c l path w
  have hparse : Json.parse r.body = some payload := by decide +kernel
  have hpayload : r.json = .ok payload := CatalogResponse.json_eq_ok_iff.mpr hparse
  have htime : a.fetchedAt.Valid := by decide +kernel
  have hlinkless : ∀ q target, w.disk.node? q ≠ some (.link target) := by
    intro q target hq
    have hne : q ≠ [] := by
      rintro rfl
      simp [Disk.node?] at hq
    simpa [w] using Disk.mem_nodes_of_node? hne hq
  have hdirect : c.Direct (w.disk.makeDirs c.dir).2 := fun id place target hlink =>
    absurd hlink (Cache.unlinked_of_linkless hlinkless id place target)
  have hcan : c.canStore w.disk a.partId = true := by decide +kernel
  have hsave : (l.save path w).1.toOption = some () := by decide +kernel
  have hclock : (w.clock 0).withOffset = "1970-01-01T00:00:00+00:00" := by decide +kernel
  obtain ⟨hartifact, hlock⟩ := loads_what_was_saved
  -- What these values are is not needed any more, and would be evaluated again.
  clear_value w path l c
  refine ⟨hpayload, htime, hdirect, ?_, ?_⟩
  · rcases hstored : c.store a.partId a w with ⟨result, w'⟩
    have hok := Cache.store_eq_ok_iff (a := a) (w := w) |>.mpr hcan
    rw [hstored] at hok
    cases hok
    exact ⟨w', rfl, ((hartifact r a hpayload htime).2 c a.partId w w' hstored).2 hdirect⟩
  · rcases hsaved : l.save path w with ⟨_ | _, w'⟩
    · rw [hsaved] at hsave
      cases hsave
    · rw [← hclock]
      exact ⟨w', rfl, hlock l path w w' hsaved⟩

end PartDepot
