import PartDepot.Project
import PartDepot.Proofs.StateDir
import PartDepot.Proofs.Stores

/-!
# Projects and their caches

A project and a cache are apart if installing packages does not get into the cache, and neither
this nor storing entries makes the user point at another project.  Then the state directory of
the project is where the installer works.
-/

namespace PartDepot

open Disk

theorem Manifest.isPackageName_of_parse {text : String} {path : Path} {m : Manifest}
    (h : parse text path = .ok m) : ∀ dep ∈ m.dependencies, isPackageName dep.name = true := by
  intro dep hdep
  unfold parse at h
  split at h
  · simp at h
  · split at h
    · simp at h
    · next m' _ _ hflaw =>
      obtain rfl := Except.ok.inj h
      have hnone : dependencyFlaw? dep = none := by
        unfold flaw? at hflaw
        split at hflaw
        · simp at hflaw
        · exact List.findSome?_eq_none_iff.mp hflaw dep hdep
      unfold dependencyFlaw? at hnone
      split at hnone
      · simp at hnone
      · next hname => simpa using hname

namespace Project

theorem discover_eq_ok_iff {d : Disk} {entry : Option String} {p : Project} :
    discover d entry = .ok p ↔ findRoot d (start d entry) = .ok p.root ∧
      ∃ text, d.readText (p.root.join fileName) = .ok text ∧
        Manifest.parse text (p.root.join fileName) = .ok p.manifest := by
  unfold discover
  cases hroot : findRoot d (start d entry) with
  | error e => simp [bind, Except.bind]
  | ok root =>
      have hbind : (Except.ok root >>= fun root => load d root) = load d root := rfl
      rw [hbind]
      unfold load
      dsimp only
      constructor
      · intro hload
        cases htext : d.readText (root.join fileName) with
        | error fault => simp [htext] at hload
        | ok text =>
            cases hparse : Manifest.parse text (root.join fileName) with
            | error e => simp [htext, hparse, Except.map] at hload
            | ok m =>
                rw [htext] at hload
                dsimp only at hload
                rw [hparse] at hload
                obtain rfl := Except.ok.inj hload
                exact ⟨rfl, text, htext, hparse⟩
      · rintro ⟨hsame, text, htext, hparse⟩
        obtain rfl : root = p.root := Except.ok.inj hsame
        rw [htext]
        dsimp only
        rw [hparse]
        rfl

theorem find_file_of_discover {d : Disk} {entry : Option String} {p : Project}
    (h : discover d entry = .ok p) : ∃ s, d.find true (p.root.join fileName) = .ok s := by
  obtain ⟨-, text, htext, -⟩ := discover_eq_ok_iff.mp h
  cases hfind : d.find true (p.root.join fileName) with
  | ok s => exact ⟨s, rfl⟩
  | error fault => simp [readText, Disk.read, hfind, bind, Except.bind] at htext

theorem isPackageName_of_discover {d : Disk} {entry : Option String} {p : Project}
    (h : discover d entry = .ok p) :
    ∀ dep ∈ p.manifest.dependencies, Manifest.isPackageName dep.name = true := by
  obtain ⟨-, text, -, hparse⟩ := discover_eq_ok_iff.mp h
  exact Manifest.isPackageName_of_parse hparse

/-- The places at and below the state directory of a project. -/
def Owns (p : Project) (d : Disk) (q : Place) : Prop :=
  ∃ s, d.find false p.stateDir = .ok s ∧ s.place <+: q

/-- A project and a cache that are apart. What the installer puts right into the project is no link;
whatever is installed, no entry of the cache is a link to a directory; and whatever is installed and
stored, the user still points at this project. -/
structure Apart (p : Project) (entry : Option String) (c : Cache) (d : Disk) : Prop where
  unlinked : ∀ s, d.find false p.stateDir = .ok s →
    d.NoLink s.place ∧ d.NoLink (s.place ++ ["modules"]) ∧ d.NoLink (s.place ++ ["lock.yaml"])
  direct : ∀ d₁, d.SameBut (p.Owns d) d₁ → c.Direct (d₁.makeDirs c.dir).2
  found : ∀ d₁ d₂, d.SameBut (p.Owns d) d₁ → c.Filled d₁ d₂ → discover d₂ entry = .ok p

namespace Apart

variable {p : Project} {entry : Option String} {c : Cache} {d : Disk}

theorem discover_eq (h : p.Apart entry c d) : discover d entry = .ok p :=
  h.found d d (.refl _ d) (.refl c d)

/-- Where the project file is found, the state directory stands or can be made. -/
theorem exists_find_stateDir (h : p.Apart entry c d) :
    ∃ links home s, d.Enters linkLimit (d.origin p.root) p.root.names links home ∧
      d.find false p.stateDir = .ok s ∧ s.place = home ++ [".partfetch"] := by
  have hpiece : Path.IsPiece fileName := ⟨by decide, by decide⟩
  have hname : Path.IsPiece ".partfetch" := ⟨by decide, by decide⟩
  obtain ⟨t, hfile⟩ := find_file_of_discover h.discover_eq
  obtain ⟨links, home, henters⟩ := enters_of_find_join hpiece hfile
  cases hstart : d.start (p.root.join fileName) with
  | error fault => simp [find_of_no_start hstart] at hfile
  | ok place =>
      have hstart' := start_join_of_shorter hpiece hname (by decide) (by decide) hstart
      obtain ⟨s, hwalk⟩ := d.exists_walk_name (show ".partfetch" ≠ "." by decide)
        (by decide) (by decide) links home
      have hplace := walk_last_name (by decide) (by decide) (by simp) hwalk
      refine ⟨links, home, s, henters, ?_, hplace.1⟩
      exact (find_under henters (Path.under_join hname p.root) (by simp) hstart' false).trans hwalk

/-- The state directory of the project is where the installer works. -/
theorem exists_stateDir (h : p.Apart entry c d) :
    ∃ s : StateDir, s.root = p.root ∧ s.Reached d ∧ s.Holds d d ∧
      ∀ q, s.place <+: q → p.Owns d q := by
  obtain ⟨links, home, state, henters, hstate, hplace⟩ := h.exists_find_stateDir
  let s : StateDir := ⟨p.root, home⟩
  obtain ⟨hstateLink, hmodules, hlock⟩ := h.unlinked state hstate
  rw [hplace] at hstateLink hmodules hlock
  have howns (q : Place) (hq : s.place <+: q) : p.Owns d q := ⟨state, hstate, hplace ▸ hq⟩
  refine ⟨s, rfl, fun d' hsame => ?_, ⟨.refl _ d, hstateLink, hmodules, hlock⟩, howns⟩
  -- Without anything in the state directory the project would still be found, so its root leads to
  -- its home without a look into that directory.
  have hroot : s.place ≠ [] := by simp [s, StateDir.place]
  let bare := d.without s.place
  have hless {d₂ : Disk} (hrest : d.SameBut (s.place <+: ·) d₂) : bare.Extends d₂ := by
    refine hrest.toExtends (without_extends hroot) fun q hq => ?_
    rw [node?_without hroot, if_pos hq]
  have hsameBare : d.SameBut (p.Owns d) bare := (sameBut_without d hroot).mono howns
  obtain ⟨t', hfile'⟩ := find_file_of_discover (h.found bare bare hsameBare (.refl c bare))
  obtain ⟨links', home', henters'⟩ := enters_of_find_join ⟨by decide, by decide⟩ hfile'
  have hhome : home' = home := ((hless (.refl _ d)).enters henters').unique henters
  have henters'' := (hless hsame).enters henters'
  rw [hhome] at henters''
  have horigin : d'.origin p.root = bare.origin p.root := by
    unfold origin
    rw [(hless hsame).here]
  refine ⟨links', ?_⟩
  rw [horigin]
  exact henters''

end Apart

end Project

end PartDepot
