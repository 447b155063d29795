import PartDepot.Proofs.Keeping
import PartDepot.Proofs.OpenGate

/-!
# Projects that spare a cache

Fetching installs packages before it looks at the cache. Where nothing that the installer does is to
be seen there, the cache offers afterwards what it offered before.
-/

namespace PartDepot

open Disk

/-- The installer works in the state directory of the project, and nothing that it does
there is to be seen in the cache. -/
def Project.Spares (project : Project) (c : Cache) (d : Disk) : Prop :=
  ∃ s : StateDir, s.root = project.root ∧ s.Reached d ∧ s.Holds d d ∧ c.Beside (s.place <+: ·) d

namespace Project

/-- After the installation the cache offers what it offered before. -/
theorem Spares.offers {project : Project} {c : Cache} {w : World} (h : project.Spares c w.disk)
    (hplain : c.Plain w.disk) {p : Packages} (hplace : p.stateDir = project.stateDir)
    (hnames : ∀ dep ∈ p.wanted, Manifest.isPackageName dep.name = true) (catalog : Catalog) :
    w.Offers c catalog (Workflow.prepare p.installer w).2 := by
  obtain ⟨s, hroot, hreach, hholds, hbeside⟩ := h
  have hstate : p.stateDir = s.root.join ".partfetch" := by rw [hplace, stateDir, hroot]
  have hready := Packages.prepare_within hstate hreach hnames w
  have hsame := (hready.disk hholds).same
  exact ⟨fun _ => hbeside.plain hsame hplain, p.prepare_sameGate w, hbeside.canStore_eq hsame,
    fun id => .inl (hbeside.entry?_eq hsame id)⟩

end Project

namespace Disk

/-- A disk is in use if whatever is above a place where something stands, or above the place
of work, stands itself. -/
theorem rooted_of_standing {d : Disk}
    (hnodes : ∀ x ∈ d.nodes, ∀ k ≤ x.1.length, (d.node? (x.1.take k)).isSome = true)
    (hhere : ∀ k ≤ d.here.length, (d.node? (d.here.take k)).isSome = true) : d.Rooted := by
  intro b hnone
  have habove {q : Place} (hstands : ∀ k ≤ q.length, (d.node? (q.take k)).isSome = true) :
      ¬b <+: q := by
    intro hp
    have hb := hstands b.length hp.length_le
    rw [← List.prefix_iff_eq_take.mp hp, hnone] at hb
    simp at hb
  refine ⟨fun q hp => ?_, habove hhere⟩
  by_cases hq : q = []
  · subst hq
    obtain rfl := List.prefix_nil.mp hp
    exact hnone
  · cases hnode : d.node? q with
    | none => rfl
    | some n => exact absurd hp (habove (hnodes _ (mem_nodes_of_node? hq hnode)))

end Disk

/-- On a disk without links, nothing comes to light in a cache when its directory is made. -/
theorem Cache.Outside.plainCache {c : Cache} {d : Disk} {home : Place} (h : c.Outside d home)
    (hrooted : d.Rooted) : c.Plain d := by
  refine ⟨fun id place target hfind => h.links place target (find_shows hfind).node,
    fun id place n hfind => ?_⟩
  have hway := h.plainWay_entry (.refl _ d) id
  have hhere := (d.makeDirs_extends c.dir).here
  have horigin : (d.makeDirs c.dir).2.origin c.dir = d.origin c.dir := by
    unfold origin
    rw [hhere]
  have hwalk := walk_of_find_join (entryName_isPiece id) hfind
  rw [horigin] at hwalk
  obtain ⟨-, hmade⟩ := hway.place (by simp) hwalk
  -- The directories that are made are not above an entry that stands.
  have hstands : d.node? (d.origin c.dir ++ (c.dir.names ++ [entryName id])) ≠ none := by
    intro hnone
    rcases d.node?_makeDirs c.dir (d.origin c.dir ++ (c.dir.names ++ [entryName id])) with
      hsame | ⟨-, hdir⟩
    · rw [hmade, hnone] at hsame
      simp [Spot.node?] at hsame
    · have hprefix := h.prefix_of_made (.refl _ d) hnone hdir
      have hlength := hprefix.length_le
      simp only [List.length_append, List.length_singleton] at hlength
      omega
  have hsame (front : List String) (hfront : front <+: c.dir.names ++ [entryName id]) :
      (d.makeDirs c.dir).2.node? (d.origin c.dir ++ front) = d.node? (d.origin c.dir ++ front) := by
    rcases d.node?_makeDirs c.dir (d.origin c.dir ++ front) with hsame | ⟨hnone, -⟩
    · exact hsame
    · have hbelow := (hrooted _ hnone).1 _ ((List.prefix_append_right_inj _).mpr hfront)
      exact absurd hbelow hstands
  rw [← hfind]
  apply Cache.find_entryPath_congr (horigin.symm ▸ hway) hhere.symm
  intro front _ hfront
  rw [horigin]
  exact (hsame front hfront).symm

/-- On a disk without links, a project spares a cache that is outside of it. -/
theorem Project.spares_of_outside {p : Project} {entry : Option String} {c : Cache} {d : Disk}
    (h : c.Outside d (d.along p.root)) (hstraight : ".." ∉ (aim d entry).names)
    (hclear : ¬d.along p.root ++ [".partfetch"] <+: d.along (aim d entry))
    (hproject : discover d entry = .ok p) : p.Spares c d := by
  obtain ⟨s, hroot, hreach, hholds, howns⟩ :=
    (apart_of_outside h hstraight hclear hproject).exists_stateDir
  have hinside : d.along p.root ++ [".partfetch"] <+: s.place :=
    (howns _ (List.prefix_refl _)).below h (straight_of_discover hproject hstraight)
  refine ⟨s, hroot, hreach, hholds, ?_⟩
  apply Cache.beside_of_linkless h.links h.steps h.plain
  · intro hp
    exact h.apart ((List.prefix_append _ _).trans (hinside.trans hp))
  · intro id hself
    exact h.not_home_prefix_entry id (hself ▸ hinside)

end PartDepot
