import PartDepot.Proofs.Installing

/-!
# Extractions that fail

An extraction that fails may cost the package that it was to replace, or every package if the dot
was to be extracted.  Nothing else is lost, and nothing is left behind.
-/

namespace PartDepot

open Disk

namespace Packages

variable {p : Packages} {d d' made : Disk} {home : Place} {tmp name : String}

/-- Some packages are gone with all that was in them; the rest of the disk is as it was. -/
structure Loses (p : Packages) (gone : String → Prop) (d d' : Disk) : Prop where
  here : d'.here = d.here
  lost : ∀ home, d.Leads p.modulesDir home → ∀ name, gone name → ∀ rest,
    d'.node? (home ++ [name] ++ rest) = none
  kept : ∀ q, (∀ home name, d.Leads p.modulesDir home → gone name → ¬home ++ [name] <+: q) →
    d'.node? q = d.node? q

theorem Loses.of_same (h : d.SameBut (fun _ => False) d') : p.Loses (fun _ => False) d d' :=
  ⟨h.here, fun _ _ _ hgone => hgone.elim, fun q _ => h.node q id⟩

theorem Loses.of_one (hleads : d.Leads p.modulesDir home) (hhere : d'.here = d.here)
    (h : ∀ q, d'.node? q = if home ++ [name] <+: q then none else d.node? q) :
    p.Loses (· = name) d d' := by
  refine ⟨hhere, ?_, fun q hq => ?_⟩
  · rintro home' hleads' _ rfl rest
    obtain rfl := hleads'.unique hleads
    rw [h, if_pos (List.prefix_append _ _)]
  · rw [h, if_neg (hq home name hleads rfl)]

theorem Loses.of_all (hleads : d.Leads p.modulesDir home)
    (h : (d.eraseBelow home).SameBut (fun _ => False) d') : p.Loses (fun _ => True) d d' := by
  refine ⟨h.here, fun home' hleads' name _ rest => ?_, fun q hq => ?_⟩
  · obtain rfl := hleads'.unique hleads
    rw [h.node _ id, node?_eraseBelow, if_pos (below_of_name (List.prefix_append _ rest))]
  · rw [h.node q id, node?_eraseBelow, if_neg]
    rintro ⟨⟨rest, rfl⟩, hne⟩
    cases rest with
    | nil => exact hne (List.append_nil home)
    | cons name rest => exact hq home name hleads trivial ⟨rest, by simp⟩

/-- Nothing is below a link among the packages. -/
def Bounded (p : Packages) (d : Disk) : Prop :=
  ∀ home, d.Leads p.modulesDir home → ∀ name target,
    d.node? (home ++ [name]) = some (.link target) →
    ∀ q, home ++ [name] <+: q → q ≠ home ++ [name] → d.node? q = none

/-- The directory for unpacking is removed from any disk on which it stands or nothing is
left of it. -/
theorem Stage.node?_removed (h : p.Stage made home tmp) (hhere : d'.here = made.here)
    (hleads : d'.Leads p.modulesDir home)
    (htmp : d'.node? (home ++ [tmp]) = some .dir ∨ ∀ q, home ++ [tmp] <+: q → d'.node? q = none)
    (q : Place) : (d'.removeTree (p.modulesDir.join tmp)).2.node? q =
      if home ++ [tmp] <+: q then none else d'.node? q := by
  rcases htmp with hdir | hnone
  · rw [h.removeTree hhere hleads hdir, node?_without (by simp)]
  · rcases h.node?_removeTree (.refl d') hleads q with hsame | ⟨hq, hgone⟩
    · rw [hsame]
      split
      · next hq => exact hnone q hq
      · rfl
    · rw [hgone, if_pos hq]

section Cleared

variable {archive : ByteArray} {child : String} {nodes : List (Place × Node)}
  (h : p.Opened archive made d home tmp child nodes)

include h

/-- The way to the packages does not lead through any of them. -/
theorem Opened.leads_of_direct (hdirect : p.Direct made)
    (hless : d.SameBut (home ++ [name] <+: ·) d') :
    d'.Leads p.modulesDir home := by
  have hopened : made.SameBut (home ++ [tmp] <+: ·) d :=
    ⟨h.extends_made.here, fun _ => h.node?_outside⟩
  have hchanged := (hopened.mono fun _ => below_of_name).trans (hless.mono fun _ => below_of_name)
  exact hchanged.eraseBelow_extends.leads (hdirect home h.stage.leads)

variable (hclear : made.Clear (home ++ [tmp]))

include hclear

theorem Opened.loses_nothing (hleads : d'.Leads p.modulesDir home)
    (htmp : d'.node? (home ++ [tmp]) = some .dir ∨ ∀ q, home ++ [tmp] <+: q → d'.node? q = none)
    (hsame : d.SameBut (home ++ [tmp] <+: ·) d') :
    p.Loses (fun _ => False) made (d'.removeTree (p.modulesDir.join tmp)).2 := by
  have hhere := hsame.here.trans h.extends_made.here
  refine .of_same ⟨(d'.here_removeTree _).trans hhere, fun q _ => ?_⟩
  rw [h.stage.node?_removed hhere hleads htmp]
  split
  · next hq => exact ((hclear h.stage.node?_eq_none).1 q hq).symm
  · next hq => rw [hsame.node q hq, h.node?_outside hq]

theorem Opened.loses_one (hleads : d'.Leads p.modulesDir home) (hne : name ≠ tmp)
    (hless : d.SameBut (home ++ [name] <+: ·) d')
    (hgone : ∀ q, home ++ [name] <+: q → ¬home ++ [tmp] <+: q → d'.node? q = none) :
    p.Loses (· = name) made (d'.removeTree (p.modulesDir.join tmp)).2 := by
  have hhere := hless.here.trans h.extends_made.here
  have htmp : d'.node? (home ++ [tmp]) = some .dir := by
    rw [hless.node _ (by simpa using hne), h.node?_tmp]
  refine .of_one h.stage.leads ((d'.here_removeTree _).trans hhere) fun q => ?_
  rw [h.stage.node?_removed hhere hleads (.inl htmp)]
  by_cases hq : home ++ [name] <+: q
  · have hapart : ¬home ++ [tmp] <+: q := by
      obtain ⟨rest, rfl⟩ := hq
      simpa using Ne.symm hne
    rw [if_pos hq, if_neg hapart, hgone q hq hapart]
  · rw [if_neg hq]
    split
    · next hq' => exact ((hclear h.stage.node?_eq_none).1 q hq').symm
    · next hq' => rw [hless.node q hq, h.node?_outside hq']

/-- What is lost once the place of a package was cleared and the directory for unpacking removed. -/
theorem Opened.loses (hdirect : p.Direct made) (hbounded : p.Bounded made)
    (hcleared : d' = d ∨ d.Cleared (p.installPath name) (home ++ [name]) d') :
    ∃ gone, p.Loses gone made (d'.removeTree (p.modulesDir.join tmp)).2 := by
  have hkept := h.loses_nothing hclear h.leads (.inl h.node?_tmp) (.refl _ d)
  rcases hcleared with rfl | hcleared
  · exact ⟨_, hkept⟩
  have hless := hcleared.sameBut (by simp)
  have hway := h.leads_of_direct hdirect hless
  by_cases hself : name = tmp
  · subst hself
    exact ⟨_, h.loses_nothing hclear hway (hcleared.dir_or_gone (by simp) h.node?_tmp) hless⟩
  cases hcleared with
  | absent _ => exact ⟨_, hkept⟩
  | dir _ =>
      refine ⟨_, h.loses_one hclear hway hself hless fun q hq _ => ?_⟩
      rw [node?_without (by simp), if_pos hq]
  | link hlink =>
      refine ⟨_, h.loses_one hclear hway hself hless fun q hq hapart => ?_⟩
      rw [h.node?_outside (by simpa using Ne.symm hself)] at hlink
      rw [node?_erase (by simp)]
      split
      · rfl
      · next hne =>
        rw [h.node?_outside hapart]
        exact hbounded home h.stage.leads name _ hlink q hq hne

end Cleared

/-- An extraction that fails adds nothing, and all that it can lose is packages. -/
theorem extract_error (hname : isName name = true ∨ name = ".") {archive : ByteArray} {w w' : World}
    {e : Failure} (hmade : (w.disk.makeDirs p.modulesDir).2 = made) (htidy : p.Tidy made)
    (hdirect : p.Direct made) (hbounded : p.Bounded made)
    (h : p.extract name archive w = (.error e, w')) :
    ∃ gone d, w' = { w with disk := d } ∧ p.Loses gone made d := by
  rcases hname with hname | rfl
  · rw [extract_eq] at h
    rcases p.opening_cases archive (p.settle name) w hmade with
      ⟨e', he⟩ | ⟨home, tmp, hstage, ⟨e', d, he, hsame⟩ | ⟨nodes, child, d, hopened, hrun⟩⟩
    · obtain ⟨-, rfl⟩ := Prod.mk.inj (he.symm.trans h)
      exact ⟨_, made, rfl, .of_same (.refl _ made)⟩
    · obtain ⟨-, rfl⟩ := Prod.mk.inj (he.symm.trans h)
      refine ⟨_, _, rfl, .of_same ⟨hsame.here, fun q _ => ?_⟩⟩
      exact hstage.node?_without_tmp (htidy home hstage.leads tmp) hsame.node q
    · rw [hrun] at h
      rcases settle_cases (w := { w with disk := d }) hopened.leads hname
        ((p.modulesDir.join tmp).join child) rfl with
        ⟨e', d', he, hcleared⟩ | ⟨d', d'', -, -, hok⟩
      · rw [he] at h
        obtain ⟨-, rfl⟩ := Prod.mk.inj h
        obtain ⟨gone, hloses⟩ := hopened.loses (htidy home hopened.stage.leads tmp) hdirect hbounded
          hcleared
        exact ⟨gone, _, rfl, hloses⟩
      · rw [hok] at h
        simp at h
  · obtain ⟨e', d, hrun, hsame | ⟨home, hleads, hall⟩⟩ := extract_dot archive w hmade htidy
    · obtain ⟨-, rfl⟩ := Prod.mk.inj (hrun.symm.trans h)
      exact ⟨_, d, rfl, .of_same hsame⟩
    · obtain ⟨-, rfl⟩ := Prod.mk.inj (hrun.symm.trans h)
      exact ⟨_, d, rfl, .of_all hleads hall⟩

end Packages

end PartDepot
