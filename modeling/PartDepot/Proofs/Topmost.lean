import PartDepot.Proofs.Delivering
import PartDepot.Proofs.Holding

/-!
# What an extraction puts in place

An extraction fails, or leaves a directory of its own at the name of the package, with exactly what
the archive has below one of its top directories and nothing of what was installed before.  The
exception is an archive with a symbolic link right at its top: one that leads to a directory is
taken for that directory, and then it is the link that is installed.
-/

namespace PartDepot

open Disk

theorem Disk.Grounded.rooted {d : Disk} (h : d.Grounded) (hhere : d.node? d.here = some .dir) :
    d.Rooted := by
  have hbelow {b q : Place} (hnone : d.node? b = none) (hq : b <+: q) : d.node? q = none := by
    obtain ⟨rest, rfl⟩ := hq
    by_cases hrest : rest = []
    · rw [hrest, List.append_nil, hnone]
    · refine Option.eq_none_iff_forall_ne_some.mpr fun n hn => ?_
      simp [h.below hrest hn] at hnone
  intro b hnone
  refine ⟨fun q hq => hbelow hnone hq, fun hq => ?_⟩
  simp [hbelow hnone hq] at hhere

namespace Packages

variable {p : Packages} {d made : Disk} {home : Place} {tmp name : String}

/-- What was put in place has what the archive unpacks to below one of its names, and
nothing else. -/
theorem Extracted.unpacked {archive : ByteArray} {n : Node} (hname : isName name = true)
    (h : p.Extracted name archive made d home tmp n) (hgrounded : made.Grounded) :
    Unpacked archive d (home ++ [name]) := by
  obtain ⟨nodes, child, hnodes, htree⟩ := h.tree
  have hplace (rest : Place) : d.node? (home ++ [name] ++ rest) =
      nodes.lookup (home ++ [tmp] ++ [child] ++ rest) := by
    rw [List.append_assoc home [tmp] [child]]
    refine htree rest ?_
    by_cases hrest : rest = []
    · exact .inl hrest
    · by_cases hdir : made.node? (home ++ [name]) = some .dir
      · exact .inr (.inl hdir)
      · refine .inr (.inr (Option.eq_none_iff_forall_ne_some.mpr fun m hm => hdir ?_))
        exact hgrounded.below hrest hm
  refine ⟨home ++ [tmp], nodes, child, hnodes, ?_, hplace⟩
  have hself := hplace []
  rw [List.append_nil, List.append_nil] at hself
  have hnode := congrArg Spot.node? (h.leads.find_name hname h.found)
  rw [spotAt_node?] at hnode
  rw [← hself, ← hnode]
  simp [Spot.node?]

/-- An extraction fails, or a directory stands at the name of the package, no link, and its tree is
that of one top directory of the archive; or the archive has a link right at its top. -/
theorem extract_installs (haccepted : Manifest.isPackageName name = true) (hdot : name ≠ ".")
    (archive : ByteArray) {w : World} (hgrounded : w.disk.Grounded)
    (hhere : w.disk.node? w.disk.here = some .dir) :
    (∃ e w', p.extract name archive w = (.error e, w')) ∨
    ∃ d, p.extract name archive w = (.ok (p.installPath name), { w with disk := d }) ∧
      ((∃ q, d.find false (p.installPath name) = .ok (.taken q .dir) ∧ Unpacked archive d q) ∨
        ¬LinkFree archive) := by
  have hname := isName_of_isPackageName haccepted hdot
  have htidy : p.Tidy (w.disk.makeDirs p.modulesDir).2 := fun _ _ _ =>
    (hgrounded.rooted hhere _).makeDirs _
  rcases extract_cases hname archive w rfl htidy with
    ⟨e, d, hextract, -⟩ | ⟨home, tmp, n, d, -, hextract, -, hlinkFree, hextracted⟩
  · exact .inl ⟨e, _, hextract⟩
  · refine .inr ⟨d, hextract, ?_⟩
    by_cases hlinks : LinkFree archive
    · obtain rfl := hlinkFree hlinks
      have hdone := hextracted (.inl rfl)
      exact .inl ⟨_, hdone.found, hdone.unpacked hname (hgrounded.makeDirs hhere _)⟩
    · exact .inr hlinks

end Packages

/-! ## A link at the top -/

namespace Tar

/-- A header for a symbolic link `a` to where it stands, and the end mark. -/
def loopBytes : List UInt8 :=
  97 :: List.replicate 123 0 ++ 48 :: List.replicate 23 0 ++ [55, 54, 49] ++ List.replicate 5 0 ++
    50 :: 46 :: List.replicate 354 0 ++ List.replicate 512 0

theorem readEntries_loopBytes (whole : Bool) :
    readEntries whole (loopBytes.length + 1) {} loopBytes = some [⟨"a", .link "."⟩] := by
  revert whole
  decide +kernel

/-- An archive that has no directory, but the link `a` at its top. -/
def loop : ByteArray := ⟨(Inflate.pack loopBytes [98, 131, 9, 125, 0, 4, 0, 0]).toArray⟩

end Tar

namespace Packages

/-- The archive has no directory, and still the package is installed: the link is, in whatever
order the directory for unpacking is read. -/
theorem extract_installs_link (wanted : List Dependency) (catalog : Catalog) (listing : Listing) :
    Tar.unpack ["s", "modules", ".tmp0"] Tar.loop =
      some [(["s", "modules", ".tmp0", "a"], .link ".")] ∧
    (Packages.mk wanted ⟨"/s"⟩ catalog).extract "a" Tar.loop { World.bare with listing } =
      (.ok ⟨"/s/modules/a"⟩, { World.bare with
        listing := listing
        disk :=
          ⟨[(["s"], .dir), (["s", "modules"], .dir), (["s", "modules", "a"], .link ".")],
          []⟩ }) := by
  have hnodes : Tar.unpack ["s", "modules", ".tmp0"] Tar.loop =
      some [(["s", "modules", ".tmp0", "a"], .link ".")] := by
    rw [Tar.loop, Tar.unpack_pack (by decide +kernel) Tar.readEntries_loopBytes]
    decide +kernel
  have hsteps : extracted? ((Path.mk "/s").join "modules") "a" ".tmp0" "a" ["s", "modules"]
      [(["s", "modules", ".tmp0", "a"], .link ".")] World.bare.disk =
        some ⟨[(["s"], .dir), (["s", "modules"], .dir), (["s", "modules", "a"], .link ".")],
        []⟩ := by
    decide +kernel
  have hpath : (Packages.mk wanted ⟨"/s"⟩ catalog).installPath "a" = ⟨"/s/modules/a"⟩ := by
    simp only [installPath, modulesDir]
    decide +kernel
  refine ⟨hnodes, ?_⟩
  rw [extract_of_extracted? (p := ⟨wanted, ⟨"/s"⟩, catalog⟩) (w := { World.bare with listing })
    hsteps hnodes, hpath]

end Packages

end PartDepot
