import PartDepot.Proofs.Extraction
import PartDepot.Proofs.Resolving

/-!
# Installing a package next to others

An installation is a download, which leaves the disk alone, and an extraction.  For every name that
a manifest accepts but one it leaves the other packages as they are.  The exception is the dot,
which names the modules directory itself.
-/

namespace PartDepot

open Disk

namespace Packages

variable {p : Packages} {d : Disk} {home : Place}

/-! ## Installing -/

/-- Downloads the archive of a package and checks it; yields it with its digest. -/
def fetchArchive (p : Packages) (dep : Dependency) : Act Failure (ByteArray × Option String) := do
  let release ← Act.mapError .fetch (p.catalog.fetchRelease dep.name dep.version)
  Act.log .info s!"Downloading {dep.text} from {release.url}"
  let archive ← Act.mapError (fun e => .context s!"Failed to download {dep.text}" (.fetch e))
    (p.catalog.download release.url)
  Act.ofExcept (verify archive release.digest)
  return (archive, release.digest)

theorem install_eq (p : Packages) (dep : Dependency) : p.install dep = (do
    let (archive, digest) ← p.fetchArchive dep
    let path ← p.extract dep.name archive
    Act.log .info s!"Installed {dep.text} to {path.text}"
    return digest) := by
  unfold install fetchArchive
  simp only [bind_assoc, pure_bind]

theorem fetchArchive_keeps {R : World → World → Prop} [World.Frame R] (p : Packages)
    (dep : Dependency) : (p.fetchArchive dep).Keeps R := by
  unfold fetchArchive
  refine ((p.catalog.fetchRelease_keeps _ _).mapError _).bind fun release => ?_
  refine (Act.keeps_log _ _).bind fun _ => ?_
  refine ((p.catalog.download_keeps _).mapError _).bind fun archive => ?_
  exact (Act.keeps_ofExcept _).bind fun _ => Act.keeps_pure _

theorem install_cases (p : Packages) (dep : Dependency) (w : World) :
    (∃ e w', p.fetchArchive dep w = (.error e, w') ∧ p.install dep w = (.error e, w')) ∨
    ∃ archive digest w', p.fetchArchive dep w = (.ok (archive, digest), w') ∧
      ((∃ e w'', p.extract dep.name archive w' = (.error e, w'') ∧
        p.install dep w = (.error e, w'')) ∨
      ∃ path w'', p.extract dep.name archive w' = (.ok path, w'') ∧ p.install dep w =
        (.ok digest, w''.record (.logged .info s!"Installed {dep.text} to {path.text}"))) := by
  rw [install_eq, Act.bind_apply]
  rcases hfetch : p.fetchArchive dep w with ⟨e | ⟨archive, digest⟩, w'⟩
  · exact .inl ⟨e, w', rfl, rfl⟩
  · refine .inr ⟨archive, digest, w', rfl, ?_⟩
    dsimp only
    rw [Act.bind_apply]
    rcases hextract : p.extract dep.name archive w' with ⟨e | path, w''⟩
    · exact .inl ⟨e, w'', rfl, rfl⟩
    · exact .inr ⟨path, w'', rfl, rfl⟩

theorem isName_of_isPackageName {name : String} (h : Manifest.isPackageName name = true)
    (hdot : name ≠ ".") : isName name = true :=
  isName_of_isPiece (Manifest.isPiece_of_isPackageName h).1 hdot
    (Manifest.isPiece_of_isPackageName h).2

theorem makeDirs_modulesDir (h : d.Leads p.modulesDir home) : (d.makeDirs p.modulesDir).2 = d :=
  Leads.makeDirs ⟨by decide, by decide⟩ h

theorem tidy_of_rooted (h : d.Rooted) (p : Packages) : p.Tidy d := fun _ _ _ => h _

/-- Installing a package leaves every other one as it is, whether it succeeds or not, and puts the
package right into the modules directory.  The name may not be a dot, and the way to the modules
directory may not lead through the package that is replaced. -/
theorem install_keeps_others {dep : Dependency} (haccepted : Manifest.isPackageName dep.name = true)
    (hdot : dep.name ≠ ".") {w : World} (hrooted : w.disk.Rooted)
    (hway : (w.disk.without (home ++ [dep.name])).Leads p.modulesDir home) :
    (∀ other, other ≠ dep.name → w.disk.node? (home ++ [other]) ≠ none → ∀ rest,
      (p.install dep w).2.disk.node? (home ++ [other] ++ rest) =
        w.disk.node? (home ++ [other] ++ rest)) ∧
    ∀ digest w', p.install dep w = (.ok digest, w') → w'.disk.Leads p.modulesDir home ∧
      ∃ n, w'.disk.find false (p.installPath dep.name) = .ok (.taken (home ++ [dep.name]) n) := by
  have hname := isName_of_isPackageName haccepted hdot
  have hleads : w.disk.Leads p.modulesDir home := (without_extends (by simp)).leads hway
  have hstill : w.Still (p.fetchArchive dep w).2 := p.fetchArchive_keeps dep w
  have hother {tmp other : String} (hstage : p.Stage w.disk home tmp) (hne : other ≠ dep.name)
      (hstands : w.disk.node? (home ++ [other]) ≠ none) {d : Disk} (rest : Place)
      (hsame : w.disk.SameBut (fun q => home ++ [tmp] <+: q ∨ home ++ [dep.name] <+: q) d) :
      d.node? (home ++ [other] ++ rest) = w.disk.node? (home ++ [other] ++ rest) := by
    have htmp : other ≠ tmp := by
      rintro rfl
      exact hstands hstage.node?_eq_none
    exact hsame.node _ (by simp [Ne.symm htmp, Ne.symm hne])
  rcases p.install_cases dep w with ⟨e, w₁, hfetch, hinstall⟩ | ⟨archive, digest, w₁, hfetch, hrun⟩
  · rw [hfetch] at hstill
    rw [hinstall]
    refine ⟨fun other _ _ rest => ?_, fun digest w' h => ?_⟩
    · rw [hstill.disk]
    · simp at h
  rw [hfetch] at hstill
  have hmade : (w₁.disk.makeDirs p.modulesDir).2 = w.disk := by
    rw [hstill.disk]
    exact makeDirs_modulesDir hleads
  rcases extract_cases hname archive w₁ hmade (tidy_of_rooted hrooted p) with
    ⟨e, d, hextract, hframe⟩ | ⟨home', tmp, n, d, hstage, hextract, -, -, hdone⟩
  · rcases hrun with ⟨e', w₂, hextract', hinstall⟩ | ⟨path, w₂, hextract', -⟩
    · obtain ⟨-, rfl⟩ := Prod.mk.inj (hextract.symm.trans hextract')
      rw [hinstall]
      refine ⟨fun other hne hstands rest => ?_, fun digest w' h => by simp at h⟩
      rcases hframe with rfl | ⟨home', tmp, hstage, hsame⟩
      · rfl
      · obtain rfl := hstage.leads.unique hleads
        exact hother hstage hne hstands rest hsame
    · have hboth := hextract.symm.trans hextract'
      simp at hboth
  · rcases hrun with ⟨e', w₂, hextract', -⟩ | ⟨path, w₂, hextract', hinstall⟩
    · have hboth := hextract.symm.trans hextract'
      simp at hboth
    · obtain ⟨-, rfl⟩ := Prod.mk.inj (hextract.symm.trans hextract')
      obtain rfl := hstage.leads.unique hleads
      have hextracted := hdone (.inr hway)
      rw [hinstall]
      refine ⟨fun other hne hstands rest => hother hstage hne hstands rest hextracted.same, ?_⟩
      rintro digest' w' h
      obtain ⟨-, rfl⟩ := Prod.mk.inj h
      exact ⟨hextracted.leads, n, hextracted.found⟩

end Packages

end PartDepot
