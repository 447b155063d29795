import PartDepot.Proofs.Clearing
import PartDepot.Proofs.StateDir

/-!
# What extracting a package does to the disk

An archive is unpacked in a directory of its own among the packages, and its top directory takes the
place of what was installed under the name.  Whatever this comes to, the packages with other names
are as before; once it succeeds, a directory or a link of the archive stands at the name.
-/

namespace PartDepot

open Disk

namespace Packages

/-! ## The steps -/

/-- Unpacks an archive in a directory and finds the top directory of the package there. -/
def openArchive (staging : Path) (archive : ByteArray) : Act Failure Path := do
  unpack staging archive
  match ← Act.look (firstDirectory? staging) with
  | none => Act.fail (.message "No directory found in package archive")
  | some top => return top

/-- Gives what a path names the place of what is installed under a name. -/
def settle (p : Packages) (name : String) (top : Path) : Act Failure Path := do
  let target := p.installPath name
  if ← Act.look (·.disk.has target) then
    Act.edit (·.removeTree target) .refused
  Act.edit (·.rename top target) fun f =>
    .context s!"Failed to install package to {target.text}" (.refused f)
  return target

/-- Opens an archive among the packages and goes on with its top directory. -/
def opening {α : Type} (p : Packages) (archive : ByteArray) (k : Path → Act Failure α) :
    Act Failure α := do
  Act.edit (·.makeDirs p.modulesDir) .refused
  p.withStaging fun staging => openArchive staging archive >>= k

theorem extract_eq (p : Packages) (name : String) (archive : ByteArray) :
    p.extract name archive = p.opening archive (p.settle name) := by
  unfold extract opening
  congr 1
  funext _
  congr 1
  funext staging
  unfold openArchive
  rw [bind_assoc]
  congr 1
  funext _
  rw [bind_assoc]
  congr 1
  funext found
  cases found <;> rfl

theorem opening_of_fault {α : Type} {p : Packages} {w : World} {fault : Fault} {d : Disk}
    (h : w.disk.makeDirs p.modulesDir = (some fault, d)) (archive : ByteArray)
    (k : Path → Act Failure α) :
    p.opening archive k w = (.error (.refused fault), { w with disk := d }) :=
  Act.bind_of_error (Act.edit_of_fault h _) _

/-- All of an extraction but the last step: what can be tried without touching any package. -/
def rehearse (p : Packages) (archive : ByteArray) : Act Failure Unit :=
  p.opening archive fun _ => pure ()

/-- What goes wrong before the top directory is found does not depend on what is done with it. -/
theorem opening_of_rehearse_error {α : Type} {p : Packages} {archive : ByteArray} {w w' : World}
    {e : Failure} (h : p.rehearse archive w = (.error e, w')) (k : Path → Act Failure α) :
    p.opening archive k w = (.error e, w') := by
  unfold rehearse opening at h
  rw [opening]
  rcases hmake : Act.edit (·.makeDirs p.modulesDir) Failure.refused w with ⟨_ | _, made⟩
  · exact Act.bind_error_again hmake h _
  · rw [Act.bind_of_ok hmake] at h ⊢
    unfold withStaging at h ⊢
    dsimp only at h ⊢
    cases hfresh : made.disk.makeFresh p.modulesDir with
    | error fault =>
        rw [hfresh] at h
        obtain ⟨he, rfl⟩ := Prod.mk.inj h
        obtain rfl := Except.error.inj he
        rfl
    | ok fresh =>
        obtain ⟨staging, d⟩ := fresh
        rw [hfresh] at h
        dsimp only at h ⊢
        rcases hopen : openArchive staging archive { made with disk := d } with ⟨_ | top, last⟩
        · rw [Act.bind_of_error hopen] at h ⊢
          obtain ⟨he, rfl⟩ := Prod.mk.inj h
          obtain rfl := Except.error.inj he
          rfl
        · simp [Act.bind_of_ok hopen, Act.pure_apply] at h

/-! ## The directory for unpacking -/

/-- A place among the packages where a directory for unpacking can be made. -/
structure Stage (p : Packages) (d : Disk) (home : Place) (tmp : String) : Prop where
  leads : d.Leads p.modulesDir home
  isName : Disk.isName tmp = true
  free : d.find false (p.modulesDir.join tmp) = .ok (.free (home ++ [tmp]))

variable {p : Packages} {d d' : Disk} {home : Place} {tmp : String}

theorem stage_of_makeFresh {staging : Path} (h : d.makeFresh p.modulesDir = .ok (staging, d')) :
    ∃ home tmp, p.Stage d home tmp ∧ staging = p.modulesDir.join tmp ∧
      d' = d.put (home ++ [tmp]) .dir := by
  obtain ⟨home, spot, hdir, rfl, hfree, rfl⟩ := makeFresh_eq_ok h
  have hleads := leads_of_find hdir
  have hname := freshName_isName d home
  have hspot := hleads.find_name hname hfree
  have hplace : spot = home ++ [d.freshName home] := by
    unfold spotAt at hspot
    split at hspot
    · exact Spot.free.inj hspot
    · simp at hspot
  subst hplace
  exact ⟨home, _, ⟨hleads, hname, hfree⟩, rfl, rfl⟩

namespace Stage

variable (h : p.Stage d home tmp)

include h

theorem node?_eq_none : d.node? (home ++ [tmp]) = none := by
  have hspot := h.leads.find_name h.isName h.free
  unfold spotAt at hspot
  split at hspot
  · next hnone => exact hnone
  · simp at hspot

theorem extends_put : d.Extends (d.put (home ++ [tmp]) .dir) :=
  .put (by simp) h.node?_eq_none .dir

theorem find_staging (hhere : d'.here = d.here) (hleads : d'.Leads p.modulesDir home)
    (hdir : d'.node? (home ++ [tmp]) = some .dir) (follow : Bool) :
    d'.find follow (p.modulesDir.join tmp) = .ok (.taken (home ++ [tmp]) .dir) :=
  find_of_spotAt_dir (hleads.find_name_again hhere h.isName h.free) hdir follow

theorem removeTree (hhere : d'.here = d.here) (hleads : d'.Leads p.modulesDir home)
    (hdir : d'.node? (home ++ [tmp]) = some .dir) :
    d'.removeTree (p.modulesDir.join tmp) = (none, d'.without (home ++ [tmp])) := by
  have hdot := endsInDot_join h.isName p.modulesDir
  unfold Disk.removeTree
  rw [h.find_staging hhere hleads hdir]
  simp [hdot, without]

omit h in
theorem node?_made : (d.put (home ++ [tmp]) .dir).node? (home ++ [tmp]) = some .dir := by
  rw [node?_put (by simp), if_pos rfl]

theorem find_made (follow : Bool) :
    (d.put (home ++ [tmp]) .dir).find follow (p.modulesDir.join tmp) =
    .ok (.taken (home ++ [tmp]) .dir) :=
  h.find_staging h.extends_put.here (h.extends_put.leads h.leads) node?_made follow

/-- The directory for unpacking can be removed with all that came to the disk after it. -/
theorem removeTree_of_extends (hmore : (d.put (home ++ [tmp]) .dir).Extends d') :
    d'.removeTree (p.modulesDir.join tmp) = (none, d'.without (home ++ [tmp])) :=
  h.removeTree (h.extends_put.trans hmore).here ((h.extends_put.trans hmore).leads h.leads)
    (hmore.node node?_made)

/-- Whatever of the disk is left, removing the directory for unpacking touches only that. -/
theorem node?_removeTree {e : Disk} (hd : d'.Extends e) (hleads : e.Leads p.modulesDir home)
    (q : Place) :
    (d'.removeTree (p.modulesDir.join tmp)).2.node? q = d'.node? q ∨
      home ++ [tmp] <+: q ∧ (d'.removeTree (p.modulesDir.join tmp)).2.node? q = none := by
  rcases d'.node?_removeTree (p.modulesDir.join tmp) q with hsame | ⟨hgone, t, hfind, hplace⟩
  · exact .inl hsame
  · obtain ⟨-, rfl⟩ := hleads.find_name_of_extends hd h.isName hfind
    rw [spotAt_place] at hplace
    exact .inr ⟨hplace, hgone⟩

/-- The disk without the directory for unpacking is as before that was made. -/
theorem node?_without_tmp (hclear : d.Clear (home ++ [tmp]))
    (hd' : ∀ q, ¬home ++ [tmp] <+: q → d'.node? q = d.node? q) (q : Place) :
    (d'.without (home ++ [tmp])).node? q = d.node? q := by
  rw [node?_without (by simp)]
  split
  · next hq => exact ((hclear h.node?_eq_none).1 q hq).symm
  · next hq => exact hd' q hq

end Stage

theorem withStaging_cases {α : Type} (p : Packages) (body : Path → Act Failure α) (w : World) :
    (∃ e, p.withStaging body w = (.error e, w)) ∨
    ∃ home tmp, p.Stage w.disk home tmp ∧ p.withStaging body w =
      (let (r, w') := body (p.modulesDir.join tmp)
        { w with disk := w.disk.put (home ++ [tmp]) .dir }
       (r, { w' with disk := (w'.disk.removeTree (p.modulesDir.join tmp)).2 })) := by
  unfold withStaging
  cases hmake : w.disk.makeFresh p.modulesDir with
  | error fault => exact .inl ⟨_, rfl⟩
  | ok fresh =>
      obtain ⟨staging, d⟩ := fresh
      obtain ⟨home, tmp, hstage, rfl, rfl⟩ := stage_of_makeFresh hmake
      exact .inr ⟨home, tmp, hstage, rfl⟩

/-! ## Opening the archive -/

theorem lookup_unpacked {root : Place} {archive : ByteArray} {nodes : List (Place × Node)}
    (h : Tar.unpack root archive = some nodes) {q : Place} (hq : ¬root <+: q) :
    nodes.lookup q = none := by
  refine List.lookup_eq_none_iff.mpr fun e he => ?_
  have hne : q ≠ e.1 := by
    rintro rfl
    exact hq (Tar.unpack_below h e he).1
  simpa using hne

theorem unpack_of_some {staging : Path} {place : Place} {w : World} {archive : ByteArray}
    (hfind : w.disk.find true staging = .ok (.taken place .dir)) {nodes : List (Place × Node)}
    (h : Tar.unpack place archive = some nodes) :
    unpack staging archive w = (.ok (), { w with disk := w.disk.add nodes }) := by
  unfold unpack
  rw [hfind]
  dsimp only
  rw [h]
  rfl

theorem isDir_of_firstDirectory? {dir top : Path} {w : World}
    (h : firstDirectory? dir w = some top) :
    w.disk.isDir top = true := by
  unfold firstDirectory? at h
  split at h
  · exact List.find?_some h
  · simp at h

theorem openArchive_cases {staging : Path} {place : Place} {w : World}
    (hfind : w.disk.find true staging = .ok (.taken place .dir)) (archive : ByteArray) :
    (∃ e, openArchive staging archive w = (.error e, w)) ∨
    ∃ nodes, Tar.unpack place archive = some nodes ∧
      ((∃ e, openArchive staging archive w = (.error e, { w with disk := w.disk.add nodes })) ∨
      ∃ top, firstDirectory? staging { w with disk := w.disk.add nodes } = some top ∧
        openArchive staging archive w = (.ok top, { w with disk := w.disk.add nodes })) := by
  unfold openArchive
  cases hnodes : Tar.unpack place archive with
  | none =>
      obtain ⟨e, he⟩ : ∃ e, unpack staging archive w = (.error e, w) := by
        unfold unpack
        rw [hfind]
        dsimp only
        rw [hnodes]
        exact ⟨_, rfl⟩
      exact .inl ⟨e, Act.bind_of_error he _⟩
  | some nodes =>
      refine .inr ⟨nodes, rfl, ?_⟩
      rw [Act.bind_of_ok (unpack_of_some hfind hnodes), Act.look_bind]
      cases firstDirectory? staging { w with disk := w.disk.add nodes } with
      | none => exact .inl ⟨_, rfl⟩
      | some top => exact .inr ⟨top, rfl, rfl⟩

/-- An archive is unpacked in a directory for it, and a name in that directory leads to a
directory. -/
structure Opened (p : Packages) (archive : ByteArray) (made d : Disk) (home : Place)
    (tmp child : String) (nodes : List (Place × Node)) : Prop where
  stage : p.Stage made home tmp
  unpacked : Tar.unpack (home ++ [tmp]) archive = some nodes
  childName : isName child = true
  disk : d = (made.put (home ++ [tmp]) .dir).add nodes
  top : d.isDir ((p.modulesDir.join tmp).join child) = true

namespace Opened

variable {archive : ByteArray} {made : Disk} {child : String} {nodes : List (Place × Node)}
  (h : p.Opened archive made d home tmp child nodes)

include h

theorem extends_made : made.Extends d :=
  h.disk ▸ h.stage.extends_put.trans (extends_add _ nodes)

theorem leads : d.Leads p.modulesDir home := h.extends_made.leads h.stage.leads

theorem node?_tmp : d.node? (home ++ [tmp]) = some .dir := by
  rw [h.disk, node?_add, Stage.node?_made, Option.some_or]

theorem leads_tmp : d.Leads (p.modulesDir.join tmp) (home ++ [tmp]) :=
  leads_of_find (h.stage.find_staging h.extends_made.here h.leads h.node?_tmp true)

theorem node?_outside {q : Place} (hq : ¬home ++ [tmp] <+: q) : d.node? q = made.node? q := by
  rw [h.disk, node?_add, node?_put (by simp), if_neg, lookup_unpacked h.unpacked hq, Option.or_none]
  rintro rfl
  exact hq (List.prefix_refl _)

theorem node?_inside (hclear : made.Clear (home ++ [tmp])) {q : Place} (hq : home ++ [tmp] <+: q)
    (hne : q ≠ home ++ [tmp]) : d.node? q = nodes.lookup q := by
  rw [h.disk, node?_add, node?_put (by simp), if_neg hne,
    (hclear h.stage.node?_eq_none).1 q hq, Option.none_or]

/-- What leads to a directory is not a file. -/
theorem ne_file (content : ByteArray) : d.node? (home ++ [tmp, child]) ≠ some (.file content) := by
  intro hfile
  have htop := h.top
  unfold isDir at htop
  split at htop
  · next q hfind =>
    have hspot : d.find false ((p.modulesDir.join tmp).join child) =
        .ok (.taken (home ++ [tmp, child]) (.file content)) := by
      rw [h.leads_tmp.find_name_again rfl h.childName hfind, List.append_assoc]
      exact congrArg _ (spotAt_of_node hfile)
    have hfollow : d.find true ((p.modulesDir.join tmp).join child) =
        d.find false ((p.modulesDir.join tmp).join child) := find_follow (by simp [hspot])
    rw [hspot, hfind] at hfollow
    simp at hfollow
  · simp at htop

end Opened

/-- Opening an archive fails and leaves the packages alone, or its top directory is at hand. -/
theorem opening_cases {α : Type} (p : Packages) (archive : ByteArray) (k : Path → Act Failure α)
    (w : World) {made : Disk} (hmade : (w.disk.makeDirs p.modulesDir).2 = made) :
    (∃ e, p.opening archive k w = (.error e, { w with disk := made })) ∨
    ∃ home tmp, p.Stage made home tmp ∧
      ((∃ e d, p.opening archive k w = (.error e, { w with disk := d.without (home ++ [tmp]) }) ∧
        made.SameBut (home ++ [tmp] <+: ·) d) ∨
      ∃ nodes child d, p.Opened archive made d home tmp child nodes ∧ p.opening archive k w =
          (let (r, w') := k ((p.modulesDir.join tmp).join child) { w with disk := d }
           (r, { w' with disk := (w'.disk.removeTree (p.modulesDir.join tmp)).2 }))) := by
  rcases hmake : w.disk.makeDirs p.modulesDir with ⟨_ | fault, made'⟩
  · obtain rfl : made' = made := by rw [← hmade, hmake]
    rw [opening, Act.bind_of_ok (Act.edit_of_done hmake _)]
    rcases p.withStaging_cases (fun staging => openArchive staging archive >>= k)
      { w with disk := made' } with ⟨e, he⟩ | ⟨home, tmp, hstage, hrun⟩
    · exact .inl ⟨e, he⟩
    refine .inr ⟨home, tmp, hstage, ?_⟩
    rw [hrun]
    dsimp only at hstage ⊢
    have hput : made'.SameBut (home ++ [tmp] <+: ·) (made'.put (home ++ [tmp]) .dir) :=
      (sameBut_put made' (by simp) .dir).mono fun q hq => hq ▸ List.prefix_refl q
    rcases openArchive_cases (w := { w with disk := made'.put (home ++ [tmp]) .dir })
      (hstage.find_made true) archive with ⟨e, he⟩ | ⟨nodes, hnodes, ⟨e, he⟩ | ⟨top, htop, hopen⟩⟩
    · refine .inl ⟨e, _, ?_, hput⟩
      rw [Act.bind_of_error he]
      dsimp only
      rw [hstage.removeTree_of_extends (.refl _)]
    · refine .inl ⟨e, (made'.put (home ++ [tmp]) .dir).add nodes, ?_,
        hput.trans ⟨rfl, fun q hq => ?_⟩⟩
      · rw [Act.bind_of_error he]
        dsimp only
        rw [hstage.removeTree_of_extends (extends_add _ nodes)]
      · rw [node?_add, lookup_unpacked hnodes hq, Option.or_none]
    · obtain ⟨child, hchild, rfl⟩ := exists_name_of_firstDirectory? htop
      have htopDir := isDir_of_firstDirectory? htop
      refine .inr ⟨nodes, child, _, ⟨hstage, hnodes, hchild, rfl, htopDir⟩, ?_⟩
      rw [Act.bind_of_ok hopen]
  · obtain rfl : made' = made := by rw [← hmade, hmake]
    exact .inl ⟨_, opening_of_fault hmake archive k⟩

/-! ## Settling -/

/-- The last step is refused, with the place of the package cleared or not, or the place is cleared
and what was unpacked gets it. -/
theorem settle_cases (hleads : d.Leads p.modulesDir home) {name : String}
    (hname : isName name = true) (top : Path) {w : World} (hdisk : w.disk = d) :
    (∃ e d', p.settle name top w = (.error e, { w with disk := d' }) ∧
      (d' = d ∨ d.Cleared (p.installPath name) (home ++ [name]) d')) ∨
    ∃ d' d'', d.Cleared (p.installPath name) (home ++ [name]) d' ∧
      d'.rename top (p.installPath name) = (none, d'') ∧
      p.settle name top w = (.ok (p.installPath name), { w with disk := d'' }) := by
  subst hdisk
  let rename : Act Failure Path := do
    Act.edit (·.rename top (p.installPath name)) fun f =>
      .context s!"Failed to install package to {(p.installPath name).text}" (.refused f)
    return p.installPath name
  have hrename {d' : Disk} (hcleared : w.disk.Cleared (p.installPath name) (home ++ [name]) d')
      (hsettle : p.settle name top w = rename { w with disk := d' }) :
      (∃ e d', p.settle name top w = (.error e, { w with disk := d' }) ∧
        (d' = w.disk ∨ w.disk.Cleared (p.installPath name) (home ++ [name]) d')) ∨
      ∃ d' d'', w.disk.Cleared (p.installPath name) (home ++ [name]) d' ∧
        d'.rename top (p.installPath name) = (none, d'') ∧
        p.settle name top w = (.ok (p.installPath name), { w with disk := d'' }) := by
    rcases d'.rename_cases_fault top (p.installPath name) with hnone | ⟨fault, hfault⟩
    · have hmoved := Prod.ext (y := (none, (d'.rename top (p.installPath name)).2)) hnone rfl
      exact .inr ⟨d', _, hcleared, hmoved,
        hsettle.trans (Act.bind_of_ok (Act.edit_of_done hmoved _) _)⟩
    · exact .inl ⟨_, d', hsettle.trans (Act.bind_of_error (Act.edit_of_fault hfault _) _),
        .inr hcleared⟩
  unfold settle at hrename ⊢
  dsimp only at hrename ⊢
  rw [Act.look_bind] at hrename ⊢
  by_cases hhas : w.disk.has (p.installPath name) = true
  · rw [if_pos hhas] at hrename ⊢
    have htree : (∃ fault, w.disk.removeTree (p.installPath name) = (some fault, w.disk)) ∨
        ∃ d', w.disk.removeTree (p.installPath name) = (none, d') ∧
          w.disk.Cleared (p.installPath name) (home ++ [name]) d' := hleads.removeTree hname
    rcases htree with ⟨fault, hfault⟩ | ⟨d', hd', hcleared⟩
    · exact .inl ⟨_, w.disk, Act.bind_of_error (Act.edit_of_fault hfault _) _, .inl rfl⟩
    · exact hrename hcleared (Act.bind_of_ok (Act.edit_of_done hd' _) _)
  · refine hrename (.absent (by simpa using hhas)) ?_
    rw [if_neg hhas]

/-- Between the disks a node has moved from one place to another, where it has taken the place of
everything. -/
structure Settled (d d' : Disk) (a b : Place) (n : Node) : Prop where
  here : d'.here = d.here
  apart : ¬b <+: a
  source : d.node? a = some n
  node : d'.node? b = some n
  outside : ∀ q, ¬a <+: q → ¬b <+: q → d'.node? q = d.node? q
  gone : ∀ q, a <+: q → d'.node? q = none
  tree : ∀ rest, rest = [] ∨ d.node? b = some .dir ∨ d.node? (b ++ rest) = none →
    d'.node? (b ++ rest) = d.node? (a ++ rest)

theorem Settled.of_move {e : Disk} {a b : Place} {n : Node} (hab : ¬a <+: b) (hba : ¬b <+: a)
    (hlong : b.length ≤ a.length) (hb : e.node? b = none) (hsource : e.node? a = some n)
    (hsub : e.Extends d) (hsame : ∀ q, ¬b <+: q → e.node? q = d.node? q)
    (hdir : d.node? b = some .dir → ∀ q, b <+: q → e.node? q = none) :
    Settled d (e.move a b) a b n := by
  have ha : a ≠ [] := by
    rintro rfl
    exact hab List.nil_prefix
  have hbne : b ≠ [] := by
    rintro rfl
    exact hba List.nil_prefix
  have hapart {q : Place} (hq : a <+: q) : ¬b <+: q := fun hbq =>
    hba (List.prefix_of_prefix_length_le hbq hq hlong)
  have hnode (rest : Place) : (e.move a b).node? (b ++ rest) =
      (e.node? (b ++ rest)).or (e.node? (a ++ rest)) := by
    have haq : ¬a <+: b ++ rest := fun haq => hapart haq (List.prefix_append b rest)
    have hlookup : e.nodes.lookup (a ++ rest) = e.node? (a ++ rest) := by simp [node?, ha]
    rw [node?_move e a b (by simp [hbne]), if_neg haq, if_pos (List.prefix_append b rest),
      List.drop_left, hlookup]
  refine ⟨hsub.here.symm ▸ rfl, hba, hsub.node hsource, ?_, fun q haq hbq => ?_, fun q haq => ?_,
    fun rest hrest => ?_⟩
  · have hself := hnode []
    simpa [hb, hsource] using hself
  · rw [node?_move_outside e haq hbq]
    exact hsame q hbq
  · have hq : q ≠ [] := by
      rintro rfl
      exact ha (List.prefix_nil.mp haq)
    rw [node?_move e a b hq, if_pos haq, if_neg (hapart haq)]
    rfl
  · have hnone : e.node? (b ++ rest) = none := by
      rcases hrest with rfl | hd | hd
      · rwa [List.append_nil]
      · exact hdir hd _ (List.prefix_append b rest)
      · cases hrest : e.node? (b ++ rest) with
        | none => rfl
        | some m => simp [hsub.node hrest] at hd
    rw [hnode, hnone, hsame _ (hapart (List.prefix_append a rest)), Option.none_or]

/-- What stood at the place, and was no directory with something in it, gives way to the node. -/
theorem Settled.of_replace {e : Disk} {a b : Place} {n : Node} (hab : ¬a <+: b) (hba : ¬b <+: a)
    (hlong : b.length ≤ a.length) (hsource : e.node? a = some n) (hsub : e.Extends d)
    (hsame : ∀ q, ¬b <+: q → e.node? q = d.node? q)
    (hdir : d.node? b = some .dir → ∀ q, b <+: q → e.node? q = none) :
    Settled d ((e.erase b).move a b) a b n := by
  have hbne : b ≠ [] := by
    rintro rfl
    exact hba List.nil_prefix
  have herase := sameBut_erase e hbne
  refine .of_move hab hba hlong (by rw [node?_erase hbne, if_pos rfl]) ?_
    ((erase_extends e hbne).trans hsub) (fun q hq => ?_) fun hstands q hq => ?_
  · exact (herase.node a fun ha => hab (ha ▸ List.prefix_refl _)).trans hsource
  · exact (herase.node q fun hself => hq (hself ▸ List.prefix_refl _)).trans (hsame q hq)
  · rw [node?_erase hbne, hdir hstands q hq, ite_self]

/-- What a rename into a cleared place comes to. The way to the packages is still there unless it
led through a link that was replaced by another link. -/
theorem Opened.settled {archive : ByteArray} {made : Disk} {nodes : List (Place × Node)}
    {name child : String} (h : p.Opened archive made d home tmp child nodes)
    (hname : isName name = true) {e : Disk}
    (hcleared : d.Cleared (p.installPath name) (home ++ [name]) e)
    (hrename : e.rename ((p.modulesDir.join tmp).join child) (p.installPath name) = (none, d')) :
    ∃ n, Settled d d' (home ++ [tmp, child]) (home ++ [name]) n ∧ e.Leads p.modulesDir home ∧
      (n = .dir → ∀ q m, ¬home ++ [tmp, child] <+: q → e.node? q = some m →
        d'.node? q = some m) := by
  have hsub := hcleared.toExtends (by simp)
  have hsame := (hcleared.sameBut (by simp)).node
  obtain ⟨a, n, s, hsrc, hdst, hmoved⟩ := rename_eq_none (congrArg Prod.fst hrename)
  rw [congrArg Prod.snd hrename] at hmoved
  -- Both paths lead where they did before the place was cleared.
  obtain ⟨-, hsrcSpot⟩ := h.leads_tmp.find_name_of_extends hsub h.childName hsrc
  obtain ⟨hway, rfl⟩ := h.leads.find_name_of_extends hsub hname hdst
  rw [List.append_assoc] at hsrcSpot
  obtain rfl : a = home ++ [tmp, child] :=
    (congrArg Spot.place hsrcSpot).trans (spotAt_place e _)
  have hsource : e.node? (home ++ [tmp, child]) = some n :=
    (spotAt_node? e _).symm.trans (congrArg Spot.node? hsrcSpot).symm
  rw [spotAt_place, spotAt_node?] at hmoved
  have hnotDir := hcleared.node?_ne_dir (by simp) hdst
  have hfree (hstands : d.node? (home ++ [name]) = some .dir) (q : Place)
      (hq : home ++ [name] <+: q) : e.node? q = none :=
      ((hcleared.dir_or_gone (by simp) hstands).resolve_left hnotDir) q hq
  have hne : name ≠ tmp := by
    rintro rfl
    have hgone := hfree h.node?_tmp (home ++ [name, child]) (by simp)
    simp [hsource] at hgone
  have hab : ¬home ++ [tmp, child] <+: home ++ [name] := fun hab => by
    have hlength := hab.length_le
    simp at hlength
  have hba : ¬home ++ [name] <+: home ++ [tmp, child] := fun hba => by
    simp [hne] at hba
  rcases hmoved with ⟨hnone, rfl⟩ | hself | ⟨hkinds, rfl⟩
  · refine ⟨n, .of_move hab hba (by simp) hnone hsource hsub hsame hfree, hway,
      fun _ q m haq hm => ?_⟩
    by_cases hroot : q = []
    · rw [hroot] at hm ⊢
      exact hm
    · rw [node?_move _ _ _ hroot, if_neg haq, hm, Option.some_or]
  · exact absurd (hself ▸ List.prefix_refl _) hab
  · have hn : n ≠ .dir := by
      rcases hkinds with ⟨-, hdir'⟩ | ⟨hn, -⟩
      · exact absurd hdir' hnotDir
      · exact hn
    exact ⟨n, .of_replace hab hba (by simp) hsource hsub hsame hfree, hway,
      fun hdir' => absurd hdir' hn⟩

/-! ## Extracting -/

/-- Where nothing has a name among the packages, there is nothing below it either. -/
def Tidy (p : Packages) (d : Disk) : Prop :=
  ∀ home, d.Leads p.modulesDir home → ∀ name, d.Clear (home ++ [name])

/-- An archive that cannot be opened leaves the disk as it is once the modules directory is made. -/
theorem rehearse_error {archive : ByteArray} {w w' : World} {e : Failure} {made : Disk}
    (hmade : (w.disk.makeDirs p.modulesDir).2 = made) (htidy : p.Tidy made)
    (h : p.rehearse archive w = (.error e, w')) :
    ∃ d, w' = { w with disk := d } ∧ made.SameBut (fun _ => False) d := by
  rcases p.opening_cases archive (fun _ => pure ()) w hmade with
    ⟨e', he⟩ | ⟨home, tmp, hstage, ⟨e', d, he, hsame⟩ | ⟨nodes, child, d, -, hrun⟩⟩
  · obtain ⟨-, rfl⟩ := Prod.mk.inj (h.symm.trans he)
    exact ⟨made, rfl, .refl _ made⟩
  · obtain ⟨-, rfl⟩ := Prod.mk.inj (h.symm.trans he)
    refine ⟨_, rfl, hsame.here, fun q _ => ?_⟩
    exact hstage.node?_without_tmp (htidy home hstage.leads tmp) hsame.node q
  · have hok := h.symm.trans hrun
    simp [Act.pure_apply] at hok

/-- A package was put at its name, from the top directory of what its archive unpacks to. -/
structure Extracted (p : Packages) (name : String) (archive : ByteArray) (made d : Disk)
    (home : Place) (tmp : String) (n : Node) : Prop where
  leads : d.Leads p.modulesDir home
  found : d.find false (p.installPath name) = .ok (.taken (home ++ [name]) n)
  same : made.SameBut (fun q => home ++ [tmp] <+: q ∨ home ++ [name] <+: q) d
  gone : ∀ q, home ++ [tmp] <+: q → d.node? q = none
  tree : ∃ nodes child, Tar.unpack (home ++ [tmp]) archive = some nodes ∧
    ∀ rest, (rest = [] ∨ made.node? (home ++ [name]) = some .dir ∨
      made.node? (home ++ [name] ++ rest) = none) →
      d.node? (home ++ [name] ++ rest) = nodes.lookup (home ++ [tmp, child] ++ rest)

/-- An archive without links right at its top. -/
def LinkFree (archive : ByteArray) : Prop :=
  ∀ root nodes, Tar.unpack root archive = some nodes →
    ∀ name target, nodes.lookup (root ++ [name]) ≠ some (.link target)

/-- After the top directory was renamed, the package is in place and the directory for unpacking can
be removed. -/
theorem Opened.extracted {archive : ByteArray} {made : Disk} {nodes : List (Place × Node)}
    {name child : String} (h : p.Opened archive made d home tmp child nodes)
    (hclear : made.Clear (home ++ [tmp])) (hname : isName name = true) {e : Disk} {n : Node}
    (hcleared : d.Cleared (p.installPath name) (home ++ [name]) e)
    (hrename : e.rename ((p.modulesDir.join tmp).join child) (p.installPath name) = (none, d'))
    (hsettled : Settled d d' (home ++ [tmp, child]) (home ++ [name]) n)
    (hreach : ∀ d'' : Disk, d''.here = made.here →
      (∀ q, ¬home ++ [tmp] <+: q → d''.node? q = d'.node? q) → d''.Leads p.modulesDir home) :
    p.Extracted name archive made (d'.removeTree (p.modulesDir.join tmp)).2 home tmp n := by
  have hne : name ≠ tmp := by
    rintro rfl
    exact hsettled.apart (by simp)
  have hother (rest : Place) : ¬home ++ [tmp] <+: home ++ [name] ++ rest := by
    simpa using Ne.symm hne
  have hhere : d'.here = made.here := hsettled.here.trans h.extends_made.here
  have hdir : d'.node? (home ++ [tmp]) = some .dir := by
    rw [hsettled.outside _ (by simp) (by simpa using hne), h.node?_tmp]
  rw [h.stage.removeTree hhere (hreach d' hhere fun _ _ => rfl) hdir]
  have hrest (q : Place) (hq : ¬home ++ [tmp] <+: q) :
      (d'.without (home ++ [tmp])).node? q = d'.node? q := by
    rw [node?_without (by simp), if_neg hq]
  have hnode : (d'.without (home ++ [tmp])).node? (home ++ [name]) = some n := by
    rw [hrest _ (by simpa using hother []), hsettled.node]
  have hleads : (d'.without (home ++ [tmp])).Leads p.modulesDir home := hreach _ hhere hrest
  refine ⟨hleads, ?_, ⟨hhere, fun q hq => ?_⟩, fun q hq => ?_, nodes, child, h.unpacked,
    fun rest hfree => ?_⟩
  · obtain ⟨-, -, s, -, hdst, -⟩ := rename_eq_none (congrArg Prod.fst hrename)
    have hstart : (d'.without (home ++ [tmp])).here = e.here :=
      hsettled.here.trans (hcleared.toExtends (by simp)).here
    rw [← spotAt_of_node hnode]
    exact hleads.find_name_again hstart hname hdst
  · rw [not_or] at hq
    rw [hrest q hq.1, hsettled.outside q (fun ha => hq.1 (.trans (by simp) ha)) hq.2,
      h.node?_outside hq.1]
  · rw [node?_without (by simp), if_pos hq]
  · rw [hrest _ (hother rest), hsettled.tree rest, h.node?_inside hclear (by simp) (by simp)]
    rwa [h.node?_outside (by simpa using hother []), h.node?_outside (hother rest)]

section Outcome

variable {archive : ByteArray} {made e : Disk} {nodes : List (Place × Node)} {name child : String}
  {n : Node} (h : p.Opened archive made d home tmp child nodes)

include h

/-- Once the directory for unpacking is gone, all that changed is at the name. -/
theorem Opened.sameBut_removed (hsub : d'.Extends d) (hsame : d.SameBut (home ++ [name] <+: ·) d') :
    made.SameBut (fun q => home ++ [tmp] <+: q ∨ home ++ [name] <+: q)
      (d'.removeTree (p.modulesDir.join tmp)).2 := by
  refine ⟨(d'.here_removeTree _).trans (hsame.here.trans h.extends_made.here), fun q hq => ?_⟩
  rw [not_or] at hq
  rcases h.stage.node?_removeTree hsub h.leads q with hkept | ⟨hgone, -⟩
  · rw [hkept, hsame.node q hq.2, h.node?_outside hq.1]
  · exact absurd hgone hq.1

variable (hclear : made.Clear (home ++ [tmp]))

include hclear

theorem Opened.eq_dir_of_linkFree (hlinks : LinkFree archive)
    (hsource : d.node? (home ++ [tmp, child]) = some n) : n = .dir := by
  cases n with
  | dir => rfl
  | file content => exact absurd hsource (h.ne_file content)
  | link target =>
      rw [h.node?_inside hclear (by simp) (by simp)] at hsource
      refine absurd ?_ (hlinks _ nodes h.unpacked child target)
      rw [List.append_assoc]
      exact hsource

/-- The packages are where they were after a directory was moved, and also after anything else was
if the way to them does not lead through the name. -/
theorem Opened.leads_after (hcleared : d.Cleared (p.installPath name) (home ++ [name]) e)
    (hway : e.Leads p.modulesDir home)
    (hsettled : Settled d d' (home ++ [tmp, child]) (home ++ [name]) n)
    (hkeep : n = .dir → ∀ q m, ¬home ++ [tmp, child] <+: q → e.node? q = some m →
      d'.node? q = some m)
    (hc : n = .dir ∨ (made.without (home ++ [name])).Leads p.modulesDir home) {c : Disk}
    (hhere : c.here = made.here) (hsame : ∀ q, ¬home ++ [tmp] <+: q → c.node? q = d'.node? q) :
    c.Leads p.modulesDir home := by
  have hapart {q : Place} {m : Node} (hm : made.node? q = some m) : ¬home ++ [tmp] <+: q := by
    intro hq
    simp [(hclear h.stage.node?_eq_none).1 q hq] at hm
  have hchild {q : Place} {m : Node} (hm : made.node? q = some m) :
      ¬home ++ [tmp, child] <+: q := fun hq => hapart hm (.trans (by simp) hq)
  rcases hc with hdir | hclearWay
  · refine Leads.common h.extends_made (hcleared.toExtends (by simp)) hhere
      (fun q m hm hm' => ?_) h.stage.leads hway
    rw [hsame q (hapart hm)]
    exact hkeep hdir q m (hchild hm) hm'
  · have hsub : (made.without (home ++ [name])).Extends c := by
      refine ⟨hhere, fun {q m} hm => ?_⟩
      rw [node?_without (by simp)] at hm
      split at hm
      · simp at hm
      · next hq =>
        rw [hsame q (hapart hm), hsettled.outside q (hchild hm) hq, h.node?_outside (hapart hm), hm]
    exact hsub.leads hclearWay

end Outcome

theorem extract_cases {name : String} (hname : isName name = true) (archive : ByteArray) (w : World)
    {made : Disk} (hmade : (w.disk.makeDirs p.modulesDir).2 = made) (htidy : p.Tidy made) :
    (∃ e d, p.extract name archive w = (.error e, { w with disk := d }) ∧
      (d = made ∨ ∃ home tmp, p.Stage made home tmp ∧
        made.SameBut (fun q => home ++ [tmp] <+: q ∨ home ++ [name] <+: q) d)) ∨
    ∃ home tmp n d, p.Stage made home tmp ∧
      p.extract name archive w = (.ok (p.installPath name), { w with disk := d }) ∧
      (∀ content, n ≠ .file content) ∧ (LinkFree archive → n = .dir) ∧
      (n = .dir ∨ (made.without (home ++ [name])).Leads p.modulesDir home →
        p.Extracted name archive made d home tmp n) := by
  rw [extract_eq]
  rcases p.opening_cases archive (p.settle name) w hmade with
    ⟨e, he⟩ | ⟨home, tmp, hstage, ⟨e, d, he, hsame⟩ | ⟨nodes, child, d, hopened, hrun⟩⟩
  · exact .inl ⟨e, made, he, .inl rfl⟩
  · refine .inl ⟨e, _, he, .inr ⟨home, tmp, hstage, hsame.here, fun q hq => ?_⟩⟩
    exact hstage.node?_without_tmp (htidy home hstage.leads tmp) hsame.node q
  have hclear := htidy home hstage.leads tmp
  rcases settle_cases (w := { w with disk := d }) hopened.leads hname
    ((p.modulesDir.join tmp).join child) rfl with
    ⟨e, d', he, hd'⟩ | ⟨e, d', hcleared, hrename, hok⟩
  · have hleft : made.SameBut (fun q => home ++ [tmp] <+: q ∨ home ++ [name] <+: q)
        (d'.removeTree (p.modulesDir.join tmp)).2 := by
      rcases hd' with rfl | hcleared
      · exact hopened.sameBut_removed (.refl _) (.refl _ _)
      · exact hopened.sameBut_removed (hcleared.toExtends (by simp)) (hcleared.sameBut (by simp))
    refine .inl ⟨e, (d'.removeTree (p.modulesDir.join tmp)).2, ?_, .inr ⟨home, tmp, hstage, hleft⟩⟩
    rw [hrun, he]
  · obtain ⟨n, hsettled, hway, hkeep⟩ := hopened.settled hname hcleared hrename
    refine .inr ⟨home, tmp, n, (d'.removeTree (p.modulesDir.join tmp)).2, hstage, ?_,
      ?_, fun hlinks => hopened.eq_dir_of_linkFree hclear hlinks hsettled.source,
      fun hc => hopened.extracted hclear hname hcleared hrename hsettled
        fun d'' => hopened.leads_after hclear hcleared hway hsettled hkeep hc⟩
    · rw [hrun, hok]
    · rintro content rfl
      exact hopened.ne_file content hsettled.source

/-! ## The name of the directory itself -/

theorem settle_dot (hleads : d.Leads p.modulesDir home) (top : Path) {w : World}
    (hdisk : w.disk = d) :
    ∃ e, p.settle "." top w = (.error e, w) ∨
      p.settle "." top w = (.error e, { w with disk := d.eraseBelow home }) := by
  subst hdisk
  have hdot : endsInDot (p.modulesDir.join ".") = true := by
    have hpiece : Path.IsPiece "." := ⟨by decide, by decide⟩
    obtain ⟨front, hpieces⟩ := Path.pieces_join hpiece p.modulesDir
    simp [endsInDot, hpieces]
  unfold settle
  dsimp only
  rw [Act.look_bind]
  cases hfind : w.disk.find false (p.installPath ".") with
  | error fault =>
      have hhas : w.disk.has (p.installPath ".") = false := by
        unfold has
        rw [find_follow (by simp [hfind]), hfind]
      rw [hhas, if_neg (by simp)]
      rcases w.disk.rename_cases_fault top (p.installPath ".") with hnone | ⟨fault', hfault⟩
      · obtain ⟨-, -, s, -, hdst, -⟩ := rename_eq_none hnone
        simp [hfind] at hdst
      · exact ⟨_, .inl (Act.bind_of_error (Act.edit_of_fault hfault _) _)⟩
  | ok s =>
      obtain rfl := hleads.find_dot hfind
      have hhas : w.disk.has (p.installPath ".") = true := by
        unfold has
        rw [find_follow (by simp [hfind]), hfind]
      have hremove : w.disk.removeTree (p.installPath ".") =
          (some .invalidArgument, w.disk.eraseBelow home) := by
        unfold Disk.removeTree
        rw [hfind]
        simp [installPath, hdot]
      rw [if_pos hhas]
      exact ⟨_, .inr (Act.bind_of_error (Act.edit_of_fault hremove _) _)⟩

/-- The dot can be given as a name, but it is never installed. -/
theorem extract_dot_error (p : Packages) (archive : ByteArray) (w : World) :
    ∃ e w', p.extract "." archive w = (.error e, w') := by
  rw [extract_eq]
  rcases p.opening_cases archive (p.settle ".") w rfl with
    ⟨e, he⟩ | ⟨home, tmp, -, ⟨e, d, he, -⟩ | ⟨nodes, child, d, hopened, hrun⟩⟩
  · exact ⟨e, _, he⟩
  · exact ⟨e, _, he⟩
  · rw [hrun]
    obtain ⟨e, hkept | hemptied⟩ := settle_dot (w := { w with disk := d }) hopened.leads
      ((p.modulesDir.join tmp).join child) rfl
    · exact ⟨e, _, by rw [hkept]⟩
    · exact ⟨e, _, by rw [hemptied]⟩

/-- When the dot is to be installed, everything that is installed goes. -/
theorem extract_dot (archive : ByteArray) (w : World) {made : Disk}
    (hmade : (w.disk.makeDirs p.modulesDir).2 = made) (htidy : p.Tidy made) :
    ∃ e d, p.extract "." archive w = (.error e, { w with disk := d }) ∧
      (made.SameBut (fun _ => False) d ∨
        ∃ home, made.Leads p.modulesDir home ∧
          (made.eraseBelow home).SameBut (fun _ => False) d) := by
  rw [extract_eq]
  rcases p.opening_cases archive (p.settle ".") w hmade with
    ⟨e, he⟩ | ⟨home, tmp, hstage, ⟨e, d, he, hsame⟩ | ⟨nodes, child, d, hopened, hrun⟩⟩
  · exact ⟨e, made, he, .inl (.refl _ made)⟩
  · refine ⟨e, _, he, .inl ⟨hsame.here, fun q _ => ?_⟩⟩
    exact hstage.node?_without_tmp (htidy home hstage.leads tmp) hsame.node q
  have hclear := htidy home hstage.leads tmp
  have hhere := hopened.extends_made.here
  obtain ⟨e, hkept | hemptied⟩ := settle_dot (w := { w with disk := d }) hopened.leads
    ((p.modulesDir.join tmp).join child) rfl
  · refine ⟨e, d.without (home ++ [tmp]), ?_, .inl ⟨hhere, fun q _ => ?_⟩⟩
    · rw [hrun, hkept]
      dsimp only
      rw [hstage.removeTree hhere hopened.leads hopened.node?_tmp]
    · exact hstage.node?_without_tmp hclear (fun q hq => hopened.node?_outside hq) q
  · refine ⟨e, ((d.eraseBelow home).removeTree (p.modulesDir.join tmp)).2, ?_,
      .inr ⟨home, hstage.leads, ?_, fun q _ => ?_⟩⟩
    · rw [hrun, hemptied]
    · exact (here_removeTree _ _).trans hhere
    · rw [node?_eraseBelow]
      rcases hstage.node?_removeTree (eraseBelow_extends d home) hopened.leads q with
        hsame | ⟨hq, hnone⟩
      · rw [hsame, node?_eraseBelow]
        split
        · rfl
        · next hq => exact hopened.node?_outside fun htmp => hq (below_of_name htmp)
      · rw [hnone, if_pos (below_of_name hq)]

end Packages

end PartDepot
