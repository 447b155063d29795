import PartDepot.Proofs.Entering
import PartDepot.Proofs.Frame
import PartDepot.Proofs.Regions

/-!
# The state directory

Installing packages changes nothing outside of the state directory of a project.  This counts on two
things: the root of the project leads to the same place whatever stands in the state directory, and
neither this directory nor what the installer puts right into it is a link.
-/

namespace PartDepot

open Disk

theorem Manifest.isPiece_of_isPackageName {name : String} (h : isPackageName name = true) :
    Path.IsPiece name ∧ name ≠ ".." := by
  simp only [isPackageName, Bool.and_eq_true, Bool.not_eq_true'] at h
  obtain ⟨⟨hempty, hseparator⟩, hdots⟩ := h
  refine ⟨⟨by simpa using hempty, fun hslash => ?_⟩, ?_⟩
  · rw [PartId.hasSeparator, ← Bool.not_eq_true, List.any_eq_true] at hseparator
    exact hseparator ⟨'/', hslash, by decide⟩
  · rintro rfl
    revert hdots
    decide

theorem Tar.unpack_below {root : Place} {archive : ByteArray} {nodes : List (Place × Node)}
    (h : Tar.unpack root archive = some nodes) : ∀ e ∈ nodes, root <+: e.1 ∧ e.1 ≠ root := by
  intro e he
  unfold Tar.unpack at h
  simp only [Option.bind_eq_bind, Option.bind_eq_some_iff] at h
  obtain ⟨entries, -, unpacked, -, hnodes⟩ := h
  obtain rfl := Option.some.inj hnodes
  have hkept := (List.mem_filter.mp he).2
  simpa using hkept

/-- The state directory of a project: the path of its root, and the place that path leads to. -/
structure StateDir where
  root : Path
  home : Place

namespace StateDir

def place (s : StateDir) : Place := s.home ++ [".partfetch"]

def modules (s : StateDir) : Place := s.place ++ ["modules"]

def lock (s : StateDir) : Place := s.place ++ ["lock.yaml"]

/-- The root leads to its home whatever stands in the state directory. -/
def Reached (s : StateDir) (d₀ : Disk) : Prop :=
  ∀ d, d₀.SameBut (s.place <+: ·) d →
    ∃ links, d.Enters linkLimit (d.origin s.root) s.root.names links s.home

/-- The disk is the first one but for the state directory, which is no link and shows none. -/
structure Holds (s : StateDir) (d₀ d : Disk) : Prop where
  same : d₀.SameBut (s.place <+: ·) d
  state : d.NoLink s.place
  modules : d.NoLink s.modules
  lock : d.NoLink s.lock

/-- While a package is unpacked, a directory for it stands next to the packages. -/
structure Stages (s : StateDir) (d₀ : Disk) (tmp : String) (d : Disk) : Prop
    extends s.Holds d₀ d where
  staging : d.NoLink (s.modules ++ [tmp])

variable {s : StateDir} {d₀ d d' : Disk}

/-- A root that directories lead to is reached. -/
theorem reached_of_standing {s : StateDir} {d : Disk}
    (hhome : s.home = d.origin s.root ++ s.root.names)
    (hplain : ∀ name ∈ s.root.names, name ≠ "." ∧ name ≠ ".." ∧ name.utf8ByteSize ≤ nameLimit)
    (hdirs : ∀ front, front ≠ [] → front <+: s.root.names →
      d.node? (d.origin s.root ++ front) = some .dir) : s.Reached d := by
  intro d' hsame
  have horigin : d'.origin s.root = d.origin s.root := by
    unfold origin
    rw [hsame.here]
  have hstands : ∀ front, front ≠ [] → front <+: s.root.names →
      d'.node? (d.origin s.root ++ front) = some .dir := by
    intro front hne hfront
    rw [hsame.node, hdirs front hne hfront]
    intro hp
    have hlength := (hp.trans ((List.prefix_append_right_inj _).mpr hfront)).length_le
    simp only [place, hhome, List.length_append, List.length_singleton] at hlength
    omega
  refine ⟨linkLimit, ?_⟩
  rw [horigin, hhome]
  clear hdirs hhome horigin
  generalize d.origin s.root = p at hstands ⊢
  generalize s.root.names = names at hplain hstands ⊢
  induction names generalizing p with
  | nil => simpa using Enters.here
  | cons name rest ih =>
      obtain ⟨hdot, hup, hshort⟩ := hplain name List.mem_cons_self
      have hnext := ih (p ++ [name]) (fun x hx => hplain x (List.mem_cons_of_mem _ hx))
        fun front _ hfront => by
          rw [List.append_assoc]
          exact hstands (name :: front) (by simp) (List.cons_prefix_cons.mpr ⟨rfl, hfront⟩)
      rw [List.append_assoc] at hnext
      refine .on (stride_eq_on_iff.mpr (.inr (.inr ⟨hdot, hup, hshort, ?_, rfl⟩))) hnext
      exact hstands [name] (by simp) (by simp)

theorem place_prefix_modules (s : StateDir) : s.place <+: s.modules :=
  List.prefix_append s.place ["modules"]

theorem Holds.among_modules (h : s.Holds d₀ d) (hsame : d.SameBut (s.modules <+: ·) d')
    (hlink : d'.NoLink s.modules) : s.Holds d₀ d' where
  same := h.same.trans (hsame.mono fun _ hq => s.place_prefix_modules.trans hq)
  state := by
    refine h.state.congr (hsame.node _ fun hp => ?_)
    have hlength := hp.length_le
    simp only [StateDir.modules, List.length_append, List.length_singleton] at hlength
    omega
  modules := hlink
  lock := by
    refine h.lock.congr (hsame.node _ fun hp => ?_)
    simp [StateDir.modules, StateDir.lock] at hp

/-! ## Paths into the state directory -/

theorem Holds.walk_modules (h : s.Holds d₀ d) {follow : Bool} {links : Nat} {rest : List String}
    (hrest : rest ≠ []) {t : Spot}
    (hwalk : d.walk follow links s.home (".partfetch" :: "modules" :: rest) = .ok t) :
    d.walk follow links s.modules rest = .ok t := by
  obtain ⟨-, hstate⟩ := walk_next_name (by decide) (by decide) h.state (by simp) hwalk
  exact (walk_next_name (by decide) (by decide) h.modules hrest hstate).2

section Paths

variable (hreach : s.Reached d₀) {q : Path} {more : List String}

include hreach

theorem Holds.find_modules (h : s.Holds d₀ d)
    (hq : Path.Under s.root (".partfetch" :: "modules" :: more) q) (hmore : more ≠ [])
    {follow : Bool} {t : Spot} (hfind : d.find follow q = .ok t) :
    ∃ links, d.walk follow links s.modules more = .ok t := by
  obtain ⟨links, henters⟩ := hreach d h.same
  exact ⟨links, h.walk_modules hmore (walk_of_find_under henters hq (by simp) hfind)⟩

/-- What has a name among the packages is found there, or is their directory itself. -/
theorem Holds.place_of_find_name (h : s.Holds d₀ d) {name : String} (hup : name ≠ "..")
    (hq : Path.Under s.root [".partfetch", "modules", name] q) {t : Spot}
    (hfind : d.find false q = .ok t) :
    name = "." ∧ t = .taken s.modules .dir ∨
      name ≠ "." ∧ t.place = s.modules ++ [name] ∧ d.node? (s.modules ++ [name]) = t.node? := by
  obtain ⟨links, hwalk⟩ := h.find_modules hreach hq (by simp) hfind
  by_cases hdot : name = "."
  · left
    rw [hdot, walk_cons, stride, if_pos rfl, goOn, walk_nil] at hwalk
    exact ⟨hdot, (Except.ok.inj hwalk).symm⟩
  · exact .inr ⟨hdot, walk_last_name hdot hup (by simp) hwalk⟩

theorem Holds.makeDirs (h : s.Holds d₀ d) {names : List String}
    (hnames : names <+: [".partfetch", "modules"]) (hq : Path.Under s.root names q) :
    s.Holds d₀ (d.makeDirs q).2 := by
  obtain ⟨links, henters⟩ := hreach d h.same
  rcases makeDirs_under henters hq with hmake | hmake
  · have hfront (front : List String) (hne : front ≠ []) (hfront : front <+: names) :
        s.home ++ front = s.place ∨ s.home ++ front = s.modules := by
      have hall := hfront.trans hnames
      simp only [List.prefix_cons_iff, List.prefix_nil] at hall
      rcases hall with rfl | ⟨t, rfl, rfl | ⟨u, rfl, rfl⟩⟩
      · exact absurd rfl hne
      · exact .inl rfl
      · exact .inr (by simp [StateDir.modules, StateDir.place])
    have hway : d.PlainWay s.home names := by
      refine ⟨fun name hname => ?_, fun front hne hprefix => ?_⟩
      · have hmem := hnames.subset hname
        simp only [List.mem_cons, List.not_mem_nil, or_false] at hmem
        rcases hmem with rfl | rfl <;> decide
      · rcases hfront front hne hprefix with hplace | hplace
        · rw [hplace]
          exact h.state
        · rw [hplace]
          exact h.modules
    have hnode := hway.node?_makeDirsFrom
    rw [← hmake] at hnode
    have hlink (p : Place) (hp : d.NoLink p) : (d.makeDirs q).2.NoLink p := by
      rcases hnode p with hsame | ⟨-, hdir⟩
      · exact hp.congr hsame
      · exact noLink_of_dir hdir
    refine ⟨⟨(d.makeDirs_extends q).here.trans h.same.here, fun p hp => ?_⟩,
      hlink _ h.state, hlink _ h.modules, hlink _ h.lock⟩
    rcases hnode p with hsame | ⟨⟨front, hne, hprefix, rfl⟩, -⟩
    · exact hsame.trans (h.same.node p hp)
    · refine absurd ?_ hp
      rcases hfront front hne hprefix with hplace | hplace
      · exact hplace ▸ List.prefix_refl s.place
      · rw [hplace]
        exact s.place_prefix_modules
  · rw [hmake]
    exact h

end Paths

/-! ## What the installer does to the disk -/

theorem Stages.among_modules {tmp : String} (h : s.Stages d₀ tmp d)
    (hsame : d.SameBut (s.modules <+: ·) d') (hmodules : d'.NoLink s.modules)
    (hstaging : d'.NoLink (s.modules ++ [tmp])) : s.Stages d₀ tmp d' :=
  ⟨h.toHolds.among_modules hsame hmodules, hstaging⟩

theorem not_name_prefix_modules (s : StateDir) (name : String) :
    ¬s.modules ++ [name] <+: s.modules := by
  intro hp
  have hlength := hp.length_le
  simp only [List.length_append, List.length_singleton] at hlength
  omega

theorem Stages.unpack {tmp : String} (h : s.Stages d₀ tmp d) {nodes : List (Place × Node)}
    (hnodes : ∀ e ∈ nodes, s.modules ++ [tmp] <+: e.1 ∧ e.1 ≠ s.modules ++ [tmp]) :
    s.Stages d₀ tmp { d with nodes := d.nodes ++ nodes } := by
  have hsame (q : Place) (hq : ¬(s.modules ++ [tmp] <+: q ∧ q ≠ s.modules ++ [tmp])) :
      ({ d with nodes := d.nodes ++ nodes } : Disk).node? q = d.node? q := by
    have hnone : nodes.lookup q = none := by
      refine List.lookup_eq_none_iff.mpr fun e he => ?_
      have hne : q ≠ e.1 := by
        rintro rfl
        exact hq (hnodes e he)
      simpa using hne
    simp [node?, List.lookup_append, hnone]
  refine h.among_modules ⟨rfl, fun q hq => hsame q fun hp => ?_⟩
    (h.modules.congr (hsame _ fun hp => ?_)) (h.staging.congr (hsame _ fun hp => hp.2 rfl))
  · exact hq ((List.prefix_append s.modules [tmp]).trans hp.1)
  · exact s.not_name_prefix_modules tmp hp.1

section Install

variable (hreach : s.Reached d₀) {q : Path}

include hreach

theorem stage (hq : Path.Under s.root [".partfetch", "modules"] q) {staging : Path}
    (hmake : d.makeFresh q = .ok (staging, d')) :
    ∃ tmp, isName tmp = true ∧ staging = q.join tmp ∧ (s.Holds d₀ d → s.Stages d₀ tmp d') := by
  obtain ⟨p, spot, hdir, rfl, hfree, rfl⟩ := makeFresh_eq_ok hmake
  have htmp := freshName_isName d p
  obtain ⟨hdot, hup⟩ := ne_dots_of_isName htmp
  refine ⟨d.freshName p, htmp, rfl, fun h => ?_⟩
  have hfresh := hq.join (isPiece_of_isName htmp)
  rcases h.place_of_find_name hreach hup hfresh hfree with ⟨hroot, -⟩ | ⟨-, hspot, -⟩
  · exact absurd hroot hdot
  · obtain rfl : spot = s.modules ++ [d.freshName p] := hspot
    have hput := node?_put (d := d) (p := s.modules ++ [d.freshName p]) (by simp) .dir
    refine ⟨h.among_modules ⟨rfl, fun p hp => ?_⟩ (h.modules.congr ?_), noLink_of_dir ?_⟩
    · rw [hput, if_neg]
      rintro rfl
      exact hp (List.prefix_append s.modules _)
    · rw [hput, if_neg (by simp)]
    · rw [hput, if_pos rfl]

theorem Holds.removeTree (h : s.Holds d₀ d) {name : String} (hup : name ≠ "..")
    (hq : Path.Under s.root [".partfetch", "modules", name] q) :
    s.Holds d₀ (d.removeTree q).2 := by
  refine h.among_modules ⟨d.here_removeTree q, fun p hp => ?_⟩ fun target => ?_
  · rcases d.node?_removeTree q p with hsame | ⟨-, t, hfind, hplace⟩
    · exact hsame
    · refine absurd (List.IsPrefix.trans ?_ hplace) hp
      rcases h.place_of_find_name hreach hup hq hfind with ⟨-, rfl⟩ | ⟨-, hname, -⟩
      · exact List.prefix_refl _
      · rw [hname]
        exact List.prefix_append _ _
  · rcases d.node?_removeTree q s.modules with hsame | ⟨hgone, -⟩
    · exact h.modules.congr hsame target
    · simp [hgone]

theorem Stages.removeTree {tmp name : String} (h : s.Stages d₀ tmp d) (hup : name ≠ "..")
    (hq : Path.Under s.root [".partfetch", "modules", name] q) :
    s.Stages d₀ tmp (d.removeTree q).2 := by
  refine ⟨h.toHolds.removeTree hreach hup hq, fun target => ?_⟩
  rcases d.node?_removeTree q (s.modules ++ [tmp]) with hsame | ⟨hgone, -⟩
  · exact h.staging.congr hsame target
  · simp [hgone]

/-- A name in the directory that a package was unpacked into stands in that directory. -/
theorem Stages.place_of_find (h : s.Stages d₀ tmp d) (htmp : isName tmp = true) {name : String}
    (hname : isName name = true)
    (hq : Path.Under s.root [".partfetch", "modules", tmp, name] q) {t : Spot}
    (hfind : d.find false q = .ok t) :
    d.node? (s.modules ++ [tmp]) = some .dir ∧ t.place = s.modules ++ [tmp, name] ∧
      d.node? (s.modules ++ [tmp, name]) = t.node? := by
  obtain ⟨links, hwalk⟩ := h.toHolds.find_modules hreach hq (by simp) hfind
  obtain ⟨hdot, hup⟩ := ne_dots_of_isName htmp
  obtain ⟨hdot', hup'⟩ := ne_dots_of_isName hname
  obtain ⟨hdir, hrest⟩ := walk_next_name hdot hup h.staging (by simp) hwalk
  obtain ⟨hplace, hnode⟩ := walk_last_name hdot' hup' (by simp) hrest
  rw [List.append_assoc] at hplace hnode
  exact ⟨hdir, hplace, hnode⟩

end Install

theorem Stages.move {tmp name target : String} (h : s.Stages d₀ tmp d) (htarget : target ≠ tmp)
    {d'' : Disk} (hhere : d''.here = d.here)
    (hsame : ∀ q, q ≠ s.modules ++ [target] → d''.node? q = d.node? q) :
    s.Stages d₀ tmp (d''.move (s.modules ++ [tmp, name]) (s.modules ++ [target])) := by
  have hkeep (q : Place) (ha : ¬s.modules ++ [tmp, name] <+: q)
      (hb : ¬s.modules ++ [target] <+: q) :
      (d''.move (s.modules ++ [tmp, name]) (s.modules ++ [target])).node? q = d.node? q := by
    rw [node?_move_outside d'' ha hb, hsame]
    rintro rfl
    exact hb (List.prefix_refl _)
  refine h.among_modules ⟨hhere, fun q hq => hkeep q (fun ha => ?_) fun hb => ?_⟩
    (h.modules.congr (hkeep _ (fun ha => ?_) (s.not_name_prefix_modules target)))
    (h.staging.congr (hkeep _ (fun ha => ?_) fun hb => ?_))
  · exact hq ((List.prefix_append _ _).trans ha)
  · exact hq ((List.prefix_append _ _).trans hb)
  · have hlength := ha.length_le
    simp only [List.length_append, List.length_cons, List.length_nil] at hlength
    omega
  · have hlength := ha.length_le
    simp only [List.length_append, List.length_cons, List.length_nil] at hlength
    omega
  · have hsame := List.IsPrefix.eq_of_length hb (by simp)
    exact htarget (by simpa using hsame)

theorem Stages.rename (hreach : s.Reached d₀) {tmp name target : String} {top dst : Path}
    (h : s.Stages d₀ tmp d) (htmp : isName tmp = true) (hname : isName name = true)
    (htop : Path.Under s.root [".partfetch", "modules", tmp, name] top)
    (hup : target ≠ "..")
    (hdst : Path.Under s.root [".partfetch", "modules", target] dst) :
    s.Stages d₀ tmp (d.rename top dst).2 := by
  rcases d.rename_cases top dst with hsame | ⟨a, n, hsrc, hmoved⟩
  · rw [hsame]
    exact h
  obtain ⟨hdir, hplace, hnode⟩ := h.place_of_find hreach htmp hname htop hsrc
  obtain rfl : a = s.modules ++ [tmp, name] := hplace
  rcases hmoved with ⟨b, hfree, hdisk⟩ | ⟨b, m, htaken, hkinds, hdisk⟩
  · rcases h.toHolds.place_of_find_name hreach hup hdst hfree with ⟨-, hroot⟩ | ⟨-, hb, hnone⟩
    · simp at hroot
    · obtain rfl : b = s.modules ++ [target] := hb
      rw [hdisk]
      refine h.move (fun hself => ?_) rfl fun _ _ => rfl
      rw [hself, hdir] at hnone
      simp [Spot.node?] at hnone
  · -- A directory gives way only when it is empty, which is true neither of the one that all
    -- packages are in nor of the one that this package was unpacked into.
    have hfull (p : Place) (child : String) (hchild : isName child = true) {k : Node}
        (hk : d.node? (p ++ [child]) = some k) : d.names p ≠ [] := fun hempty => by
      have hmem := mem_names hchild hk
      simp [hempty] at hmem
    rcases h.toHolds.place_of_find_name hreach hup hdst htaken with ⟨-, hroot⟩ | ⟨-, hb, hsome⟩
    · obtain ⟨rfl, rfl⟩ := Spot.taken.inj hroot
      rcases hkinds with ⟨-, -, hempty⟩ | ⟨-, hm⟩
      · exact absurd hempty (hfull s.modules tmp htmp hdir)
      · exact absurd rfl hm
    · obtain rfl : b = s.modules ++ [target] := hb
      rw [hdisk]
      refine h.move (fun hself => ?_) rfl fun q hq => ?_
      · rw [hself, hdir] at hsome
        obtain rfl : Node.dir = m := by simpa [Spot.node?] using hsome
        rcases hkinds with ⟨-, -, hempty⟩ | ⟨-, hm⟩
        · have hchild : d.node? (s.modules ++ [tmp] ++ [name]) = some n := by
            rw [List.append_assoc]
            exact hnode
          exact hfull (s.modules ++ [tmp]) name hname hchild (hself ▸ hempty)
        · exact hm rfl
      · rw [node?_erase (by simp), if_neg hq]

theorem Holds.write (hreach : s.Reached d₀) (h : s.Holds d₀ d) {q : Path}
    (hq : Path.Under s.root [".partfetch", "lock.yaml"] q) (content : ByteArray) :
    s.Holds d₀ (d.write q content).2 := by
  have hput : s.Holds d₀ (d.put s.lock (.file content)) := by
    have hnode := node?_put (d := d) (p := s.lock) (by simp [StateDir.lock]) (.file content)
    refine ⟨⟨h.same.here, fun p hp => ?_⟩, h.state.congr ?_, h.modules.congr ?_, fun target => ?_⟩
    · rw [hnode, if_neg]
      · exact h.same.node p hp
      · rintro rfl
        exact hp (List.prefix_append s.place _)
    · rw [hnode, if_neg (by simp [StateDir.lock])]
    · rw [hnode, if_neg (by simp [StateDir.lock, StateDir.modules])]
    · rw [hnode, if_pos rfl]
      simp
  obtain ⟨links, henters⟩ := hreach d h.same
  have hplace (t : Spot) (hfind : d.find true q = .ok t) : t.place = s.lock := by
    have hwalk := walk_of_find_under henters hq (by simp) hfind
    obtain ⟨-, hstate⟩ := walk_next_name (by decide) (by decide) h.state (by simp) hwalk
    exact (walk_last_name (by decide) (by decide) (fun _ => h.lock) hstate).1
  unfold Disk.write
  cases hfind : d.find true q with
  | error fault => exact h
  | ok t =>
      have hlock := hplace t hfind
      cases t with
      | free place =>
          obtain rfl : place = s.lock := hlock
          exact hput
      | taken place n =>
          obtain rfl : place = s.lock := hlock
          cases n with
          | file old => exact hput
          | dir => exact h
          | link target => exact h

end StateDir

/-! ## What the installer keeps -/

open Act

/-- The disk keeps a property, and the clock goes on. -/
structure World.Within (P : Disk → Prop) (w w' : World) : Prop where
  disk : P w.disk → P w'.disk
  clock : ∃ k, ∀ n, w'.clock n = w.clock (n + k)

namespace World

variable {P : Disk → Prop}

theorem Within.of_disk {w : World} {d : Disk} (h : P w.disk → P d) :
    w.Within P { w with disk := d } := ⟨h, 0, fun _ => rfl⟩

instance : World.Frame (Within P) where
  refl w := ⟨id, 0, fun _ => rfl⟩
  trans := by
    rintro u v w ⟨hdisk, k, hk⟩ ⟨hdisk', k', hk'⟩
    refine ⟨fun hu => hdisk' (hdisk hu), k' + k, fun n => ?_⟩
    rw [hk', hk, Nat.add_assoc]
  noted w e _ := ⟨id, 0, fun _ => rfl⟩
  ticked w := ⟨id, 1, fun _ => rfl⟩
  sent w r _ := ⟨id, 0, fun _ => rfl⟩

end World

namespace Packages

variable {p : Packages} {s : StateDir} {d₀ : Disk}

section Extract

variable (hstate : p.stateDir = s.root.join ".partfetch")

include hstate

theorem modulesDir_under : Path.Under s.root [".partfetch", "modules"] p.modulesDir := by
  unfold modulesDir
  rw [hstate]
  exact (Path.under_join ⟨by decide, by decide⟩ s.root).join ⟨by decide, by decide⟩

theorem lockPath_under : Path.Under s.root [".partfetch", "lock.yaml"] p.lockPath := by
  unfold lockPath
  rw [hstate]
  exact (Path.under_join ⟨by decide, by decide⟩ s.root).join ⟨by decide, by decide⟩

theorem parent?_lockPath : p.lockPath.parent? = some p.stateDir := by
  have hname : Path.IsPiece ".partfetch" := ⟨by decide, by decide⟩
  obtain ⟨front, hpieces⟩ := Path.pieces_join hname s.root
  unfold lockPath
  rw [hstate]
  exact Path.parent?_join hpieces (by decide) (by decide) ⟨by decide, by decide⟩ (by decide)

variable (hreach : s.Reached d₀)

include hreach

omit hstate hreach in
theorem exists_name_of_firstDirectory? {dir top : Path} {w : World}
    (h : firstDirectory? dir w = some top) : ∃ name, isName name = true ∧ top = dir.join name := by
  unfold firstDirectory? at h
  split at h
  · next names hlist =>
    obtain ⟨name, hname, rfl⟩ := List.mem_map.mp (List.mem_of_find?_eq_some h)
    refine ⟨name, ?_, rfl⟩
    rw [(w.listing.perm names).mem_iff] at hname
    unfold list at hlist
    cases hfind : w.disk.find true dir with
    | error fault => simp [hfind, bind, Except.bind] at hlist
    | ok t =>
        cases t with
        | free place => simp [hfind, bind, Except.bind] at hlist
        | taken place n =>
            cases n with
            | dir =>
                have hnames : w.disk.names place = names := by
                  simpa [hfind, bind, Except.bind] using hlist
                exact isName_of_mem_names (hnames ▸ hname)
            | file content => simp [hfind, bind, Except.bind] at hlist
            | link target => simp [hfind, bind, Except.bind] at hlist
  · simp at h

theorem unpack_within {tmp : String} (htmp : isName tmp = true) (archive : ByteArray) :
    (unpack (p.modulesDir.join tmp) archive).Keeps (World.Within (s.Stages d₀ tmp)) := by
  intro w
  unfold unpack
  split
  · next place hfind =>
    split
    · next nodes hnodes =>
      refine .of_disk fun h => ?_
      have hq := (modulesDir_under hstate).join (isPiece_of_isName htmp)
      obtain ⟨links, hwalk⟩ := h.toHolds.find_modules hreach hq (by simp) hfind
      obtain ⟨hdot, hup⟩ := ne_dots_of_isName htmp
      obtain ⟨hplace, -⟩ := walk_last_name hdot hup (fun _ => h.staging) hwalk
      obtain rfl : place = s.modules ++ [tmp] := hplace
      exact h.unpack (Tar.unpack_below hnodes)
    · exact World.Frame.refl w
  · exact World.Frame.refl w
  · exact World.Frame.refl w

theorem withStaging_within {α : Type} {body : Path → Act Failure α}
    (hbody : ∀ {tmp : String}, isName tmp = true →
      (body (p.modulesDir.join tmp)).Keeps (World.Within (s.Stages d₀ tmp))) :
    (p.withStaging body).Keeps (World.Within (s.Holds d₀)) := by
  have hmodules := modulesDir_under hstate
  intro w
  unfold withStaging
  cases hmake : w.disk.makeFresh p.modulesDir with
  | error fault => exact World.Frame.refl w
  | ok made =>
      obtain ⟨staging, d⟩ := made
      obtain ⟨tmp, htmp, rfl, hstage⟩ := StateDir.stage hreach hmodules hmake
      have hrun := hbody htmp { w with disk := d }
      refine ⟨fun h => ?_, hrun.clock⟩
      have hpath := hmodules.join (isPiece_of_isName htmp)
      exact (hrun.disk (hstage h)).toHolds.removeTree hreach (ne_dots_of_isName htmp).2 hpath

theorem extract_within {name : String} (hname : Manifest.isPackageName name = true)
    (archive : ByteArray) : (p.extract name archive).Keeps (World.Within (s.Holds d₀)) := by
  obtain ⟨hpiece, hup⟩ := Manifest.isPiece_of_isPackageName hname
  have hmodules := modulesDir_under hstate
  have htarget : Path.Under s.root [".partfetch", "modules", name] (p.installPath name) :=
    hmodules.join hpiece
  have hdirs (w : World) :
      w.Within (s.Holds d₀) { w with disk := (w.disk.makeDirs p.modulesDir).2 } :=
    .of_disk fun h => h.makeDirs hreach (List.prefix_refl _) hmodules
  unfold extract
  refine (keeps_edit _ hdirs).bind fun _ => withStaging_within hstate hreach fun {tmp} htmp => ?_
  refine (unpack_within hstate hreach htmp archive).bind fun _ => keeps_look_bind fun w => ?_
  cases hfirst : firstDirectory? (p.modulesDir.join tmp) w with
  | none => exact World.Frame.refl w
  | some top =>
      obtain ⟨child, hchild, rfl⟩ := exists_name_of_firstDirectory? hfirst
      have htop := (hmodules.join (isPiece_of_isName htmp)).join (isPiece_of_isName hchild)
      have hrename : (do
          Act.edit (·.rename ((p.modulesDir.join tmp).join child) (p.installPath name)) fun f =>
            .context s!"Failed to install package to {(p.installPath name).text}" (.refused f)
          return p.installPath name : Act Failure Path).Keeps
            (World.Within (s.Stages d₀ tmp)) := by
        refine (keeps_edit _ fun w => .of_disk fun h => ?_).bind fun _ => keeps_pure _
        exact h.rename hreach htmp hchild htop hup htarget
      refine (keeps_look_bind fun w => ?_ : Act.Keeps _ _) w
      dsimp only
      split
      · refine ((keeps_edit _ fun w => .of_disk fun h => ?_).bind fun _ => hrename) w
        exact h.removeTree hreach hup htarget
      · exact hrename w

theorem save_within (lock : Lock) : (lock.save p.lockPath).Keeps (World.Within (s.Holds d₀)) := by
  have hplace : Path.Under s.root [".partfetch"] p.stateDir :=
    hstate ▸ Path.under_join ⟨by decide, by decide⟩ s.root
  have hdirs (w : World) :
      w.Within (s.Holds d₀) { w with disk := (w.disk.makeDirs p.stateDir).2 } :=
    .of_disk fun h => h.makeDirs hreach (by decide) hplace
  unfold Lock.save
  rw [parent?_lockPath hstate]
  refine (keeps_edit _ hdirs).bind fun _ => keeps_now.bind fun time => ?_
  exact keeps_edit _ fun w => .of_disk fun h => h.write hreach (lockPath_under hstate) _

/-- Installing what a project wants changes its state directory and nothing else. -/
theorem installMissing_within
    (hwanted : ∀ dep ∈ p.wanted, Manifest.isPackageName dep.name = true) :
    p.installMissing.Keeps (World.Within (s.Holds d₀)) :=
  p.installMissing_keeps (fun dep h => extract_within hstate hreach (hwanted dep h))
    (save_within hstate hreach)

end Extract

end Packages

end PartDepot
