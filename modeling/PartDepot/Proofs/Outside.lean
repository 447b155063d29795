import PartDepot.Proofs.Apart

/-!
# A cache outside of the project

On a disk without links, a project and a cache directory that is not inside of it are apart, if the
entry neither climbs nor leads into the state directory.
-/

namespace PartDepot

open Disk

/-! ## Where a search for a project looks -/

/-- Where a path leads on a disk without links, unless it climbs. -/
def Disk.along (d : Disk) (p : Path) : Place := d.origin p ++ p.way

theorem Disk.names_of_isFile {d : Disk} {p : Path} (h : d.isFile p = true) :
    ∃ front last, p.steps = front ++ [last] ∧ last ≠ "." ∧ p.names = front ++ [last] := by
  unfold isFile at h
  split at h
  · next q content hfind =>
    cases hstart : d.start p with
    | error fault => simp [find_of_no_start hstart] at hfind
    | ok place =>
        rw [find_of_start hstart] at hfind
        rcases List.eq_nil_or_concat p.steps with hnone | ⟨front, last, hsteps⟩
        · rw [hnone, walk_nil] at hfind
          simp at hfind
        · rw [List.concat_eq_append] at hsteps
          have hdot : last ≠ "." := by
            rintro rfl
            exact walk_dot_ne_file d true linkLimit place front q content (hsteps ▸ hfind)
          refine ⟨front, last, hsteps, hdot, ?_⟩
          unfold Path.steps at hsteps
          dsimp only at hsteps
          split at hsteps
          · obtain ⟨-, hlast⟩ := List.append_inj' hsteps rfl
            exact absurd (List.singleton_inj.mp hlast).symm hdot
          · exact hsteps
  · simp at h

namespace Project

/-- What an entry is about: the path that it is, or where the search for a project starts. -/
def aim (d : Disk) (entry : Option String) : Path :=
  match entry.map EntryPoint.parse with
  | some (.path p) => p
  | _ => start d entry

theorem start_cases (d : Disk) (entry : Option String) :
    (start d entry = aim d entry ∧ ∀ d₂ : Disk, d₂.here = d.here →
        d₂.isFile (aim d entry) = d.isFile (aim d entry) → start d₂ entry = start d entry) ∨
      (d.isFile (aim d entry) = true ∧ start d entry = folder (aim d entry) ∧ ∀ d₂ : Disk,
        d₂.isFile (aim d entry) = true → start d₂ entry = start d entry) := by
  cases entry with
  | none =>
      refine .inl ⟨rfl, fun d₂ hhere _ => ?_⟩
      change d₂.workingDirectory = d.workingDirectory
      unfold workingDirectory
      rw [hhere]
  | some text =>
      cases hparse : EntryPoint.parse text with
      | address file module =>
          left
          simp [start, aim, hparse]
      | path p =>
          have haim : aim d (some text) = p := by simp [aim, hparse]
          rw [haim]
          cases hfile : d.isFile p with
          | true =>
              refine .inr ⟨rfl, by simp [start, hparse, hfile], fun d₂ hfile₂ => ?_⟩
              simp [start, hparse, hfile, hfile₂]
          | false =>
              refine .inl ⟨by simp [start, hparse, hfile], fun d₂ _ hfile₂ => ?_⟩
              simp [start, hparse, hfile, hfile₂]

theorem start_way (d : Disk) (entry : Option String) :
    (start d entry).way <+: (aim d entry).way ∧
      (start d entry).isAbsolute = (aim d entry).isAbsolute := by
  rcases start_cases d entry with ⟨hsame, -⟩ | ⟨hfile, hfolder, -⟩
  · rw [hsame]
    exact ⟨List.prefix_refl _, rfl⟩
  · cases hparent : (aim d entry).parent? with
    | some above =>
        rw [hfolder, folder, hparent]
        exact Path.parent?_way hparent
    | none =>
        obtain ⟨front, last, -, hdot, hnames⟩ := names_of_isFile hfile
        have hway := Path.way_of_no_parent hparent
        rw [Path.way, hnames, List.filter_append] at hway
        simp [hdot] at hway

/-- Where a search upwards ends, and that nothing above that was looked at. -/
theorem firstAbove_way {holds : Path → Bool} {count : Nat} {p root : Path}
    (h : firstAbove holds count p = some root) :
    root.way <+: p.way ∧ root.isAbsolute = p.isAbsolute ∧ ∀ holds' : Path → Bool,
      (∀ q : Path, root.way <+: q.way → q.way <+: p.way → q.isAbsolute = p.isAbsolute →
        holds' q = holds q) → firstAbove holds' count p = some root := by
  induction count generalizing p with
  | zero => simp [firstAbove] at h
  | succ count ih =>
      rw [firstAbove] at h
      cases hholds : holds p with
      | true =>
          rw [hholds, if_pos rfl] at h
          obtain rfl := Option.some.inj h
          refine ⟨List.prefix_refl _, rfl, fun holds' hsame => ?_⟩
          rw [firstAbove, hsame p (List.prefix_refl _) (List.prefix_refl _) rfl, hholds, if_pos rfl]
      | false =>
          rw [hholds, if_neg (by simp)] at h
          cases hparent : p.parent? with
          | none => simp [hparent] at h
          | some above =>
              rw [hparent] at h
              obtain ⟨hway, habsolute⟩ := Path.parent?_way hparent
              obtain ⟨hroot, hrootAbsolute, hothers⟩ := ih h
              refine ⟨hroot.trans hway, hrootAbsolute.trans habsolute, fun holds' hsame => ?_⟩
              have hfirst := hsame p (hroot.trans hway) (List.prefix_refl _) rfl
              rw [firstAbove, hfirst, hholds, if_neg (by simp), hparent]
              exact hothers holds' fun q hq hq' hqAbsolute =>
                hsame q hq (hq'.trans hway) (hqAbsolute.trans habsolute)

end Project

/-! ## Caches that are not in the project -/

/-- A disk without links, and a cache directory that is not inside of the project at home. -/
structure Cache.Outside (c : Cache) (d : Disk) (home : Place) : Prop where
  links : ∀ q, d.NoLink q
  steps : c.dir.steps = c.dir.names
  plain : ∀ name ∈ c.dir.names, name ≠ "." ∧ name ≠ ".."
  apart : ¬home <+: d.origin c.dir ++ c.dir.names

namespace Cache.Outside

variable {c : Cache} {d d₁ d₂ : Disk} {home : Place}

theorem plainWay (h : c.Outside d home) {names : List String} (hup : ".." ∉ names)
    (hdot : "." ∉ names) (p : Place) : d.PlainWay p names := by
  refine ⟨fun name hname => ⟨?_, ?_⟩, fun _ _ _ => h.links _⟩
  · rintro rfl
    exact hdot hname
  · rintro rfl
    exact hup hname

theorem not_home_prefix_entry (h : c.Outside d home) (id : PartId) :
    ¬home ++ [".partfetch"] <+: d.origin c.dir ++ c.dir.names ++ [entryName id] := by
  intro hp
  rcases List.prefix_concat_iff.mp hp with hsame | hp
  · obtain ⟨-, hlast⟩ := List.append_inj' hsame rfl
    have htext := congrArg String.toList (List.singleton_inj.mp hlast)
    rw [entryName_toList] at htext
    have hend := congrArg List.getLast? htext
    simp [List.getLast?_append] at hend
  · exact h.apart ((List.prefix_append home _).trans hp)

section Installed

variable (h : c.Outside d home) (hsame : d.SameBut (home ++ [".partfetch"] <+: ·) d₁)

include h hsame

theorem plainWay_entry (id : PartId) :
    (d₁.makeDirs c.dir).2.PlainWay (d₁.origin c.dir) (c.dir.names ++ [entryName id]) := by
  have horigin : d₁.origin c.dir = d.origin c.dir := by
    unfold origin
    rw [hsame.here]
  refine ⟨fun x hx => ?_, fun front _ hfront => ?_⟩
  · rcases List.mem_append.mp hx with hx | hx
    · exact h.plain x hx
    · rw [List.mem_singleton.mp hx]
      exact ⟨entryName_ne_dot id, entryName_ne_up id⟩
  · rw [horigin]
    have hout : ¬home ++ [".partfetch"] <+: d.origin c.dir ++ front := by
      intro hp
      refine h.not_home_prefix_entry id (hp.trans ?_)
      rw [List.append_assoc]
      exact (List.prefix_append_right_inj _).mpr hfront
    rcases d₁.node?_makeDirs c.dir (d.origin c.dir ++ front) with hnode | ⟨-, hdir⟩
    · exact (h.links _).congr (hnode.trans (hsame.node _ hout))
    · exact noLink_of_dir hdir

theorem eq_of_hasEntryAt {q : Place} (hq : c.HasEntryAt d₁ q) :
    ∃ id, q = d.origin c.dir ++ c.dir.names ++ [entryName id] := by
  obtain ⟨id, s, hfind, rfl⟩ := hq
  have hhere := (d₁.makeDirs_extends c.dir).here
  have hwalk := walk_of_find_join (entryName_isPiece id) hfind
  rw [origin, hhere, ← origin] at hwalk
  obtain ⟨hs, -⟩ := (h.plainWay_entry hsame id).place (by simp) hwalk
  refine ⟨id, ?_⟩
  rw [hs, origin, origin, hsame.here, List.append_assoc]

theorem prefix_of_made {q : Place} (hnone : d₁.node? q = none)
    (hdir : (d₁.makeDirs c.dir).2.node? q = some .dir) :
    q <+: d.origin c.dir ++ c.dir.names := by
  have hway : d₁.PlainWay (d.origin c.dir) c.dir.names := by
    refine ⟨h.plain, fun front _ hfront => (h.links _).congr (hsame.node _ fun hp => ?_)⟩
    refine h.apart ((List.prefix_append home _).trans (hp.trans ?_))
    exact (List.prefix_append_right_inj _).mpr hfront
  unfold Disk.makeDirs at hdir
  split at hdir
  · simp [hnone] at hdir
  · cases hstart : d₁.start c.dir with
    | error fault => simp [hstart, hnone] at hdir
    | ok place =>
        have hplace : place = d.origin c.dir := by
          rw [start_eq hstart, origin, origin, hsame.here]
        rw [hstart, hplace, h.steps] at hdir
        rcases hway.node?_makeDirsFrom q with hold | ⟨⟨front, -, hfront, rfl⟩, -⟩
        · dsimp only at hdir
          rw [hold, hnone] at hdir
          simp at hdir
        · exact (List.prefix_append_right_inj _).mpr hfront

theorem direct : c.Direct (d₁.makeDirs c.dir).2 := by
  intro id place target hfind
  have hway := h.plainWay_entry hsame id
  have hhere := (d₁.makeDirs_extends c.dir).here
  have hwalk := walk_of_find_join (entryName_isPiece id) hfind
  rw [origin, hhere, ← origin] at hwalk
  obtain ⟨-, hnode⟩ := hway.place (by simp) hwalk
  exact absurd hnode (hway.links _ (by simp) (List.prefix_refl _) target)

theorem node?_inside (hfilled : c.Filled d₁ d₂) {q : Place} (hin : home <+: q)
    (hout : ¬home ++ [".partfetch"] <+: q) (hself : q = home → d.node? q = some .dir) :
    d₂.node? q = d.node? q := by
  have hkept := hsame.node q hout
  rcases hfilled.node q with hsame' | ⟨hnone, -, hmade⟩ | ⟨hnot, -, hentry⟩
  · exact hsame'.trans hkept
  · exact absurd (hin.trans (h.prefix_of_made hsame hnone hmade)) h.apart
  · obtain ⟨id, hq⟩ := h.eq_of_hasEntryAt hsame hentry
    rw [hq] at hin
    rcases List.prefix_concat_iff.mp hin with hhome | hcache
    · exact absurd (hkept.trans (hself (hq.trans hhome.symm))) hnot
    · exact absurd hcache h.apart

end Installed

end Cache.Outside

/-! ## Finding the project again -/

section Search

variable {c : Cache} {d d₁ d₂ : Disk} {root aim : Path}
  (h : c.Outside d (d.along root)) (hsame : d.SameBut (d.along root ++ [".partfetch"] <+: ·) d₁)
  (hfilled : c.Filled d₁ d₂) (hway : root.way <+: aim.way)
  (habsolute : root.isAbsolute = aim.isAbsolute) (hstraight : ".." ∉ aim.names)
  (hclear : ¬d.along root ++ [".partfetch"] <+: d.along aim)
  (hdirs : ∀ front, front ≠ [] → front <+: root.way → d.node? (d.origin aim ++ front) = some .dir)

include h hsame hfilled hway habsolute hclear hdirs

theorem Cache.Outside.node?_along {front : List String} (hne : front ≠ [])
    (hfront : front <+: aim.way) :
    d₂.node? (d.origin aim ++ front) = d.node? (d.origin aim ++ front) := by
  have horigin : d.along root = d.origin aim ++ root.way := by
    unfold along origin
    rw [habsolute]
  have hout : ¬d.along root ++ [".partfetch"] <+: d.origin aim ++ front := fun hp =>
    hclear (hp.trans ((List.prefix_append_right_inj _).mpr hfront))
  rcases List.prefix_or_prefix_of_prefix hfront hway with habove | hbelow
  · have hdir := hdirs front hne habove
    rw [hfilled.dir ((hsame.node _ hout).trans hdir), hdir]
  · refine h.node?_inside hsame hfilled ?_ hout fun hself => ?_
    · rw [horigin]
      exact (List.prefix_append_right_inj _).mpr hbelow
    · rw [horigin, List.append_cancel_left_eq] at hself
      exact hdirs front hne (hself ▸ List.prefix_refl _)

include hstraight

theorem Cache.Outside.find_projectFile {q : Path} (hroot : root.way <+: q.way)
    (hq : q.way <+: aim.way) (hqAbsolute : q.isAbsolute = aim.isAbsolute) :
    d₂.find true (q.join Project.fileName) = d.find true (q.join Project.fileName) := by
  have hpiece : Path.IsPiece Project.fileName := ⟨by decide, by decide⟩
  have horigin : d.along root = d.origin aim ++ root.way := by
    unfold along origin
    rw [habsolute]
  have hplain : d.PlainWay (d.origin aim) (q.way ++ [Project.fileName]) := by
    refine h.plainWay (fun hup => ?_) (fun hdot => ?_) _
    · rcases List.mem_append.mp hup with hup | hup
      · exact hstraight (List.mem_filter.mp (hq.subset hup)).1
      · exact absurd (List.mem_singleton.mp hup) (by decide)
    · rcases List.mem_append.mp hdot with hdot | hdot
      · simp [Path.way] at hdot
      · exact absurd (List.mem_singleton.mp hdot) (by decide)
  have hnode : ∀ front, front ≠ [] → front <+: q.way ++ [Project.fileName] →
      d₂.node? (d.origin aim ++ front) = d.node? (d.origin aim ++ front) := by
    intro front hne hfront
    rcases List.prefix_concat_iff.mp hfront with rfl | hfront
    · refine h.node?_inside hsame hfilled ?_ (fun hp => ?_) fun hself => ?_
      · rw [horigin]
        exact (List.prefix_append_right_inj _).mpr (hroot.trans (List.prefix_append _ _))
      · rw [← List.append_assoc] at hp
        rcases List.prefix_concat_iff.mp hp with hlast | hp
        · obtain ⟨-, hlast⟩ := List.append_inj' hlast rfl
          exact absurd (List.singleton_inj.mp hlast) (by decide)
        · exact hclear (hp.trans ((List.prefix_append_right_inj _).mpr hq))
      · rw [horigin, List.append_cancel_left_eq] at hself
        have hlength := congrArg List.length hself
        have hshort := hroot.length_le
        rw [List.length_append, List.length_singleton] at hlength
        omega
    · exact h.node?_along hsame hfilled hway habsolute hclear hdirs hne (hfront.trans hq)
  have hstart : d₂.start (q.join Project.fileName) = d.start (q.join Project.fileName) :=
    start_congr (hfilled.here.trans hsame.here) _
  cases hd : d.start (q.join Project.fileName) with
  | error fault => rw [find_of_no_start hd, find_of_no_start (hstart.trans hd)]
  | ok place =>
      have hplace : place = d.origin aim := by
        rw [start_eq hd, origin, origin, Path.isAbsolute_join hpiece, hqAbsolute]
      rw [find_of_start hd, find_of_start (hstart.trans hd), hplace, Path.steps_join hpiece,
        ← d₂.walk_dotless, ← d.walk_dotless]
      exact hplain.walk_congr hnode true linkLimit

theorem Cache.Outside.isFile_aim : d₂.isFile aim = d.isFile aim := by
  have hhere : d₂.here = d.here := hfilled.here.trans hsame.here
  have hfind : ∀ front last, aim.steps = front ++ [last] → last ≠ "." →
      aim.names = front ++ [last] → d₂.find true aim = d.find true aim := by
    intro front last hsteps hdot hnames
    have hsplit : aim.way = front.filter (· ≠ ".") ++ [last] := by
      rw [Path.way, hnames, List.filter_append]
      simp [hdot]
    have hplain : d.PlainWay (d.origin aim) (front.filter (· ≠ ".") ++ [last]) := by
      rw [← hsplit]
      refine h.plainWay (fun hup => ?_) (fun hdot => ?_) _
      · exact hstraight (List.mem_filter.mp hup).1
      · simp [Path.way] at hdot
    cases hstart : d.start aim with
    | error fault =>
        rw [find_of_no_start hstart, find_of_no_start ((start_congr hhere aim).trans hstart)]
    | ok place =>
        rw [find_of_start hstart, find_of_start ((start_congr hhere aim).trans hstart),
          start_eq hstart, hsteps, ← d₂.walk_dotless, ← d.walk_dotless]
        refine hplain.walk_congr (fun front hne hfront => ?_) true linkLimit
        rw [← hsplit] at hfront
        exact h.node?_along hsame hfilled hway habsolute hclear hdirs hne hfront
  rw [Bool.eq_iff_iff]
  constructor
  · intro hfile
    obtain ⟨front, last, hsteps, hdot, hnames⟩ := names_of_isFile hfile
    unfold isFile at hfile ⊢
    rwa [hfind front last hsteps hdot hnames] at hfile
  · intro hfile
    obtain ⟨front, last, hsteps, hdot, hnames⟩ := names_of_isFile hfile
    unfold isFile at hfile ⊢
    rwa [hfind front last hsteps hdot hnames]

end Search

theorem Project.Owns.below {p : Project} {c : Cache} {d : Disk} (h : c.Outside d (d.along p.root))
    (hstraight : ".." ∉ p.root.way) {q : Place} (hq : p.Owns d q) :
    d.along p.root ++ [".partfetch"] <+: q := by
  obtain ⟨s, hfind, hplace⟩ := hq
  have hname : Path.IsPiece ".partfetch" := ⟨by decide, by decide⟩
  have hplain : d.PlainWay (d.origin p.root) (p.root.way ++ [".partfetch"]) := by
    refine h.plainWay (fun hup => ?_) (fun hdot => ?_) _
    · rcases List.mem_append.mp hup with hup | hup
      · exact hstraight hup
      · exact absurd (List.mem_singleton.mp hup) (by decide)
    · rcases List.mem_append.mp hdot with hdot | hdot
      · simp [Path.way] at hdot
      · exact absurd (List.mem_singleton.mp hdot) (by decide)
  have hwalk := walk_of_find_join hname hfind
  rw [← walk_dotless] at hwalk
  obtain ⟨hs, -⟩ := hplain.place (by simp) hwalk
  rw [hs] at hplace
  rwa [along, List.append_assoc]

theorem Project.firstAbove_of_discover {p : Project} {entry : Option String} {d : Disk}
    (h : discover d entry = .ok p) :
    firstAbove (isRoot d) ((start d entry).pieces.length + 1) (start d entry) = some p.root := by
  obtain ⟨hfound, -⟩ := discover_eq_ok_iff.mp h
  unfold findRoot at hfound
  split at hfound
  · next root habove =>
    rw [habove, Except.ok.inj hfound]
  · simp at hfound

/-- Where the entry does not climb, neither does the root. -/
theorem Project.straight_of_discover {p : Project} {entry : Option String} {d : Disk}
    (h : discover d entry = .ok p) (hstraight : ".." ∉ (aim d entry).names) :
    ".." ∉ p.root.way := by
  obtain ⟨hroot, -⟩ := firstAbove_way (firstAbove_of_discover h)
  intro hup
  have hmem := (hroot.trans (start_way d entry).1).subset hup
  exact hstraight (List.mem_filter.mp hmem).1

/-- On a disk without links, a project and a cache outside of it are apart, for an entry that does
not climb and does not lead into the state directory. -/
theorem Project.apart_of_outside {p : Project} {entry : Option String} {c : Cache} {d : Disk}
    (h : c.Outside d (d.along p.root)) (hstraight : ".." ∉ (aim d entry).names)
    (hclear : ¬d.along p.root ++ [".partfetch"] <+: d.along (aim d entry))
    (hproject : discover d entry = .ok p) : p.Apart entry c d := by
  obtain ⟨-, text, htext, hparse⟩ := discover_eq_ok_iff.mp hproject
  obtain ⟨hstartWay, hstartAbsolute⟩ := start_way d entry
  obtain ⟨hrootWay, hrootAbsolute, hothers⟩ := firstAbove_way (firstAbove_of_discover hproject)
  have hway := hrootWay.trans hstartWay
  have habsolute := hrootAbsolute.trans hstartAbsolute
  have hrootStraight := straight_of_discover hproject hstraight
  have hdirs : ∀ front, front ≠ [] → front <+: p.root.way →
      d.node? (d.origin (aim d entry) ++ front) = some .dir := by
    intro front hne hfront
    obtain ⟨s, hfile⟩ := find_file_of_discover hproject
    have hwalk := walk_of_find_join ⟨by decide, by decide⟩ hfile
    rw [← walk_dotless, origin, habsolute] at hwalk
    have hplain := h.plainWay hrootStraight (by simp [Path.way]) (d.origin (aim d entry))
    exact hplain.dirs (by simp) hwalk hne hfront
  have howned {d₁ : Disk} (howns : d.SameBut (p.Owns d) d₁) :
      d.SameBut (d.along p.root ++ [".partfetch"] <+: ·) d₁ :=
    howns.mono fun _ hq => hq.below h hrootStraight
  refine ⟨fun s _ => ⟨h.links _, h.links _, h.links _⟩, fun d₁ howns => h.direct (howned howns),
    fun d₁ d₂ howns hfilled => ?_⟩
  have hfind {q : Path} := h.find_projectFile (howned howns) hfilled hway habsolute hstraight hclear
    hdirs (q := q)
  have hisFile := h.isFile_aim (howned howns) hfilled hway habsolute hstraight hclear hdirs
  have hstart : start d₂ entry = start d entry := by
    rcases start_cases d entry with ⟨-, hsame⟩ | ⟨hfile, -, hsame⟩
    · exact hsame d₂ (hfilled.here.trans howns.here) hisFile
    · exact hsame d₂ (hisFile.trans hfile)
  refine discover_eq_ok_iff.mpr ⟨?_, text, ?_, hparse⟩
  · unfold findRoot
    rw [hstart, hothers (isRoot d₂) fun q hq hq' hqAbsolute => ?_]
    unfold isRoot isFile
    rw [hfind hq (hq'.trans hstartWay) (hqAbsolute.trans hstartAbsolute)]
  · unfold readText Disk.read at htext ⊢
    rw [hfind (List.prefix_refl _) hway habsolute]
    exact htext

end PartDepot
