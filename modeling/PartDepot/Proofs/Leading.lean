import PartDepot.Proofs.Entering
import PartDepot.Proofs.Regions

/-!
# Paths that lead to directories

A path leads to the directory that a walk along its names ends in.  What has a name in that
directory is found at that name below it, and two disks on which the path leads somewhere share the
way there. Walks do not get below a place where nothing stands.
-/

namespace PartDepot.Disk

/-- A path leads to a directory at a place. -/
def Leads (d : Disk) (p : Path) (home : Place) : Prop :=
  ∃ links, d.Enters linkLimit (d.origin p) p.names links home

variable {d d' : Disk} {p : Path} {home : Place}

theorem origin_congr (h : d'.here = d.here) (p : Path) : d'.origin p = d.origin p := by
  unfold origin
  rw [h]

theorem Leads.unique {home' : Place} (h : d.Leads p home) (h' : d.Leads p home') :
    home = home' := by
  obtain ⟨links, henters⟩ := h
  obtain ⟨links', henters'⟩ := h'
  exact henters.unique henters'

theorem Extends.leads (hd : d.Extends d') (h : d.Leads p home) : d'.Leads p home := by
  obtain ⟨links, henters⟩ := h
  refine ⟨links, ?_⟩
  rw [origin_congr hd.here]
  exact hd.enters henters

/-! ## What is found in a directory -/

theorem stride_ne_stop_dir (follow : Bool) (place q : Place) (name : String) (rest : List String) :
    d.stride follow place name rest ≠ .stop (.ok (.taken q .dir)) := by
  unfold stride
  split
  · simp
  · split
    · simp
    · split
      · simp
      · cases d.node? (place ++ [name]) with
        | none => cases rest <;> simp
        | some n =>
            cases n with
            | file content => cases rest <;> simp
            | dir => simp
            | link target =>
                rw [Stride.ofNode_link]
                split <;> simp

theorem enters_of_walk_dir {links : Nat} {place q : Place} {names : List String}
    (h : d.walk true links place names = .ok (.taken q .dir)) :
    ∃ links', d.Enters links place names links' q := by
  induction links, place, names using walk_induct with
  | nil links place =>
      rw [walk_nil] at h
      obtain ⟨rfl, -⟩ := Spot.taken.inj (Except.ok.inj h)
      exact ⟨links, .here⟩
  | cons links place name rest ihrest ihlinks =>
      rw [walk_cons] at h
      cases hstride : d.stride true place name rest with
      | on next =>
          rw [hstride] at h
          obtain ⟨links', hrest⟩ := ihrest next h
          exact ⟨links', .on hstride hrest⟩
      | link next todo =>
          rw [hstride] at h
          cases links with
          | zero => simp [goOn] at h
          | succ fewer =>
              obtain ⟨links', htodo⟩ := ihlinks fewer next todo rfl h
              exact ⟨links', .link hstride htodo⟩
      | stop result =>
          rw [hstride, goOn] at h
          subst h
          exact absurd hstride (stride_ne_stop_dir _ _ _ _ _)

theorem leads_of_find {q : Place} (h : d.find true p = .ok (.taken q .dir)) : d.Leads p q := by
  cases hstart : d.start p with
  | error fault => simp [find_of_no_start hstart] at h
  | ok place =>
      rw [find_of_start hstart, start_eq hstart] at h
      rcases p.steps_eq with hsteps | hsteps
      · rw [hsteps] at h
        exact enters_of_walk_dir h
      · rw [hsteps] at h
        obtain ⟨links, r, hnames⟩ := enters_of_walk h (by simp)
        rw [hnames.walk true (by simp), walk_cons, stride, if_pos rfl, goOn, walk_nil] at h
        obtain ⟨rfl, -⟩ := Spot.taken.inj (Except.ok.inj h)
        exact ⟨links, hnames⟩

theorem leads_of_find_join {name : String} (hname : Path.IsPiece name) {follow : Bool} {s : Spot}
    (h : d.find follow (p.join name) = .ok s) : ∃ home, d.Leads p home := by
  obtain ⟨links, home, henters⟩ := enters_of_find_join hname h
  exact ⟨home, links, henters⟩

/-- Where a walk ends that stops at a place. -/
def spotAt (d : Disk) (q : Place) : Spot :=
  match d.node? q with
  | none => .free q
  | some n => .taken q n

theorem spotAt_place (d : Disk) (q : Place) : (d.spotAt q).place = q := by
  unfold spotAt
  split <;> rfl

theorem spotAt_of_node {q : Place} {n : Node} (h : d.node? q = some n) :
    d.spotAt q = .taken q n := by
  unfold spotAt
  rw [h]

theorem spotAt_node? (d : Disk) (q : Place) : (d.spotAt q).node? = d.node? q := by
  unfold spotAt
  split
  · next h => exact h.symm
  · next h => exact h.symm

theorem spotAt_eq {q : Place} {s : Spot} (hplace : s.place = q) (hnode : d.node? q = s.node?) :
    s = d.spotAt q := by
  unfold spotAt
  cases s with
  | free place =>
      rw [hnode, ← hplace]
      rfl
  | taken place n =>
      rw [hnode, ← hplace]
      rfl

/-- The spot is what the disk has there, at a place with this last name. -/
structure Spot.Shows (d : Disk) (name : String) (s : Spot) : Prop where
  last : s.place.getLast? = some name
  node : d.node? s.place = s.node?

theorem spotAt_shows (d : Disk) (home : Place) (name : String) :
    (d.spotAt (home ++ [name])).Shows d name :=
  ⟨by rw [spotAt_place, List.getLast?_concat], by rw [spotAt_place, spotAt_node?]⟩

theorem Leads.find_name (h : d.Leads p home) {name : String} (hname : isName name = true) {s : Spot}
    (hfind : d.find false (p.join name) = .ok s) : s = d.spotAt (home ++ [name]) := by
  obtain ⟨links, henters⟩ := h
  obtain ⟨hdot, hup⟩ := ne_dots_of_isName hname
  have hunder := Path.under_join (isPiece_of_isName hname) p
  obtain ⟨hplace, hnode⟩ :=
    walk_last_name hdot hup (by simp) (walk_of_find_under henters hunder (by simp) hfind)
  exact spotAt_eq hplace hnode

theorem Leads.find_dot (h : d.Leads p home) {follow : Bool} {s : Spot}
    (hfind : d.find follow (p.join ".") = .ok s) : s = .taken home .dir := by
  obtain ⟨links, henters⟩ := h
  have hunder := Path.under_join (show Path.IsPiece "." from ⟨by decide, by decide⟩) p
  have hwalk := walk_of_find_under henters hunder (by simp) hfind
  rw [walk_cons, stride, if_pos rfl, goOn, walk_nil] at hwalk
  exact (Except.ok.inj hwalk).symm

/-- A name that is looked up where there is less is still looked up in the same directory. -/
theorem Leads.find_name_of_extends (h : d'.Leads p home) (hless : d.Extends d') {name : String}
    (hname : isName name = true) {s : Spot} (hfind : d.find false (p.join name) = .ok s) :
    d.Leads p home ∧ s = d.spotAt (home ++ [name]) := by
  obtain ⟨home', hleads⟩ := leads_of_find_join (isPiece_of_isName hname) hfind
  obtain rfl := (hless.leads hleads).unique h
  exact ⟨hleads, hleads.find_name hname hfind⟩

/-- A name that was looked up once can be looked up wherever the path leads. -/
theorem Leads.find_name_again (h' : d'.Leads p home) (hhere : d'.here = d.here) {name : String}
    (hname : isName name = true) {follow : Bool} {s : Spot}
    (hfind : d.find follow (p.join name) = .ok s) :
    d'.find false (p.join name) = .ok (d'.spotAt (home ++ [name])) := by
  obtain ⟨hdot, hup⟩ := ne_dots_of_isName hname
  have hunder := Path.under_join (isPiece_of_isName hname) p
  cases hstart : d.start (p.join name) with
  | error fault => simp [find_of_no_start hstart] at hfind
  | ok place =>
      have hstart' : d'.start (p.join name) = .ok place := (start_congr hhere _).trans hstart
      obtain ⟨links, home₀, henters⟩ := enters_of_find_join (isPiece_of_isName hname) hfind
      have hwalk := walk_of_find_under henters hunder (by simp) hfind
      have hshort : name.utf8ByteSize ≤ nameLimit := by
        refine Nat.le_of_not_lt fun hlong => ?_
        rw [walk_cons, stride, if_neg hdot, if_neg hup, if_pos hlong, goOn] at hwalk
        simp at hwalk
      obtain ⟨links', henters'⟩ := h'
      obtain ⟨t, ht⟩ := d'.exists_walk_name hdot hup hshort links' home
      have hfind' := (find_under henters' hunder (by simp) hstart' false).trans ht
      rw [hfind', Leads.find_name ⟨links', henters'⟩ hname hfind']

theorem Leads.find_dot_again (h' : d'.Leads p home) (hhere : d'.here = d.here) {follow : Bool}
    {s : Spot} (hfind : d.find follow (p.join ".") = .ok s) :
    d'.find follow (p.join ".") = .ok (.taken home .dir) := by
  have hunder := Path.under_join (show Path.IsPiece "." from ⟨by decide, by decide⟩) p
  cases hstart : d.start (p.join ".") with
  | error fault => simp [find_of_no_start hstart] at hfind
  | ok place =>
      obtain ⟨links, henters⟩ := h'
      rw [find_under henters hunder (by simp) ((start_congr hhere _).trans hstart),
        walk_cons, stride, if_pos rfl, goOn, walk_nil]

/-- A directory is found at its name whether links are followed or not. -/
theorem find_of_spotAt_dir {q : Place} (h : d.find false p = .ok (d.spotAt q))
    (hdir : d.node? q = some .dir) (follow : Bool) : d.find follow p = .ok (.taken q .dir) := by
  rw [spotAt_of_node hdir] at h
  cases follow with
  | false => exact h
  | true =>
      rw [find_follow (by simp [h])]
      exact h

/-! ## Making directories and writing files -/

/-- A directory that a path goes through need not be made. -/
theorem Leads.makeDirs_of_start (h : d.Leads p home) {q : Path} {place : Place}
    (hnames : q.names <+: p.names) (habsolute : q.isAbsolute = p.isAbsolute)
    (hstart : d.start q = .ok place) : d.makeDirs q = (none, d) := by
  obtain ⟨links, henters⟩ := h
  obtain ⟨more, hmore⟩ := hnames
  rw [← hmore] at henters
  obtain ⟨mid, r, hfront, -⟩ := Enters.split q.names henters
  have horigin : d.origin q = d.origin p := by
    unfold origin
    rw [habsolute]
  unfold Disk.makeDirs
  split
  · rfl
  · rw [hstart]
    dsimp only
    rw [start_eq hstart, horigin]
    rcases q.steps_eq with hsteps | hsteps
    · rw [hsteps, ← List.append_nil q.names, hfront.makeDirsFrom (Nat.le_refl _)]
      rfl
    · have hdot : d.walk true linkLimit r ["."] = .ok (.taken r .dir) := by
        rw [walk_cons, stride, if_pos rfl, goOn, walk_nil]
      rw [hsteps, hfront.makeDirsFrom (Nat.le_refl _), makeDirsFrom_of_dir [] hdot]
      rfl

/-- Making a directory that a path goes through changes nothing. -/
theorem Leads.makeDirs_above (h : d.Leads p home) {q : Path} (hnames : q.names <+: p.names)
    (habsolute : q.isAbsolute = p.isAbsolute) : (d.makeDirs q).2 = d := by
  cases hstart : d.start q with
  | error fault =>
      unfold Disk.makeDirs
      rw [hstart]
      split <;> rfl
  | ok place => rw [h.makeDirs_of_start hnames habsolute hstart]

/-- A path still leads where it did after a file was put anywhere. -/
theorem Leads.put_file (h : d.Leads p home) {q : Place} (hq : d.TakesFile q) (content : ByteArray) :
    (d.put q (.file content)).Leads p home := by
  obtain ⟨links, henters⟩ := h
  have hwalk := (walk_put_file hq content true linkLimit (d.origin p) p.names).1 _
    (henters.walk_dir (Nat.le_refl _))
  exact enters_of_walk_dir hwalk

theorem Leads.of_put_file {q : Place} (hq : d.TakesFile q) {content : ByteArray}
    (h : (d.put q (.file content)).Leads p home) : d.Leads p home := by
  obtain ⟨links, henters⟩ := h
  obtain ⟨hok, herror⟩ := walk_put_file hq content true linkLimit (d.origin p) p.names
  have hwalk := henters.walk_dir (Nat.le_refl _)
  cases hold : d.walk true linkLimit (d.origin p) p.names with
  | error fault =>
      obtain ⟨fault', hfault⟩ := herror fault hold
      have hboth := hfault.symm.trans hwalk
      simp at hboth
  | ok s =>
      have hstored := Except.ok.inj ((hok s hold).symm.trans hwalk)
      have hs : s = .taken home .dir := by
        cases s with
        | free place =>
            simp only [Spot.stored] at hstored
            split at hstored <;> simp at hstored
        | taken place n =>
            cases n with
            | file old =>
                simp only [Spot.stored] at hstored
                split at hstored <;> simp at hstored
            | dir => exact hstored
            | link target => exact hstored
      exact enters_of_walk_dir (hs ▸ hold)

theorem write_cases_fault (d : Disk) (p : Path) (content : ByteArray) :
    (d.write p content).1 = none ∨ ∃ fault, d.write p content = (some fault, d) := by
  unfold Disk.write
  split <;> simp

/-- A file that could be written is found at the path afterwards. -/
theorem write_eq_none {d' : Disk} {content : ByteArray} (h : d.write p content = (none, d')) :
    ∃ q, d.TakesFile q ∧ d' = d.put q (.file content) ∧
      d'.find true p = .ok (.taken q (.file content)) := by
  have hput {s : Spot} (hfind : d.find true p = .ok s)
      (hnode : d.node? s.place = none ∨ ∃ old, d.node? s.place = some (.file old))
      (hstored : s.stored s.place content = .taken s.place (.file content)) :
      d.TakesFile s.place ∧ (d.put s.place (.file content)).find true p =
        .ok (.taken s.place (.file content)) := by
    have htakes : d.TakesFile s.place := by
      refine ⟨fun hroot => ?_, hnode⟩
      rw [hroot] at hnode
      rcases hnode with hnone | ⟨old, hold⟩
      · simp [node?] at hnone
      · simp [node?] at hold
    exact ⟨htakes, hstored ▸ (find_put_file htakes content true p).1 s hfind⟩
  cases hstart : d.start p with
  | error fault =>
      unfold Disk.write at h
      simp [find_of_no_start hstart] at h
  | ok origin =>
      have hwalk := find_of_start hstart true
      unfold Disk.write at h
      split at h
      · next place old hfind =>
        obtain ⟨-, rfl⟩ := Prod.mk.inj h
        have hnode := node?_of_walk_file (hwalk.symm.trans hfind)
        obtain ⟨htakes, hagain⟩ := hput hfind (.inr ⟨old, hnode⟩) (if_pos rfl)
        exact ⟨place, htakes, rfl, hagain⟩
      · simp at h
      · next place hfind =>
        obtain ⟨-, rfl⟩ := Prod.mk.inj h
        have hnode := node?_of_walk_free (hwalk.symm.trans hfind)
        obtain ⟨htakes, hagain⟩ := hput hfind (.inl hnode) (if_pos rfl)
        exact ⟨place, htakes, rfl, hagain⟩
      · simp at h

/-! ## Two ways -/

section Strides

variable {e c : Disk} {q q' : Place} {place : Place} {name : String} {rest todo todo' : List String}

theorem stride_on_common (hc : ∀ q n, d.node? q = some n → d'.node? q = some n → c.node? q = some n)
    (h : d.stride true place name rest = .on q) (h' : d'.stride true place name rest = .on q') :
    q' = q ∧ c.stride true place name rest = .on q := by
  rcases stride_eq_on_iff.mp h with ⟨hdot, hq⟩ | ⟨hdot, hup, hq⟩ | ⟨hdot, hup, hshort, hnode, hq⟩
  · rcases stride_eq_on_iff.mp h' with ⟨-, hq'⟩ | ⟨hdot', -⟩ | ⟨hdot', -⟩
    · exact ⟨hq'.trans hq.symm, stride_eq_on_iff.mpr (.inl ⟨hdot, hq⟩)⟩
    · exact absurd hdot hdot'
    · exact absurd hdot hdot'
  · rcases stride_eq_on_iff.mp h' with ⟨hdot', -⟩ | ⟨-, -, hq'⟩ | ⟨-, hup', -⟩
    · exact absurd hdot' hdot
    · exact ⟨hq'.trans hq.symm, stride_eq_on_iff.mpr (.inr (.inl ⟨hdot, hup, hq⟩))⟩
    · exact absurd hup hup'
  · rcases stride_eq_on_iff.mp h' with ⟨hdot', -⟩ | ⟨-, hup', -⟩ | ⟨-, -, -, hnode', hq'⟩
    · exact absurd hdot' hdot
    · exact absurd hup' hup
    · refine ⟨hq'.trans hq.symm, stride_eq_on_iff.mpr (.inr (.inr ?_))⟩
      exact ⟨hdot, hup, hshort, hc _ _ hnode hnode', hq⟩

theorem stride_link_common (hd : d.Extends e) (hd' : d'.Extends e)
    (hc : ∀ q n, d.node? q = some n → d'.node? q = some n → c.node? q = some n)
    (h : d.stride true place name rest = .link q todo)
    (h' : d'.stride true place name rest = .link q' todo') :
    q' = q ∧ todo' = todo ∧ c.stride true place name rest = .link q todo := by
  obtain ⟨hdot, hup, hshort, hfollow, target, hnode, hq, htodo⟩ := stride_eq_link_iff.mp h
  obtain ⟨-, -, -, -, target', hnode', hq', htodo'⟩ := stride_eq_link_iff.mp h'
  have hsame := (hd.node hnode).symm.trans (hd'.node hnode')
  obtain rfl : target = target' := by simpa using hsame
  refine ⟨hq'.trans hq.symm, htodo'.trans htodo.symm, stride_eq_link_iff.mpr ?_⟩
  exact ⟨hdot, hup, hshort, hfollow, target, hc _ _ hnode hnode', hq, htodo⟩

/-- What is a directory on one part of a disk is not a link on another. -/
theorem stride_on_ne_link (hd : d.Extends e) (hd' : d'.Extends e)
    (h : d.stride true place name rest = .on q) :
    d'.stride true place name rest ≠ .link q' todo := by
  intro h'
  obtain ⟨hdot, hup, -, -, target, hnode', -⟩ := stride_eq_link_iff.mp h'
  rcases stride_eq_on_iff.mp h with ⟨hdot', -⟩ | ⟨-, hup', -⟩ | ⟨-, -, -, hnode, -⟩
  · exact hdot hdot'
  · exact hup hup'
  · have hsame := (hd.node hnode).symm.trans (hd'.node hnode')
    simp at hsame

end Strides

/-- Both ways take the same strides, as the disk that both are part of tells. -/
theorem Enters.common {e c : Disk} (hd : d.Extends e) (hd' : d'.Extends e)
    (hc : ∀ q n, d.node? q = some n → d'.node? q = some n → c.node? q = some n)
    {links l l' : Nat} {place q q' : Place} {names : List String}
    (h : d.Enters links place names l q) (h' : d'.Enters links place names l' q') :
    c.Enters links place names l q := by
  induction h generalizing l' q' with
  | here => exact .here
  | on hon _ ih =>
      cases h' with
      | on hon' hrest' =>
          obtain ⟨rfl, hstride⟩ := stride_on_common hc hon hon'
          exact .on hstride (ih hrest')
      | link hlink' _ => exact absurd hlink' (stride_on_ne_link hd hd' hon)
  | link hlink _ ih =>
      cases h' with
      | on hon' _ => exact absurd hlink (stride_on_ne_link hd' hd hon')
      | link hlink' htodo' =>
          obtain ⟨rfl, rfl, hstride⟩ := stride_link_common hd hd' hc hlink hlink'
          exact .link hstride (ih htodo')

/-- What leads to a directory on two parts of a disk leads there on what the parts have in
common. -/
theorem Leads.common {e c : Disk} {home' : Place} (hd : d.Extends e) (hd' : d'.Extends e)
    (hhere : c.here = d.here)
    (hc : ∀ q n, d.node? q = some n → d'.node? q = some n → c.node? q = some n)
    (h : d.Leads p home) (h' : d'.Leads p home') : c.Leads p home := by
  obtain ⟨links, henters⟩ := h
  obtain ⟨links', henters'⟩ := h'
  rw [origin_congr (hd'.here.symm.trans hd.here)] at henters'
  refine ⟨links, ?_⟩
  rw [origin_congr hhere]
  exact henters.common hd hd' hc henters'

/-! ## Places where nothing stands -/

/-- A walk that does not start below a place where nothing stands does not get there. -/
theorem walk_avoids {b : Place} (hb : d.node? b = none) {follow : Bool} {links : Nat}
    {place : Place} {names : List String} {s : Spot} (hplace : ¬b <+: place)
    (h : d.walk follow links place names = .ok s) : s = .free b ∨ ¬b <+: s.place := by
  have hroot : ¬b <+: [] := fun hnil => ne_root_of_node? d (by simp [hb]) (List.prefix_nil.mp hnil)
  have hnext {place : Place} {name : String} (hplace : ¬b <+: place) (hself : b ≠ place ++ [name]) :
      ¬b <+: place ++ [name] := by
    rw [List.prefix_concat_iff, not_or]
    exact ⟨hself, hplace⟩
  refine walk_inStep d d follow follow (fun place _ => ¬b <+: place)
    (fun r _ => ∀ s, r = .ok s → s = .free b ∨ ¬b <+: s.place) ?_ (by simp) (fun _ _ => id) ?_ ?_
    links place names hplace s h
  · rintro place hI s hs
    obtain rfl := Except.ok.inj hs
    exact .inr hI
  · intro place rest hI hpre
    exact hI (hpre.trans (List.dropLast_prefix place))
  · intro place name rest _ _ hI
    have htaken {n : Node} (hn : d.node? (place ++ [name]) = some n) : ¬b <+: place ++ [name] := by
      refine hnext hI ?_
      rintro rfl
      simp [hb] at hn
    cases hnode : d.node? (place ++ [name]) with
    | none =>
        refine .stop fun s hs => ?_
        split at hs
        · obtain rfl := Except.ok.inj hs
          by_cases hself : b = place ++ [name]
          · exact .inl (hself ▸ rfl)
          · exact .inr (hnext hI hself)
        · simp at hs
    | some n =>
        have hout := htaken hnode
        cases n with
        | file content =>
            refine .stop fun s hs => ?_
            split at hs
            · obtain rfl := Except.ok.inj hs
              exact .inr hout
            · simp at hs
        | dir => exact .on hout
        | link target =>
            rw [Stride.ofNode_link]
            split
            · refine .stop fun s hs => ?_
              obtain rfl := Except.ok.inj hs
              exact .inr hout
            · refine .link ?_
              split
              · exact hroot
              · exact hI

/-- If nothing stands at a place, nothing stands below it, and no one works there. -/
def Clear (d : Disk) (b : Place) : Prop :=
  d.node? b = none → (∀ q, b <+: q → d.node? q = none) ∧ ¬b <+: d.here

/-- Whatever has something below it stands itself, as it is on every disk in use. -/
def Rooted (d : Disk) : Prop := ∀ b, d.Clear b

namespace Clear

variable {b : Place}

theorem of_node {n : Node} (h : d.node? b = some n) : d.Clear b := fun hnone => by
  simp [h] at hnone

theorem congr (h : d.Clear b) (hhere : d'.here = d.here)
    (hnode : ∀ q, b <+: q → d'.node? q = d.node? q) : d'.Clear b := by
  intro hnone
  rw [hnode b (List.prefix_refl b)] at hnone
  obtain ⟨hbelow, hout⟩ := h hnone
  refine ⟨fun q hq => ?_, hhere.symm ▸ hout⟩
  rw [hnode q hq]
  exact hbelow q hq

theorem put (h : d.Clear b) {q : Place} (hplace : d.node? b = none → q = b ∨ ¬b <+: q) (n : Node) :
    (d.put q n).Clear b := by
  by_cases hq : q = []
  · refine h.congr rfl fun r _ => ?_
    unfold node?
    split
    · rfl
    · next hr =>
      rw [hq, Disk.put, lookup_append_singleton, lookup_filter_ne, if_neg hr, if_neg hr,
        Option.or_none]
  intro hnone
  rw [node?_put hq] at hnone
  split at hnone
  · simp at hnone
  · next hne =>
    obtain ⟨hbelow, hout⟩ := h hnone
    refine ⟨fun r hr => ?_, hout⟩
    rw [node?_put hq, if_neg]
    · exact hbelow r hr
    · rintro rfl
      rcases hplace hnone with hself | hnot
      · exact hne hself.symm
      · exact hnot hr

theorem start (h : d.Clear b) {place : Place} (hstart : d.start p = .ok place)
    (hb : d.node? b = none) : ¬b <+: place := by
  rw [start_eq hstart, origin]
  split
  · exact fun hnil => ne_root_of_node? d (by simp [hb]) (List.prefix_nil.mp hnil)
  · exact (h hb).2

theorem makeDirsFrom (h : d.Clear b) {place : Place} (hplace : d.node? b = none → ¬b <+: place)
    (names : List String) : (d.makeDirsFrom place names).2.Clear b := by
  induction names generalizing d place with
  | nil => exact h
  | cons name rest ih =>
      rcases d.makeDirsFrom_cons place name rest with ⟨next, hdir⟩ | ⟨hfree, hmake⟩ | ⟨fault, hmake⟩
      · rw [makeDirsFrom_of_dir rest hdir]
        refine ih h fun hb => ?_
        rcases walk_avoids hb (hplace hb) hdir with hspot | hout
        · simp at hspot
        · exact hout
      · rw [hmake]
        have hnext (hb : d.node? b = none) : place ++ [name] = b ∨ ¬b <+: place ++ [name] := by
          rcases walk_avoids hb (hplace hb) hfree with hspot | hout
          · exact .inl (Spot.free.inj hspot)
          · exact .inr hout
        refine ih (h.put hnext .dir) fun hb => ?_
        rw [node?_put (by simp)] at hb
        split at hb
        · simp at hb
        · next hne => exact (hnext hb).resolve_left (Ne.symm hne)
      · rw [hmake]
        exact h

theorem makeDirs (h : d.Clear b) (p : Path) : (d.makeDirs p).2.Clear b := by
  unfold Disk.makeDirs
  split
  · exact h
  · cases hstart : d.start p with
    | error fault => exact h
    | ok origin => exact h.makeDirsFrom (h.start hstart) _

theorem write (h : d.Clear b) (p : Path) (content : ByteArray) : (d.write p content).2.Clear b := by
  cases hstart : d.start p with
  | error fault =>
      unfold Disk.write
      rw [find_of_no_start hstart]
      exact h
  | ok origin =>
      unfold Disk.write
      cases hfind : d.find true p with
      | error fault => exact h
      | ok s =>
          have hout (hb : d.node? b = none) : s.place = b ∨ ¬b <+: s.place := by
            rw [find_of_start hstart] at hfind
            rcases walk_avoids hb (h.start hstart hb) hfind with rfl | hout
            · exact .inl rfl
            · exact .inr hout
          cases s with
          | free place => exact h.put hout _
          | taken place n =>
              cases n with
              | file old => exact h.put hout _
              | dir => exact h
              | link target => exact h

end Clear

end PartDepot.Disk
