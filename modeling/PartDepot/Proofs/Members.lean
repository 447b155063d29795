import PartDepot.Proofs.Leading

/-!
# Members of a directory

The names in a directory when a file is put into it or taken from it, and what is found at a name
there. Below a directory that is missing nothing is found.
-/

namespace PartDepot.Disk

variable {d d' : Disk} {p : Path} {home : Place} {name : String}

/-! ## Names -/

theorem filter_isName (hname : isName name = true) :
    Option.filter isName (home ++ [name]).getLast? = some name := by
  rw [List.getLast?_concat, Option.filter, if_pos hname]

theorem names_filter (home : Place) (l : List (Place × Node)) (here : List String)
    (hname : isName name = true) :
    (Disk.mk (l.filter (·.1 ≠ home ++ [name])) here).names home =
      ((Disk.mk l here).names home).filter (· ≠ name) := by
  unfold names
  dsimp only
  induction l with
  | nil => rfl
  | cons e l ih =>
      obtain ⟨place, n⟩ := e
      by_cases hplace : place = home ++ [name]
      · rw [List.filter_cons_of_neg (by simp [hplace]), ih, hplace, List.filterMap_cons]
        rw [if_pos (by simp), filter_isName hname]
        simp
      · rw [List.filter_cons_of_pos (by simp [hplace]), List.filterMap_cons,
          List.filterMap_cons, ih]
        cases hshown : (if place ≠ [] ∧ place.dropLast = home then place.getLast?.filter isName
          else none) with
        | none => rfl
        | some shown =>
            have hne : shown ≠ name := by
              rintro rfl
              split at hshown
              · next hin =>
                obtain ⟨hlast, -⟩ := Option.filter_eq_some_iff.mp hshown
                obtain ⟨front, hfront⟩ := List.getLast?_eq_some_iff.mp hlast
                rw [hfront, List.dropLast_concat] at hin
                exact hplace (hin.2 ▸ hfront)
              · simp at hshown
            dsimp only
            rw [List.filter_cons_of_pos (by simpa using hne)]

theorem names_erase (d : Disk) (home : Place) (hname : isName name = true) :
    (d.erase (home ++ [name])).names home = (d.names home).filter (· ≠ name) :=
  names_filter home d.nodes d.here hname

theorem names_put (d : Disk) (home : Place) (hname : isName name = true) (n : Node) :
    (d.put (home ++ [name]) n).names home = (d.names home).filter (· ≠ name) ++ [name] := by
  have hfilter := names_filter home d.nodes d.here hname
  unfold names at hfilter ⊢
  unfold put
  dsimp only at hfilter ⊢
  rw [List.filterMap_append, hfilter, List.filterMap_cons, if_pos (by simp), filter_isName hname]
  rfl

/-! ## Directories that are there -/

/-- A path still leads where it did after a file was taken from anywhere. -/
theorem Leads.erase_file (h : d.Leads p home) {q : Place} {content : ByteArray}
    (hq : d.node? q = some (.file content)) : (d.erase q).Leads p home := by
  have hroot : q ≠ [] := ne_root_of_node? d (by simp [hq])
  obtain ⟨links, henters⟩ := h
  refine ⟨links, henters.of_kept fun r n hr hn => ?_⟩
  rw [node?_erase hroot, if_neg]
  · exact hr
  · rintro rfl
    exact hn content (Option.some.inj (hr.symm.trans hq))

theorem Leads.list (h : d.Leads p home) {place : Place} (hstart : d.start p = .ok place) :
    d.list p = .ok (d.names home) := by
  obtain ⟨links, henters⟩ := h
  have hfind : d.find true p = .ok (.taken home .dir) := by
    rw [find_of_start hstart, start_eq hstart]
    rcases Path.steps_eq p with hsteps | hsteps
    · rw [hsteps, henters.walk_dir (Nat.le_refl _)]
    · rw [hsteps, henters.walk true (by simp), walk_cons, stride, if_pos rfl, goOn, walk_nil]
  unfold Disk.list
  rw [hfind]
  rfl

theorem start_join (hname : Path.IsPiece name) (hnul : '\x00' ∉ name.toList) {place : Place}
    (hstart : d.start p = .ok place) :
    d.start (p.join name) =
      if pathLimit < (p.join name).text.utf8ByteSize then .error .nameTooLong else .ok place := by
  have hclean : '\x00' ∉ p.text.toList := by
    intro hmem
    unfold start at hstart
    rw [if_pos (by simpa using hmem)] at hstart
    simp at hstart
  have hjoined : '\x00' ∉ (p.join name).text.toList := by
    rcases Path.join_toList hname p with ⟨htext, -⟩ | ⟨front, htext, hfront, -⟩
    · rwa [htext]
    · rw [htext, List.mem_append, List.mem_cons]
      rintro (hmem | hmem | hmem)
      · rcases hfront with hfront | hfront
        · exact hclean (hfront ▸ hmem)
        · exact hclean (hfront ▸ List.mem_append_left _ hmem)
      · simp at hmem
      · exact hnul hmem
  have hne : (p.join name).text.isEmpty = false := by
    rcases Path.join_toList hname p with ⟨htext, -⟩ | ⟨front, htext, -, -⟩
    · have hnil := hname.nonempty
      rw [← htext] at hnil
      simpa using hnil
    · have hnil : (p.join name).text.toList ≠ [] := by simp [htext]
      simpa using hnil
  have horigin : place = d.origin (p.join name) := by
    rw [start_eq hstart, origin, origin, Path.isAbsolute_join hname]
  unfold start
  rw [if_neg (by simpa using hjoined), if_neg (by simp [hne]), horigin]
  rfl

/-- A name that is not too long is found in the directory. -/
theorem Leads.find_of_short (h : d.Leads p home) (hname : isName name = true)
    (hshort : name.utf8ByteSize ≤ nameLimit) {place : Place}
    (hstart : d.start (p.join name) = .ok place) :
    d.find false (p.join name) = .ok (d.spotAt (home ++ [name])) := by
  obtain ⟨links, henters⟩ := h
  obtain ⟨hdot, hup⟩ := ne_dots_of_isName hname
  have hunder := Path.under_join (isPiece_of_isName hname) p
  obtain ⟨s, hs⟩ := d.exists_walk_name hdot hup hshort links home
  have hfind := (find_under henters hunder (by simp) hstart false).trans hs
  rw [hfind, Leads.find_name ⟨links, henters⟩ hname hfind]

/-- What is found at a name in a directory that is no link. -/
theorem Leads.find_unlinked (h : d.Leads p home) (hname : isName name = true)
    (hlink : ∀ target, d.node? (home ++ [name]) ≠ some (.link target)) {place : Place}
    (hstart : d.start (p.join name) = .ok place) (follow : Bool) :
    d.find follow (p.join name) =
      if nameLimit < name.utf8ByteSize then .error .nameTooLong
      else .ok (d.spotAt (home ++ [name])) := by
  obtain ⟨links, henters⟩ := h
  obtain ⟨hdot, hup⟩ := ne_dots_of_isName hname
  have hunder := Path.under_join (isPiece_of_isName hname) p
  rw [find_under henters hunder (by simp) hstart, walk_cons, stride, if_neg hdot, if_neg hup]
  by_cases hlong : nameLimit < name.utf8ByteSize
  · rw [if_pos hlong, if_pos hlong, goOn]
  · rw [if_neg hlong, if_neg hlong]
    unfold spotAt
    cases hnode : d.node? (home ++ [name]) with
    | none => rfl
    | some n =>
        cases n with
        | file content => rfl
        | dir => rw [Stride.ofNode_dir, goOn, walk_nil]
        | link target => exact absurd hnode (hlink target)

/-- A name that is too long is found nowhere. -/
theorem find_of_long (hname : isName name = true) (hlong : nameLimit < name.utf8ByteSize)
    (follow : Bool) (s : Spot) : d.find follow (p.join name) ≠ .ok s := by
  intro hfind
  obtain ⟨hdot, hup⟩ := ne_dots_of_isName hname
  obtain ⟨links, home, henters⟩ := enters_of_find_join (isPiece_of_isName hname) hfind
  have hunder := Path.under_join (isPiece_of_isName hname) p
  have hwalk := walk_of_find_under henters hunder (by simp) hfind
  rw [walk_cons, stride, if_neg hdot, if_neg hup, if_pos hlong, goOn] at hwalk
  simp at hwalk

/-! ## Directories that are missing -/

/-- Where a walk finds nothing, a longer walk finds nothing either. -/
theorem walk_past_missing {links : Nat} {place : Place} {names more : List String}
    (hmore : more ≠ []) (h : d.walk true links place names = .error .notFound ∨
      ∃ q, d.walk true links place names = .ok (.free q)) (follow : Bool) :
    d.walk follow links place (names ++ more) = .error .notFound := by
  induction links, place, names using walk_induct with
  | nil links place => simp [walk_nil] at h
  | cons links place name rest ihrest ihlinks =>
      rw [walk_cons] at h
      rw [List.cons_append, walk_cons]
      cases hstride : d.stride true place name rest with
      | on q =>
          rw [hstride] at h
          rw [stride_on_append hstride]
          exact ihrest q h
      | link q todo =>
          rw [hstride] at h
          rw [stride_link_append hstride follow hmore]
          cases links with
          | zero => simp [goOn] at h
          | succ fewer => exact ihlinks fewer q todo rfl h
      | stop result =>
          rw [hstride, goOn] at h
          unfold stride at hstride ⊢
          by_cases hdot : name = "."
          · simp [hdot] at hstride
          by_cases hup : name = ".."
          · simp [hup] at hstride
          by_cases hlong : nameLimit < name.utf8ByteSize
          · simp only [hdot, hup, hlong, if_true, if_false, Stride.stop.injEq] at hstride
            simp [← hstride] at h
          simp only [hdot, hup, hlong, if_false] at hstride ⊢
          cases hnode : d.node? (place ++ [name]) with
          | none => simp [goOn, hmore]
          | some n =>
              cases n with
              | dir => simp [hnode] at hstride
              | link target => simp [hnode] at hstride
              | file content =>
                  rw [hnode, Stride.ofNode_file, Stride.stop.injEq] at hstride
                  rw [← hstride] at h
                  cases rest <;> simp at h

theorem start_of_list {names : List String} (h : d.list p = .ok names) :
    ∃ place, d.start p = .ok place := by
  cases hstart : d.start p with
  | ok place => exact ⟨place, rfl⟩
  | error fault => simp [list, find_of_no_start hstart, bind, Except.bind] at h

theorem start_of_missing (h : d.list p = .error .notFound) (hne : p.text ≠ "") :
    ∃ place, d.start p = .ok place := by
  cases hstart : d.start p with
  | ok place => exact ⟨place, rfl⟩
  | error fault =>
      have hfault : fault = .notFound := by
        simpa [list, find_of_no_start hstart, bind, Except.bind] using h
      unfold start at hstart
      rw [hfault] at hstart
      split at hstart
      · simp at hstart
      · rw [if_neg (by simpa using hne)] at hstart
        split at hstart <;> simp at hstart

/-- What can be listed is a directory. -/
theorem leads_of_list {names : List String} (h : d.list p = .ok names) :
    ∃ home, d.Leads p home ∧ d.names home = names := by
  unfold list at h
  cases hfind : d.find true p with
  | error fault => simp [hfind, bind, Except.bind] at h
  | ok s =>
      rw [hfind] at h
      cases s with
      | free q => simp [bind, Except.bind] at h
      | taken q n =>
          cases n with
          | dir => exact ⟨q, leads_of_find hfind, Except.ok.inj h⟩
          | file content => simp [bind, Except.bind] at h
          | link target => simp [bind, Except.bind] at h

theorem find_in_missing (h : d.list p = .error .notFound) (hne : p.text ≠ "")
    (hname : Path.IsPiece name) (follow : Bool) {place : Place}
    (hstart : d.start (p.join name) = .ok place) :
    d.find follow (p.join name) = .error .notFound := by
  obtain ⟨origin, horigin⟩ := start_of_missing h hne
  have hplace : place = origin := by
    rw [start_eq hstart, start_eq horigin, Disk.origin, Disk.origin, Path.isAbsolute_join hname]
  have hwalk : d.walk true linkLimit origin p.steps = .error .notFound ∨
      ∃ q, d.walk true linkLimit origin p.steps = .ok (.free q) := by
    unfold list at h
    rw [find_of_start horigin] at h
    cases hend : d.walk true linkLimit origin p.steps with
    | error fault => simpa [hend, bind, Except.bind] using h
    | ok s =>
        cases s with
        | free q => exact .inr ⟨q, rfl⟩
        | taken q n => cases n <;> simp [hend, bind, Except.bind] at h
  have hpast := walk_past_missing (show [name] ≠ [] by simp) hwalk follow
  rw [find_of_start hstart, Path.steps_join hname, hplace]
  rcases Path.steps_eq p with hsteps | hsteps
  · rwa [hsteps] at hpast
  · -- A dot at the end of the path makes no difference to what is behind it.
    rwa [hsteps, ← walk_dotless, List.filter_append, List.filter_cons_of_neg (by simp),
      List.filter_nil, List.append_nil, walk_dotless] at hpast

end PartDepot.Disk
