import PartDepot.Proofs.Leading

/-!
# Clearing a name and filling it

What removing and renaming do to a name in a directory that a path leads to, when they are
refused and when not.
-/

namespace PartDepot.Disk

variable {d d' : Disk} {home : Place} {p : Path} {name : String}

theorem endsInDot_join (h : isName name = true) (p : Path) : endsInDot (p.join name) = false := by
  obtain ⟨front, hpieces⟩ := Path.pieces_join (isPiece_of_isName h) p
  have hne : name.toList.isEmpty = false := by
    simpa using (isPiece_of_isName h).nonempty
  have hdot : name.toList ≠ ['.'] := by
    intro hdot
    exact (ne_dots_of_isName h).1 (String.toList_injective hdot)
  simp [endsInDot, hpieces, hne, hdot]

/-- The disk with nodes at more places. -/
def add (d : Disk) (nodes : List (Place × Node)) : Disk := { d with nodes := d.nodes ++ nodes }

theorem node?_add (d : Disk) (nodes : List (Place × Node)) (q : Place) :
    (d.add nodes).node? q = (d.node? q).or (nodes.lookup q) := by
  unfold node? add
  split
  · rfl
  · exact List.lookup_append

theorem extends_add (d : Disk) (nodes : List (Place × Node)) : d.Extends (d.add nodes) := by
  refine ⟨rfl, fun {q n} hq => ?_⟩
  rw [node?_add, hq, Option.some_or]

/-- What is at a name in a directory or below it is below the directory. -/
theorem below_of_name {q : Place} (h : home ++ [name] <+: q) : home <+: q ∧ q ≠ home := by
  refine ⟨(List.prefix_append _ _).trans h, ?_⟩
  rintro rfl
  have hlength := h.length_le
  rw [List.length_append, List.length_singleton] at hlength
  omega

/-- Where a path leads to a directory, making the directory changes nothing. -/
theorem Leads.makeDirs {root : Path} (hname : Path.IsPiece name)
    (h : d.Leads (root.join name) home) :
    (d.makeDirs (root.join name)).2 = d := by
  obtain ⟨links, henters⟩ := h
  have hunder : Path.Under (root.join name) [] (root.join name) :=
    ⟨by simp, by rw [Path.steps_join hname, Path.names_join hname], rfl⟩
  rcases makeDirs_under henters hunder with hmake | hmake
  · rw [hmake]
    rfl
  · exact hmake

/-- What is left of a disk once nothing is found at a path to a place any more. -/
inductive Cleared (d : Disk) (p : Path) (b : Place) : Disk → Prop
  | absent : d.has p = false → Cleared d p b d
  | dir : d.node? b = some .dir → Cleared d p b (d.without b)
  | link {target : String} : d.node? b = some (.link target) → Cleared d p b (d.erase b)

namespace Cleared

variable {b : Place}

theorem sameBut (h : d.Cleared p b d') (hb : b ≠ []) : d.SameBut (b <+: ·) d' := by
  cases h with
  | absent hhas => exact .refl _ d
  | dir hdir => exact sameBut_without d hb
  | link hlink => exact (sameBut_erase d hb).mono fun q hq => hq ▸ List.prefix_refl q

theorem toExtends (h : d.Cleared p b d') (hb : b ≠ []) : d'.Extends d := by
  cases h with
  | absent hhas => exact .refl d
  | dir hdir => exact without_extends hb
  | link hlink => exact erase_extends d hb

/-- Where a path still leads to the cleared place, no directory stands there. -/
theorem node?_ne_dir (h : d.Cleared p b d') (hb : b ≠ [])
    (hfind : d'.find false p = .ok (d'.spotAt b)) :
    d'.node? b ≠ some .dir := by
  intro hdir
  cases h with
  | absent hhas =>
      rw [has, find_of_spotAt_dir hfind hdir true] at hhas
      simp at hhas
  | dir _ => simp [node?_without hb] at hdir
  | link _ => simp [node?_erase hb] at hdir

/-- A directory is kept or is gone with all that is below it. -/
theorem dir_or_gone (h : d.Cleared p b d') (hb : b ≠ []) (hdir : d.node? b = some .dir) :
    d'.node? b = some .dir ∨ ∀ q, b <+: q → d'.node? q = none := by
  cases h with
  | absent _ => exact .inl hdir
  | dir _ =>
      right
      intro q hq
      rw [node?_without hb, if_pos hq]
  | link hlink => simp [hdir] at hlink

end Cleared

/-- Removing a name among others is refused and leaves everything, or clears just that name. -/
theorem Leads.removeTree (h : d.Leads p home) (hname : isName name = true) :
    (∃ fault, d.removeTree (p.join name) = (some fault, d)) ∨
      ∃ d', d.removeTree (p.join name) = (none, d') ∧
        d.Cleared (p.join name) (home ++ [name]) d' := by
  have hdot := endsInDot_join hname p
  unfold Disk.removeTree
  cases hfind : d.find false (p.join name) with
  | error fault => exact .inl ⟨fault, rfl⟩
  | ok s =>
      have hspot := h.find_name hname hfind
      unfold spotAt at hspot
      split at hspot
      · subst hspot
        exact .inl ⟨_, rfl⟩
      · next n hnode =>
        subst hspot
        cases n with
        | file content => exact .inl ⟨_, rfl⟩
        | dir =>
            refine .inr ⟨_, ?_, .dir hnode⟩
            simp [hdot, without]
        | link target => exact .inr ⟨_, rfl, .link hnode⟩

theorem rename_cases_fault (d : Disk) (src dst : Path) :
    (d.rename src dst).1 = none ∨ ∃ fault, d.rename src dst = (some fault, d) := by
  unfold rename
  split
  case h_4 => split <;> simp
  case h_5 =>
    split
    · simp
    · split
      · simp
      · split <;> simp
  case h_8 => split <;> simp
  all_goals simp

/-- A renamed node is found at the new name, where nothing was or what gave way to it. -/
theorem rename_eq_none {src dst : Path} (h : (d.rename src dst).1 = none) :
    ∃ a n s, d.find false src = .ok (.taken a n) ∧ d.find false dst = .ok s ∧
      (s.node? = none ∧ (d.rename src dst).2 = d.move a s.place ∨
        a = s.place ∨
        (n = .dir ∧ s.node? = some .dir ∨ n ≠ .dir ∧ s.node? ≠ some .dir) ∧
          (d.rename src dst).2 = (d.erase s.place).move a s.place) := by
  cases hsrc : d.find false src with
  | error fault => simp [rename, hsrc] at h
  | ok r =>
      cases r with
      | free a => simp [rename, hsrc] at h
      | taken a n =>
          cases hdst : d.find false dst with
          | error fault => simp [rename, hsrc, hdst] at h
          | ok s =>
              refine ⟨a, n, s, rfl, rfl, ?_⟩
              unfold rename at h ⊢
              rw [hsrc, hdst] at h ⊢
              cases s with
              | free b =>
                  left
                  dsimp only at h ⊢
                  split at h
                  · simp at h
                  · next hinside => rw [if_neg hinside]; exact ⟨rfl, rfl⟩
              | taken b m =>
                  right
                  by_cases hsame : a = b
                  · exact .inl hsame
                  · right
                    cases n with
                    | dir =>
                        cases m with
                        | dir =>
                            refine ⟨.inl ⟨rfl, rfl⟩, ?_⟩
                            dsimp only at h ⊢
                            rw [if_neg hsame] at h ⊢
                            split at h
                            · simp at h
                            · next hinside =>
                              split at h
                              · next hempty =>
                                rw [if_neg hinside, if_pos hempty]
                                rfl
                              · simp at h
                        | file content => simp at h
                        | link target => simp at h
                    | file content => cases m <;> simp_all [Spot.node?, Spot.place]
                    | link target => cases m <;> simp_all [Spot.node?, Spot.place]

end PartDepot.Disk
