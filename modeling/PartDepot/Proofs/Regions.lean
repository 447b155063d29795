import PartDepot.Proofs.Paths
import PartDepot.Proofs.Walks

/-!
# Disks that agree outside a region

What is at or below a place can be emptied, moved or added to without a trace anywhere else.  A walk
along plain names over places that hold no links ends just there.
-/

namespace PartDepot.Disk

/-- The second disk has the same nodes as the first one outside a region. -/
structure SameBut (region : Place → Prop) (d d' : Disk) : Prop where
  here : d'.here = d.here
  node : ∀ q, ¬region q → d'.node? q = d.node? q

namespace SameBut

variable {region region' : Place → Prop} {d d' d'' : Disk}

theorem refl (region : Place → Prop) (d : Disk) : SameBut region d d := ⟨rfl, fun _ _ => rfl⟩

theorem trans (h : SameBut region d d') (h' : SameBut region d' d'') : SameBut region d d'' :=
  ⟨h'.here.trans h.here, fun q hq => (h'.node q hq).trans (h.node q hq)⟩

theorem mono (h : SameBut region d d') (hregion : ∀ q, region q → region' q) :
    SameBut region' d d' :=
  ⟨h.here, fun q hq => h.node q fun hr => hq (hregion q hr)⟩

end SameBut

/-! ## Nodes after changes -/

theorem lookup_filter_key (keep : Place → Bool) (l : List (Place × Node)) (q : Place) :
    (l.filter fun e => keep e.1).lookup q = if keep q then l.lookup q else none := by
  induction l with
  | nil => split <;> rfl
  | cons e l ih =>
      obtain ⟨k, n⟩ := e
      by_cases hq : q = k
      · subst hq
        cases hkeep : keep q with
        | false => simpa [hkeep] using ih
        | true => simp [hkeep]
      · have hbeq : (q == k) = false := by simpa using hq
        cases hkeep : keep k with
        | false => simpa [hkeep, List.lookup_cons, hbeq] using ih
        | true => simpa [hkeep, List.lookup_cons, hbeq] using ih

theorem node?_eraseBelow (d : Disk) (p q : Place) :
    (d.eraseBelow p).node? q = if p <+: q ∧ q ≠ p then none else d.node? q := by
  unfold node? eraseBelow
  by_cases hq : q = []
  · have hnot : ¬(p <+: q ∧ q ≠ p) := by
      rintro ⟨hp, hne⟩
      rw [hq, List.prefix_nil] at hp
      exact hne (hq.trans hp.symm)
    rw [if_neg hnot, if_pos hq, if_pos hq]
  · rw [if_neg hq, if_neg hq, lookup_filter_key fun k => !(p.isPrefixOf k) || k = p]
    by_cases hp : p <+: q
    · by_cases hself : q = p
      · simp [hself]
      · have hbelow : p.isPrefixOf q = true := List.isPrefixOf_iff_prefix.mpr hp
        simp [hp, hself, hbelow]
    · have hbelow : p.isPrefixOf q = false := by
        rw [← Bool.not_eq_true, List.isPrefixOf_iff_prefix]
        exact hp
      simp [hp, hbelow]

/-- Entries below one place, looked up where another place has taken over. -/
theorem lookup_map_moved (a b q : Place) (l : List (Place × Node)) (hl : ∀ e ∈ l, a <+: e.1) :
    (l.map fun e => (b ++ e.1.drop a.length, e.2)).lookup q =
      if b <+: q then l.lookup (a ++ q.drop b.length) else none := by
  induction l with
  | nil => split <;> rfl
  | cons e l ih =>
      obtain ⟨k, n⟩ := e
      obtain ⟨rest, rfl⟩ := hl _ List.mem_cons_self
      have hrest := ih fun e he => hl e (List.mem_cons_of_mem _ he)
      rw [List.map_cons, List.lookup_cons, hrest, List.drop_left]
      by_cases hq : q = b ++ rest
      · subst hq
        simp
      · have hbeq : (q == b ++ rest) = false := by simpa using hq
        rw [hbeq]
        by_cases hb : b <+: q
        · obtain ⟨more, rfl⟩ := hb
          have hmore : more ≠ rest := by
            rintro rfl
            exact hq rfl
          have hkey : (a ++ more == a ++ rest) = false := by simpa using hmore
          simp [List.lookup_cons, hkey]
        · simp [hb]

/-- Moved nodes are found at their new places, and the others where they were. -/
theorem node?_move (d : Disk) (a b : Place) {q : Place} (hq : q ≠ []) :
    (d.move a b).node? q = (if a <+: q then none else d.node? q).or
      (if b <+: q then d.nodes.lookup (a ++ q.drop b.length) else none) := by
  have hmoved : ∀ e ∈ d.nodes.filter (fun e => a.isPrefixOf e.1), a <+: e.1 := by
    intro e he
    exact List.isPrefixOf_iff_prefix.mp (List.mem_filter.mp he).2
  have hself (rest : Place) : a.isPrefixOf (a ++ rest) = true :=
    List.isPrefixOf_iff_prefix.mpr (List.prefix_append a rest)
  unfold node? move
  rw [if_neg hq, if_neg hq, List.partition_eq_filter_filter]
  dsimp only
  rw [List.lookup_append, lookup_map_moved a b q _ hmoved,
    lookup_filter_key fun k => a.isPrefixOf k, hself, if_pos rfl]
  congr 1
  have hkept := lookup_filter_key (fun k => !a.isPrefixOf k) d.nodes q
  apply hkept.trans
  by_cases ha : a <+: q
  · have hbelow : a.isPrefixOf q = true := List.isPrefixOf_iff_prefix.mpr ha
    simp [ha, hbelow]
  · have hbelow : a.isPrefixOf q = false := by
      rw [← Bool.not_eq_true, List.isPrefixOf_iff_prefix]
      exact ha
    simp [ha, hbelow]

theorem node?_move_outside (d : Disk) {a b q : Place} (ha : ¬a <+: q) (hb : ¬b <+: q) :
    (d.move a b).node? q = d.node? q := by
  by_cases hq : q = []
  · rw [node?, node?, if_pos hq, if_pos hq]
  · rw [node?_move d a b hq, if_neg ha, if_neg hb, Option.or_none]

/-! ## What is left of a disk -/

/-- What was left of a disk before a change outlives the change where that found nothing left. -/
theorem SameBut.toExtends {region : Place → Prop} {e d d' : Disk} (h : d.SameBut region d')
    (hless : e.Extends d) (hempty : ∀ q, region q → e.node? q = none) : e.Extends d' := by
  refine ⟨h.here.trans hless.here, fun {q n} hq => ?_⟩
  have hout : ¬region q := by
    intro hregion
    simp [hempty q hregion] at hq
  exact (h.node q hout).trans (hless.node hq)

theorem sameBut_put (d : Disk) {q : Place} (hq : q ≠ []) (n : Node) :
    d.SameBut (· = q) (d.put q n) := by
  refine ⟨rfl, fun r hr => ?_⟩
  rw [node?_put hq, if_neg hr]

theorem sameBut_erase (d : Disk) {q : Place} (hq : q ≠ []) : d.SameBut (· = q) (d.erase q) := by
  refine ⟨rfl, fun r hr => ?_⟩
  rw [node?_erase hq, if_neg hr]

theorem sameBut_eraseBelow (d : Disk) (b : Place) :
    d.SameBut (fun q => b <+: q ∧ q ≠ b) (d.eraseBelow b) := by
  refine ⟨rfl, fun q hq => ?_⟩
  rw [node?_eraseBelow, if_neg hq]

theorem erase_extends (d : Disk) {q : Place} (hq : q ≠ []) : (d.erase q).Extends d := by
  refine ⟨rfl, fun {r n} hr => ?_⟩
  rw [node?_erase hq] at hr
  split at hr
  · simp at hr
  · exact hr

theorem eraseBelow_extends (d : Disk) (b : Place) : (d.eraseBelow b).Extends d := by
  refine ⟨rfl, fun {q n} hq => ?_⟩
  rw [node?_eraseBelow] at hq
  split at hq
  · simp at hq
  · exact hq

/-- The disk without a place and all that is below it. -/
def without (d : Disk) (q : Place) : Disk := (d.eraseBelow q).erase q

theorem node?_without {d : Disk} {q : Place} (hq : q ≠ []) (r : Place) :
    (d.without q).node? r = if q <+: r then none else d.node? r := by
  rw [without, node?_erase hq, node?_eraseBelow]
  by_cases hself : r = q
  · simp [hself]
  · simp [hself]

theorem without_extends {d : Disk} {q : Place} (hq : q ≠ []) : (d.without q).Extends d :=
  (erase_extends _ hq).trans (eraseBelow_extends d q)

theorem sameBut_without (d : Disk) {q : Place} (hq : q ≠ []) :
    d.SameBut (q <+: ·) (d.without q) := by
  refine ⟨rfl, fun r hr => ?_⟩
  rw [node?_without hq, if_neg hr]

theorem eraseBelow_put (d : Disk) {b q : Place} (hq : ¬(b <+: q ∧ q ≠ b)) (n : Node) :
    (d.put q n).eraseBelow b = (d.eraseBelow b).put q n := by
  have hkept : [(q, n)].filter (fun e => !(b.isPrefixOf e.1) || decide (e.1 = b)) = [(q, n)] := by
    refine List.filter_cons_of_pos ?_
    by_cases hself : q = b
    · simp [hself]
    · have hout : ¬b <+: q := fun hbelow => hq ⟨hbelow, hself⟩
      simpa [List.isPrefixOf_iff_prefix, ← Bool.not_eq_true, hself] using hout
  have hcomm :
      (d.nodes.filter (·.1 ≠ q)).filter (fun e => !(b.isPrefixOf e.1) || decide (e.1 = b)) =
      (d.nodes.filter fun e => !(b.isPrefixOf e.1) || decide (e.1 = b)).filter (·.1 ≠ q) := by
    rw [List.filter_filter, List.filter_filter]
    exact List.filter_congr fun e _ => Bool.and_comm _ _
  simp only [put, eraseBelow, List.filter_append, hcomm, hkept]

theorem SameBut.eraseBelow_extends {d d' : Disk} {b : Place}
    (h : d.SameBut (fun q => b <+: q ∧ q ≠ b) d') : (d.eraseBelow b).Extends d' := by
  refine h.toExtends (Disk.eraseBelow_extends d b) fun q hq => ?_
  rw [node?_eraseBelow, if_pos hq]

/-- Only a directory is at the root. -/
theorem ne_root_of_node? (d : Disk) {q : Place} (h : d.node? q ≠ some .dir) : q ≠ [] := by
  rintro rfl
  exact h (if_pos rfl)

theorem mem_nodes_of_node? {d : Disk} {p : Place} (hp : p ≠ []) {n : Node}
    (h : d.node? p = some n) : (p, n) ∈ d.nodes := by
  rw [node?, if_neg hp] at h
  obtain ⟨before, after, hnodes, -⟩ := List.lookup_eq_some_iff.mp h
  rw [hnodes]
  simp

theorem mem_names {d : Disk} {p : Place} {name : String} (hname : isName name = true) {n : Node}
    (h : d.node? (p ++ [name]) = some n) : name ∈ d.names p := by
  have hmem := mem_nodes_of_node? (by simp) h
  unfold names
  refine List.mem_filterMap.mpr ⟨_, hmem, ?_⟩
  simp [hname]

theorem isName_of_mem_names {d : Disk} {p : Place} {name : String} (h : name ∈ d.names p) :
    isName name = true := by
  unfold names at h
  obtain ⟨e, -, hname⟩ := List.mem_filterMap.mp h
  split at hname
  · exact (Option.filter_eq_some_iff.mp hname).2
  · simp at hname

/-- A removed tree is gone, and everything else stands as before. -/
theorem node?_removeTree (d : Disk) (p : Path) (q : Place) :
    (d.removeTree p).2.node? q = d.node? q ∨
      (d.removeTree p).2.node? q = none ∧ ∃ t, d.find false p = .ok t ∧ t.place <+: q := by
  have herase (d : Disk) (place : Place) :
      (d.erase place).node? q = d.node? q ∨ (d.erase place).node? q = none ∧ place = q := by
    by_cases hroot : place = []
    · left
      by_cases hq : q = []
      · rw [node?, node?, if_pos hq, if_pos hq]
      · rw [node?, node?, if_neg hq, if_neg hq, erase, lookup_filter_ne, if_neg (hroot ▸ hq)]
    · rw [node?_erase hroot]
      split
      · next hq => exact .inr ⟨rfl, hq.symm⟩
      · exact .inl rfl
  have hbelow (place : Place) : (d.eraseBelow place).node? q = d.node? q ∨
      (d.eraseBelow place).node? q = none ∧ place <+: q := by
    rw [node?_eraseBelow]
    split
    · next hq => exact .inr ⟨rfl, hq.1⟩
    · exact .inl rfl
  unfold removeTree
  cases hfind : d.find false p with
  | error fault => exact .inl rfl
  | ok t =>
      cases t with
      | free place => exact .inl rfl
      | taken place n =>
          cases n with
          | file content => exact .inl rfl
          | link target =>
              rcases herase d place with hsame | ⟨hgone, rfl⟩
              · exact .inl hsame
              · exact .inr ⟨hgone, _, rfl, List.prefix_refl _⟩
          | dir =>
              dsimp only
              split
              · rcases hbelow place with hsame | ⟨hgone, hq⟩
                · exact .inl hsame
                · exact .inr ⟨hgone, _, rfl, hq⟩
              · rcases herase (d.eraseBelow place) place with hsame | ⟨hgone, rfl⟩
                · rcases hbelow place with hsame' | ⟨hgone, hq⟩
                  · exact .inl (hsame.trans hsame')
                  · exact .inr ⟨hsame.trans hgone, _, rfl, hq⟩
                · exact .inr ⟨hgone, _, rfl, List.prefix_refl _⟩

theorem here_removeTree (d : Disk) (p : Path) : (d.removeTree p).2.here = d.here := by
  unfold removeTree
  split
  · dsimp only
    split <;> rfl
  all_goals rfl

theorem makeFresh_eq_ok {d d' : Disk} {dir fresh : Path} (h : d.makeFresh dir = .ok (fresh, d')) :
    ∃ place spot, d.find true dir = .ok (.taken place .dir) ∧
      fresh = dir.join (d.freshName place) ∧ d.find false fresh = .ok (.free spot) ∧
      d' = d.put spot .dir := by
  unfold makeFresh at h
  split at h
  · next place hdir =>
    dsimp only at h
    split at h
    · next spot hfree =>
      obtain ⟨rfl, rfl⟩ := Prod.mk.inj (Except.ok.inj h)
      exact ⟨place, spot, hdir, rfl, hfree, rfl⟩
    all_goals simp at h
  all_goals simp at h

/-- A renamed node has left its place for one that was free or gave way to it, and a directory gives
way only when it is empty. -/
theorem rename_cases (d : Disk) (src dst : Path) :
    (d.rename src dst).2 = d ∨ ∃ a n, d.find false src = .ok (.taken a n) ∧
      ((∃ b, d.find false dst = .ok (.free b) ∧ (d.rename src dst).2 = d.move a b) ∨
        ∃ b m, d.find false dst = .ok (.taken b m) ∧
          (n = .dir ∧ m = .dir ∧ d.names b = [] ∨ n ≠ .dir ∧ m ≠ .dir) ∧
          (d.rename src dst).2 = (d.erase b).move a b) := by
  cases hsrc : d.find false src with
  | error fault => exact .inl (by simp [rename, hsrc])
  | ok s =>
      cases s with
      | free a => exact .inl (by simp [rename, hsrc])
      | taken a n =>
          cases hdst : d.find false dst with
          | error fault => exact .inl (by simp [rename, hsrc, hdst])
          | ok t =>
              cases t with
              | free b =>
                  by_cases hinside : a.isPrefixOf b
                  · exact .inl (by simp [rename, hsrc, hdst, hinside])
                  · exact .inr ⟨a, n, rfl, .inl ⟨b, rfl, by simp [rename, hsrc, hdst, hinside]⟩⟩
              | taken b m =>
                  by_cases hsame : a = b
                  · left
                    cases n <;> cases m <;> simp [rename, hsrc, hdst, hsame]
                  by_cases hn : n = .dir
                  · by_cases hm : m = .dir
                    · by_cases hinside : a.isPrefixOf b
                      · exact .inl (by simp [rename, hsrc, hdst, hn, hm, hsame, hinside])
                      · by_cases hempty : d.names b = []
                        · refine .inr ⟨a, n, rfl, .inr ⟨b, m, rfl, .inl ⟨hn, hm, hempty⟩, ?_⟩⟩
                          simp [rename, hsrc, hdst, hn, hm, hsame, hinside, hempty]
                        · exact .inl (by simp [rename, hsrc, hdst, hn, hm, hsame, hinside, hempty])
                    · left
                      cases m <;> simp_all [rename]
                  · by_cases hm : m = .dir
                    · left
                      cases n <;> simp_all [rename]
                    · refine .inr ⟨a, n, rfl, .inr ⟨b, m, rfl, .inr ⟨hn, hm⟩, ?_⟩⟩
                      cases n <;> cases m <;> simp_all [rename]

/-! ## Walks over plain names -/

def NoLink (d : Disk) (p : Place) : Prop := ∀ target, d.node? p ≠ some (.link target)

theorem NoLink.congr {d d' : Disk} {p : Place} (h : d.NoLink p) (hsame : d'.node? p = d.node? p) :
    d'.NoLink p := fun target => hsame ▸ h target

theorem noLink_of_dir {d : Disk} {p : Place} (h : d.node? p = some .dir) : d.NoLink p := by
  intro target
  simp [h]

/-- A disk has no links if none is among its nodes. -/
theorem noLink_of_nodes {d : Disk} (h : ∀ x ∈ d.nodes, ∀ target, x.2 ≠ .link target) (q : Place) :
    d.NoLink q := by
  intro target hq
  have hne : q ≠ [] := ne_root_of_node? d (by simp [hq])
  exact h _ (mem_nodes_of_node? hne hq) target rfl

variable {d : Disk} {follow : Bool} {links : Nat} {p : Place} {name : String}

theorem walk_last_name (hdot : name ≠ ".") (hup : name ≠ "..")
    (hlink : follow = true → d.NoLink (p ++ [name])) {s : Spot}
    (h : d.walk follow links p [name] = .ok s) :
    s.place = p ++ [name] ∧ d.node? (p ++ [name]) = s.node? := by
  rw [walk_cons, stride, if_neg hdot, if_neg hup] at h
  split at h
  · simp [goOn] at h
  · cases hnode : d.node? (p ++ [name]) with
    | none =>
        rw [hnode] at h
        obtain rfl := Except.ok.inj h
        exact ⟨rfl, rfl⟩
    | some n =>
        rw [hnode] at h
        cases n with
        | file content =>
            obtain rfl := Except.ok.inj h
            exact ⟨rfl, rfl⟩
        | dir =>
            rw [Stride.ofNode_dir, goOn, walk_nil] at h
            obtain rfl := Except.ok.inj h
            exact ⟨rfl, rfl⟩
        | link target =>
            cases follow with
            | true => exact absurd hnode (hlink rfl target)
            | false =>
                obtain rfl := Except.ok.inj h
                exact ⟨rfl, rfl⟩

/-- A walk of one name that is not too long, and that is not followed, ends at that name. -/
theorem exists_walk_name (d : Disk) (hdot : name ≠ ".") (hup : name ≠ "..")
    (hshort : name.utf8ByteSize ≤ nameLimit) (links : Nat) (p : Place) :
    ∃ t, d.walk false links p [name] = .ok t := by
  have hlong : ¬nameLimit < name.utf8ByteSize := by omega
  rw [walk_cons, stride, if_neg hdot, if_neg hup, if_neg hlong]
  cases d.node? (p ++ [name]) with
  | none => exact ⟨_, rfl⟩
  | some n =>
      cases n with
      | file content => exact ⟨_, rfl⟩
      | dir => exact ⟨_, walk_nil d false links _⟩
      | link target => exact ⟨_, rfl⟩

theorem walk_next_name (hdot : name ≠ ".") (hup : name ≠ "..")
    (hlink : d.NoLink (p ++ [name])) {rest : List String}
    (hrest : rest ≠ []) {s : Spot} (h : d.walk follow links p (name :: rest) = .ok s) :
    d.node? (p ++ [name]) = some .dir ∧ d.walk follow links (p ++ [name]) rest = .ok s := by
  rw [walk_cons, stride, if_neg hdot, if_neg hup] at h
  split at h
  · simp [goOn] at h
  · cases hnode : d.node? (p ++ [name]) with
    | none => simp [hnode, goOn, hrest] at h
    | some n =>
        cases n with
        | file content => simp [hnode, goOn, hrest] at h
        | link target => exact absurd hnode (hlink target)
        | dir => exact ⟨rfl, by simpa [hnode, goOn] using h⟩

/-- Dots on the way do not matter. -/
theorem walk_dotless (d : Disk) (follow : Bool) (links : Nat) (p : Place) (names : List String)
    (last : String) :
    d.walk follow links p (names.filter (· ≠ ".") ++ [last]) =
      d.walk follow links p (names ++ [last]) := by
  induction links, p, names using walk_induct with
  | nil links p => rfl
  | cons links p name rest ihrest ihlinks =>
      by_cases hdot : name = "."
      · rw [List.filter_cons_of_neg (by simp [hdot]), ihrest, List.cons_append, walk_cons, stride,
          if_pos hdot]
        rfl
      · rw [List.filter_cons_of_pos (by simp [hdot]), List.cons_append, List.cons_append, walk_cons,
          walk_cons, stride, stride, if_neg hdot, if_neg hdot]
        split
        · exact ihrest _
        · split
          · rfl
          · cases d.node? (p ++ [name]) with
            | none => simp [goOn]
            | some n =>
                cases n with
                | file content => simp [goOn]
                | dir => exact ihrest _
                | link target =>
                    cases links with
                    | zero => simp [goOn]
                    | succ fewer =>
                        -- The names of the link are still to be walked, with all their dots.
                        have hall := ihlinks fewer (if (Path.mk target).isAbsolute then [] else p)
                          ((Path.mk target).steps ++ rest) rfl
                        have hsome := ihlinks fewer (if (Path.mk target).isAbsolute then [] else p)
                          ((Path.mk target).steps ++ rest.filter (· ≠ ".")) rfl
                        rw [List.filter_append] at hall hsome
                        rw [List.filter_filter] at hsome
                        simp only [Bool.and_self] at hsome
                        have hboth := hsome.symm.trans hall
                        simpa [goOn] using hboth

theorem walk_dot_ne_file (d : Disk) (follow : Bool) (links : Nat) (p : Place) (names : List String)
    (q : Place) (content : ByteArray) :
    d.walk follow links p (names ++ ["."]) ≠ .ok (.taken q (.file content)) := by
  induction links, p, names using walk_induct with
  | nil links p =>
      rw [List.nil_append, walk_cons, stride, if_pos rfl, goOn, walk_nil]
      simp
  | cons links p name rest ihrest ihlinks =>
      rw [List.cons_append, walk_cons, stride]
      split
      · exact ihrest p
      · split
        · exact ihrest _
        · split
          · simp [goOn]
          · cases d.node? (p ++ [name]) with
            | none => simp [goOn]
            | some n =>
                cases n with
                | file old => simp [goOn]
                | dir => exact ihrest _
                | link target =>
                    cases links with
                    | zero => simp [goOn]
                    | succ fewer =>
                        have hlink := ihlinks fewer (if (Path.mk target).isAbsolute then [] else p)
                          ((Path.mk target).steps ++ rest) rfl
                        simpa [goOn] using hlink

/-- The names can be walked without a climb, and nothing on the way is a link. -/
structure PlainWay (d : Disk) (p : Place) (names : List String) : Prop where
  plain : ∀ name ∈ names, name ≠ "." ∧ name ≠ ".."
  links : ∀ front, front ≠ [] → front <+: names → d.NoLink (p ++ front)

variable {d' : Disk} {names : List String}

theorem PlainWay.tail {name : String} {rest : List String} (h : d.PlainWay p (name :: rest)) :
    d.PlainWay (p ++ [name]) rest := by
  refine ⟨fun next hnext => h.plain next (List.mem_cons_of_mem _ hnext), fun front _ hfront => ?_⟩
  rw [List.append_assoc]
  exact h.links (name :: front) (by simp) (List.cons_prefix_cons.mpr ⟨rfl, hfront⟩)

theorem PlainWay.head {name : String} {rest : List String} (h : d.PlainWay p (name :: rest)) :
    name ≠ "." ∧ name ≠ ".." ∧ d.NoLink (p ++ [name]) := by
  obtain ⟨hdot, hup⟩ := h.plain name List.mem_cons_self
  exact ⟨hdot, hup, h.links [name] (by simp) (by simp)⟩

theorem PlainWay.place (h : d.PlainWay p names) (hnames : names ≠ []) {follow : Bool} {links : Nat}
    {s : Spot} (hwalk : d.walk follow links p names = .ok s) :
    s.place = p ++ names ∧ d.node? (p ++ names) = s.node? := by
  induction names generalizing p with
  | nil => exact absurd rfl hnames
  | cons name rest ih =>
      obtain ⟨hdot, hup, hlink⟩ := h.head
      by_cases hrest : rest = []
      · subst hrest
        exact walk_last_name hdot hup (fun _ => hlink) hwalk
      · obtain ⟨-, hwalk'⟩ := walk_next_name hdot hup hlink hrest hwalk
        have hplace := ih h.tail hrest hwalk'
        rwa [List.append_assoc] at hplace

theorem PlainWay.dirs (h : d.PlainWay p names) {more : List String} (hmore : more ≠ [])
    {follow : Bool} {links : Nat} {s : Spot} (hwalk : d.walk follow links p (names ++ more) = .ok s)
    {front : List String} (hne : front ≠ []) (hfront : front <+: names) :
    d.node? (p ++ front) = some .dir := by
  induction names generalizing p front with
  | nil => exact absurd (List.prefix_nil.mp hfront) hne
  | cons name rest ih =>
      obtain ⟨hdot, hup, hlink⟩ := h.head
      obtain ⟨hdir, hwalk'⟩ := walk_next_name hdot hup hlink (by simp [hmore]) hwalk
      cases front with
      | nil => exact absurd rfl hne
      | cons first front =>
          obtain ⟨rfl, hrest⟩ := List.cons_prefix_cons.mp hfront
          by_cases hlast : front = []
          · rw [hlast]
            exact hdir
          · have hnode := ih h.tail hwalk' hlast hrest
            rwa [List.append_assoc] at hnode

theorem PlainWay.walk_congr (h : d.PlainWay p names)
    (hsame : ∀ front, front ≠ [] → front <+: names → d'.node? (p ++ front) = d.node? (p ++ front))
    (follow : Bool) (links : Nat) :
    d'.walk follow links p names = d.walk follow links p names := by
  induction names generalizing p with
  | nil => rw [walk_nil, walk_nil]
  | cons name rest ih =>
      obtain ⟨hdot, hup, hlink⟩ := h.head
      have hnode := hsame [name] (by simp) (by simp)
      have hrest := ih h.tail fun front _ hfront => by
        rw [List.append_assoc]
        exact hsame (name :: front) (by simp) (List.cons_prefix_cons.mpr ⟨rfl, hfront⟩)
      rw [walk_cons, walk_cons, stride, stride, if_neg hdot, if_neg hdot, if_neg hup, if_neg hup,
        hnode]
      split
      · rfl
      · cases hfound : d.node? (p ++ [name]) with
        | none => rfl
        | some n =>
            cases n with
            | file content => rfl
            | dir => exact hrest
            | link target => exact absurd hfound (hlink target)

theorem PlainWay.node?_makeDirsFrom (h : d.PlainWay p names) (q : Place) :
    (d.makeDirsFrom p names).2.node? q = d.node? q ∨
      (∃ front, front ≠ [] ∧ front <+: names ∧ q = p ++ front) ∧
        (d.makeDirsFrom p names).2.node? q = some .dir := by
  induction names generalizing d p with
  | nil => exact .inl rfl
  | cons name rest ih =>
      obtain ⟨hdot, hup, hlink⟩ := h.head
      have hgrow : ∀ front, front <+: rest → q = p ++ [name] ++ front →
          ∃ front, front ≠ [] ∧ front <+: name :: rest ∧ q = p ++ front := by
        intro front hfront hq
        exact ⟨name :: front, by simp, List.cons_prefix_cons.mpr ⟨rfl, hfront⟩, by simp [hq]⟩
      rcases d.makeDirsFrom_cons p name rest with ⟨next, hdir⟩ | ⟨hfree, hmake⟩ | ⟨fault, hmake⟩
      · obtain ⟨rfl, -⟩ := walk_last_name hdot hup (fun _ => hlink) hdir
        rw [makeDirsFrom_of_dir rest hdir]
        rcases ih h.tail with hsame | ⟨⟨front, -, hfront, hq⟩, hnode⟩
        · exact .inl hsame
        · exact .inr ⟨hgrow front hfront hq, hnode⟩
      · rw [hmake]
        have hput := node?_put (d := d) (p := p ++ [name]) (by simp) .dir
        have hlater : (d.put (p ++ [name]) .dir).PlainWay (p ++ [name]) rest := by
          refine ⟨h.tail.plain, fun front hne hfront => (h.tail.links front hne hfront).congr ?_⟩
          rw [hput, if_neg (by simpa using hne)]
        rcases ih hlater with hsame | ⟨⟨front, -, hfront, hq⟩, hnode⟩
        · by_cases hself : q = p ++ [name]
          · refine .inr ⟨⟨[name], by simp, by simp, hself⟩, ?_⟩
            rw [hsame, hput, if_pos hself]
          · rw [hsame, hput, if_neg hself]
            exact .inl rfl
        · exact .inr ⟨hgrow front hfront hq, hnode⟩
      · rw [hmake]
        exact .inl rfl

/-! ## Names -/

theorem isPiece_of_isName {name : String} (h : isName name = true) : Path.IsPiece name := by
  simp only [isName, Bool.and_eq_true, Bool.not_eq_true', bne_iff_ne] at h
  obtain ⟨⟨⟨hempty, -⟩, -⟩, hslash⟩ := h
  exact ⟨by simpa using hempty, by simpa using hslash⟩

theorem ne_dots_of_isName {name : String} (h : isName name = true) : name ≠ "." ∧ name ≠ ".." := by
  simp only [isName, Bool.and_eq_true, Bool.not_eq_true', bne_iff_ne] at h
  exact ⟨h.1.1.2, h.1.2⟩

theorem isName_of_isPiece {name : String} (h : Path.IsPiece name) (hdot : name ≠ ".")
    (hup : name ≠ "..") : isName name = true := by
  have hempty : name ≠ "" := by
    rintro rfl
    exact h.nonempty rfl
  simp [isName, h.whole, hdot, hup, hempty]

theorem freshName_isName (d : Disk) (p : Place) : isName (d.freshName p) = true := by
  have hname (n : Nat) : isName (".tmp" ++ toString n) = true := by
    have hdigits : '/' ∉ Nat.toDigits 10 n := by
      intro hmem
      exact absurd (Nat.isDigit_of_mem_toDigits (by decide) (by decide) hmem) (by decide)
    refine isName_of_isPiece ⟨by simp, by simpa using hdigits⟩ ?_ ?_
    · intro hdot
      have hlength := congrArg (fun t => t.toList.length) hdot
      simp at hlength
    · intro hup
      have hlength := congrArg (fun t => t.toList.length) hup
      simp at hlength
  unfold freshName
  dsimp only
  cases hfind : ((List.range ((d.names p).length + 1)).map fun n => ".tmp" ++ toString n).find?
      fun name => !(d.names p).contains name with
  | none => decide
  | some name =>
      obtain ⟨n, -, rfl⟩ := List.mem_map.mp (List.mem_of_find?_eq_some hfind)
      exact hname n

end PartDepot.Disk
