import PartDepot.Proofs.Paths
import PartDepot.Proofs.Walks

/-!
# Entering directories

The names of a path in front of its last ones lead to a directory, with some of the allowed
links used up.  The rest of the walk starts there, and making directories along the path
begins there as well.
-/

namespace PartDepot.Disk

/-- From a place and with a number of links left, names lead to a directory with fewer links
left. -/
inductive Enters (d : Disk) : Nat → Place → List String → Nat → Place → Prop
  | here {links : Nat} {p : Place} : Enters d links p [] links p
  | on {links links' : Nat} {p q r : Place} {name : String} {rest : List String} :
      d.stride true p name rest = .on q → Enters d links q rest links' r →
      Enters d links p (name :: rest) links' r
  | link {links links' : Nat} {p q r : Place} {name : String} {rest todo : List String} :
      d.stride true p name rest = .link q todo → Enters d links q todo links' r →
      Enters d (links + 1) p (name :: rest) links' r

/-! ## Strides that go on -/

theorem stride_eq_on_iff {d : Disk} {follow : Bool} {p q : Place} {name : String}
    {rest : List String} : d.stride follow p name rest = .on q ↔
      name = "." ∧ q = p ∨ name ≠ "." ∧ name = ".." ∧ q = p.dropLast ∨
        name ≠ "." ∧ name ≠ ".." ∧ name.utf8ByteSize ≤ nameLimit ∧
          d.node? (p ++ [name]) = some .dir ∧ q = p ++ [name] := by
  unfold stride
  by_cases hdot : name = "."
  · simp [hdot, eq_comm]
  by_cases hup : name = ".."
  · simp [hup, eq_comm]
  by_cases hlong : nameLimit < name.utf8ByteSize
  · have hshort : ¬name.utf8ByteSize ≤ nameLimit := by omega
    simp [hdot, hup, hlong, hshort]
  have hshort : name.utf8ByteSize ≤ nameLimit := by omega
  simp only [hdot, hup, hlong, hshort, if_false]
  cases d.node? (p ++ [name]) with
  | none => simp
  | some n =>
      cases n with
      | file content => simp
      | dir => simpa [hdot, hup] using eq_comm
      | link target =>
          rw [Stride.ofNode_link]
          split <;> simp

theorem stride_eq_link_iff {d : Disk} {follow : Bool} {p q : Place} {name : String}
    {rest todo : List String} : d.stride follow p name rest = .link q todo ↔
      name ≠ "." ∧ name ≠ ".." ∧ name.utf8ByteSize ≤ nameLimit ∧ (rest = [] → follow = true) ∧
        ∃ target, d.node? (p ++ [name]) = some (.link target) ∧
          q = (if (Path.mk target).isAbsolute then [] else p) ∧
            todo = (Path.mk target).steps ++ rest := by
  unfold stride
  by_cases hdot : name = "."
  · simp [hdot]
  by_cases hup : name = ".."
  · simp [hup]
  by_cases hlong : nameLimit < name.utf8ByteSize
  · have hshort : ¬name.utf8ByteSize ≤ nameLimit := by omega
    simp [hdot, hup, hlong, hshort]
  have hshort : name.utf8ByteSize ≤ nameLimit := by omega
  simp only [hdot, hup, hlong, hshort, if_false]
  cases d.node? (p ++ [name]) with
  | none => simp
  | some n =>
      cases n with
      | file content => simp
      | dir => simp
      | link target =>
          rw [Stride.ofNode_link]
          split
          · next hend =>
            have hstop : ¬(rest = [] → follow = true) := by simpa using hend
            simp [hstop]
          · next hgo =>
            have hfollow : rest = [] → follow = true := by simpa using hgo
            constructor
            · intro hlink
              obtain ⟨rfl, rfl⟩ := Stride.link.inj hlink
              exact ⟨hdot, hup, trivial, hfollow, target, rfl, rfl, rfl⟩
            · rintro ⟨-, -, -, -, target', htarget, rfl, rfl⟩
              obtain rfl : target = target' := by simpa using htarget
              rfl

theorem stride_stop {d : Disk} {follow : Bool} {p : Place} {name : String} {rest : List String}
    {result : Except Fault Spot} (h : d.stride follow p name rest = .stop result)
    (hrest : rest ≠ []) : ∃ fault, result = .error fault := by
  unfold stride at h
  split at h
  · simp at h
  · split at h
    · simp at h
    · split at h
      · exact ⟨_, (Stride.stop.inj h).symm⟩
      · cases hnode : d.node? (p ++ [name]) with
        | none =>
            have hresult : Except.error Fault.notFound = result := by
              simpa [hnode, hrest] using h
            exact ⟨_, hresult.symm⟩
        | some n =>
            cases n with
            | file content =>
                have hresult : Except.error Fault.notDirectory = result := by
                  simpa [hnode, hrest] using h
                exact ⟨_, hresult.symm⟩
            | dir => simp [hnode] at h
            | link target => simp [hnode, hrest] at h

theorem stride_on_append {d : Disk} {p q : Place} {name : String} {rest more : List String}
    (hon : d.stride true p name rest = .on q) (follow : Bool) :
    d.stride follow p name (rest ++ more) = .on q :=
  stride_eq_on_iff.mpr (stride_eq_on_iff.mp hon)

theorem stride_link_append {d : Disk} {p q : Place} {name : String} {rest todo more : List String}
    (hlink : d.stride true p name rest = .link q todo) (follow : Bool) (hmore : more ≠ []) :
    d.stride follow p name (rest ++ more) = .link q (todo ++ more) := by
  obtain ⟨hdot, hup, hshort, -, target, hnode, hq, htodo⟩ := stride_eq_link_iff.mp hlink
  refine stride_eq_link_iff.mpr ⟨hdot, hup, hshort, fun hnil => ?_, target, hnode, hq, ?_⟩
  · exact absurd (List.append_eq_nil_iff.mp hnil).2 hmore
  · rw [htodo, List.append_assoc]

/-! ## Walks through directories -/

namespace Enters

variable {d : Disk} {links links' : Nat} {p q : Place} {names : List String}

theorem le (h : d.Enters links p names links' q) : links' ≤ links := by
  induction h with
  | here => exact Nat.le_refl _
  | on _ _ ih => exact ih
  | link _ _ ih => omega

theorem walk (h : d.Enters links p names links' q) (follow : Bool) {more : List String}
    (hmore : more ≠ []) :
    d.walk follow links p (names ++ more) = d.walk follow links' q more := by
  induction h with
  | here => rfl
  | on hon _ ih => rw [List.cons_append, walk_cons, stride_on_append hon follow, goOn, ih]
  | link hlink _ ih =>
      rw [List.cons_append, walk_cons, stride_link_append hlink follow hmore]
      exact ih

theorem walk_dir (h : d.Enters links p names links' q) {more : Nat} (hle : links ≤ more) :
    d.walk true more p names = .ok (.taken q .dir) := by
  induction h generalizing more with
  | here => exact walk_nil d true more _
  | on hon _ ih =>
      rw [walk_cons, hon]
      exact ih hle
  | link hlink _ ih =>
      rw [walk_cons, hlink]
      cases more with
      | zero => omega
      | succ fewer => exact ih (by omega)

theorem split (front : List String) {more : List String}
    (h : d.Enters links p (front ++ more) links' q) :
    ∃ mid r, d.Enters links p front mid r ∧ d.Enters mid r more links' q := by
  generalize hall : front ++ more = all at h
  induction h generalizing front with
  | here =>
      obtain ⟨rfl, rfl⟩ := List.append_eq_nil_iff.mp hall
      exact ⟨_, _, .here, .here⟩
  | @on links links' p q r name rest hon hrest ih =>
      cases front with
      | nil =>
          rw [List.nil_append] at hall
          exact ⟨_, _, .here, hall.symm ▸ .on hon hrest⟩
      | cons first front =>
          rw [List.cons_append] at hall
          obtain ⟨rfl, rfl⟩ := List.cons.inj hall
          obtain ⟨mid, t, hnames, hmore⟩ := ih front rfl
          exact ⟨mid, t, .on (stride_eq_on_iff.mpr (stride_eq_on_iff.mp hon)) hnames, hmore⟩
  | @link links links' p q r name rest todo hlink hrest ih =>
      cases front with
      | nil =>
          rw [List.nil_append] at hall
          exact ⟨_, _, .here, hall.symm ▸ .link hlink hrest⟩
      | cons first front =>
          rw [List.cons_append] at hall
          obtain ⟨rfl, rfl⟩ := List.cons.inj hall
          obtain ⟨hdot, hup, hshort, -, target, hnode, hq, htodo⟩ := stride_eq_link_iff.mp hlink
          obtain ⟨mid, t, hnames, hmore⟩ := ih ((Path.mk target).steps ++ front)
            (by rw [htodo, List.append_assoc])
          refine ⟨mid, t, .link (stride_eq_link_iff.mpr ?_) hnames, hmore⟩
          exact ⟨hdot, hup, hshort, fun _ => rfl, target, hnode, hq, rfl⟩

theorem unique {more : Nat} {r : Place} (h : d.Enters links p names links' q)
    (h' : d.Enters links p names more r) : q = r := by
  have hdir := h.walk_dir (Nat.le_refl links)
  rw [h'.walk_dir (Nat.le_refl links)] at hdir
  simpa using hdir.symm

end Enters

/-- A walk that gets somewhere has entered the directory that all names but the last ones
lead to. -/
theorem enters_of_walk {d : Disk} {follow : Bool} {links : Nat} {p : Place}
    {names more : List String} {s : Spot} (h : d.walk follow links p (names ++ more) = .ok s)
    (hmore : more ≠ []) : ∃ links' q, d.Enters links p names links' q := by
  generalize hall : names ++ more = all at h
  induction links, p, all using walk_induct generalizing names with
  | nil links p => exact absurd (List.append_eq_nil_iff.mp hall).2 hmore
  | cons links p name rest ihrest ihlinks =>
      cases names with
      | nil => exact ⟨links, p, .here⟩
      | cons first names =>
          rw [List.cons_append] at hall
          obtain ⟨rfl, rfl⟩ := List.cons.inj hall
          rw [walk_cons] at h
          cases hstride : d.stride follow p first (names ++ more) with
          | on q =>
              rw [hstride] at h
              obtain ⟨links', r, hr⟩ := ihrest q rfl h
              exact ⟨links', r, .on (stride_eq_on_iff.mpr (stride_eq_on_iff.mp hstride)) hr⟩
          | link q todo =>
              obtain ⟨hdot, hup, hshort, -, target, hnode, hq, htodo⟩ :=
                stride_eq_link_iff.mp hstride
              cases links with
              | zero => simp [hstride, goOn] at h
              | succ fewer =>
                  rw [hstride] at h
                  obtain ⟨links', r, hr⟩ := ihlinks fewer q todo rfl
                    (by rw [htodo, ← List.append_assoc]) h
                  refine ⟨links', r, .link (stride_eq_link_iff.mpr ?_) hr⟩
                  exact ⟨hdot, hup, hshort, fun _ => rfl, target, hnode, hq, rfl⟩
          | stop result =>
              obtain ⟨fault, rfl⟩ := stride_stop hstride (by simp [hmore])
              simp [hstride, goOn] at h

/-- Files do not lead anywhere, so the directories and links on the way are enough. -/
theorem Enters.of_kept {d d' : Disk} {links links' : Nat} {place q : Place} {names : List String}
    (h : d.Enters links place names links' q)
    (hkept : ∀ r n, d.node? r = some n → (∀ content, n ≠ .file content) → d'.node? r = some n) :
    d'.Enters links place names links' q := by
  induction h with
  | here => exact .here
  | on hon _ ih =>
      refine .on (stride_eq_on_iff.mpr ?_) ih
      rcases stride_eq_on_iff.mp hon with hdot | hup | ⟨hdot, hup, hshort, hnode, hq⟩
      · exact .inl hdot
      · exact .inr (.inl hup)
      · exact .inr (.inr ⟨hdot, hup, hshort, hkept _ _ hnode (by simp), hq⟩)
  | link hlink _ ih =>
      obtain ⟨hdot, hup, hshort, hfollow, target, hnode, hq⟩ := stride_eq_link_iff.mp hlink
      refine .link (stride_eq_link_iff.mpr ?_) ih
      exact ⟨hdot, hup, hshort, hfollow, target, hkept _ _ hnode (by simp), hq⟩

theorem Extends.enters {d d' : Disk} (h : d.Extends d') {links links' : Nat} {p q : Place}
    {names : List String} (henters : d.Enters links p names links' q) :
    d'.Enters links p names links' q :=
  henters.of_kept fun _ _ hr _ => h.node hr

theorem Enters.makeDirsFrom {d : Disk} {links links' : Nat} {p q : Place} {names : List String}
    (h : d.Enters links p names links' q) (hlinks : links ≤ linkLimit) (more : List String) :
    d.makeDirsFrom p (names ++ more) = d.makeDirsFrom q more := by
  induction names generalizing links p with
  | nil =>
      cases h
      rfl
  | cons name names ih =>
      obtain ⟨mid, r, hfirst, hrest⟩ := Enters.split [name] h
      rw [List.cons_append, makeDirsFrom_of_dir _ (hfirst.walk_dir hlinks)]
      exact ih hrest (Nat.le_trans hfirst.le hlinks)

/-! ## Paths through directories -/

/-- Where a path starts that can name anything. -/
def origin (d : Disk) (p : Path) : Place := if p.isAbsolute then [] else d.here

theorem start_eq {d : Disk} {p : Path} {place : Place} (h : d.start p = .ok place) :
    place = d.origin p := by
  unfold start at h
  split at h
  · simp at h
  · split at h
    · simp at h
    · split at h
      · simp at h
      · exact (Except.ok.inj h).symm

section Under

variable {d : Disk} {root q : Path} {more : List String} {links : Nat} {home : Place}
  (henters : d.Enters linkLimit (d.origin root) root.names links home)

include henters

theorem find_under (hq : Path.Under root more q) (hmore : more ≠ []) {place : Place}
    (hstart : d.start q = .ok place) (follow : Bool) :
    d.find follow q = d.walk follow links home more := by
  have hplace : place = d.origin root := by
    rw [start_eq hstart, origin, origin, hq.isAbsolute]
  rw [find_of_start hstart, hplace, hq.steps, hq.names]
  exact henters.walk follow hmore

theorem walk_of_find_under (hq : Path.Under root more q) (hmore : more ≠ []) {follow : Bool}
    {s : Spot} (h : d.find follow q = .ok s) : d.walk follow links home more = .ok s := by
  cases hstart : d.start q with
  | error fault => simp [find_of_no_start hstart] at h
  | ok place => rwa [← find_under henters hq hmore hstart]

theorem makeDirs_under (hq : Path.Under root more q) :
    d.makeDirs q = d.makeDirsFrom home more ∨ (d.makeDirs q).2 = d := by
  unfold makeDirs
  split
  · exact .inr rfl
  · cases hstart : d.start q with
    | error fault => exact .inr rfl
    | ok place =>
        left
        have hplace : place = d.origin root := by
          rw [start_eq hstart, origin, origin, hq.isAbsolute]
        rw [hplace, hq.steps, hq.names]
        exact henters.makeDirsFrom (Nat.le_refl _) more

end Under

theorem walk_of_find_join {d : Disk} {root : Path} {name : String} (h : Path.IsPiece name)
    {follow : Bool} {s : Spot} (hfind : d.find follow (root.join name) = .ok s) :
    d.walk follow linkLimit (d.origin root) (root.names ++ [name]) = .ok s := by
  cases hstart : d.start (root.join name) with
  | error fault => simp [find_of_no_start hstart] at hfind
  | ok place =>
      have hplace : place = d.origin root := by
        rw [start_eq hstart, origin, origin, Path.isAbsolute_join h]
      rwa [find_of_start hstart, hplace, Path.steps_join h] at hfind

theorem enters_of_find_join {d : Disk} {root : Path} {name : String} (h : Path.IsPiece name)
    {follow : Bool} {s : Spot} (hfind : d.find follow (root.join name) = .ok s) :
    ∃ links home, d.Enters linkLimit (d.origin root) root.names links home :=
  enters_of_walk (walk_of_find_join h hfind) (by simp)

/-- A path is looked up where another one is that is as long and starts as it does. -/
theorem start_of_shorter {d : Disk} {p q : Path} (hne : q.text ≠ "")
    (hclean : '\x00' ∈ q.text.toList → '\x00' ∈ p.text.toList)
    (hle : q.text.utf8ByteSize ≤ p.text.utf8ByteSize) (habsolute : q.isAbsolute = p.isAbsolute)
    {place : Place} (hstart : d.start p = .ok place) : d.start q = .ok place := by
  have hplace := start_eq hstart
  unfold start at hstart ⊢
  split at hstart
  · simp at hstart
  · next hnul =>
    split at hstart
    · simp at hstart
    · split at hstart
      · simp at hstart
      · next hshort =>
        have hnul' : ¬q.text.toList.contains '\x00' = true := fun hmem =>
          hnul (by simpa using hclean (by simpa using hmem))
        rw [if_neg hnul', if_neg (by simpa using hne), if_neg (by omega), hplace, origin,
          ← habsolute]

theorem start_join_of_shorter {d : Disk} {root : Path} {a b : String} (ha : Path.IsPiece a)
    (hb : Path.IsPiece b) (hnul : '\x00' ∉ b.toList) (hle : b.utf8ByteSize ≤ a.utf8ByteSize)
    {place : Place} (hstart : d.start (root.join a) = .ok place) :
    d.start (root.join b) = .ok place := by
  obtain ⟨front, hfront⟩ := Path.join_text root
  have hbne : b ≠ "" := by
    rintro rfl
    exact hb.nonempty rfl
  refine start_of_shorter ?_ ?_ ?_ ?_ hstart
  · simp [hfront hb, hbne]
  · rw [hfront hb, hfront ha, String.toList_append, String.toList_append, List.mem_append,
      List.mem_append]
    exact fun hmem => .inl (hmem.resolve_right hnul)
  · rw [hfront hb, hfront ha, String.utf8ByteSize_append, String.utf8ByteSize_append]
    omega
  · rw [Path.isAbsolute_join hb, Path.isAbsolute_join ha]

end PartDepot.Disk
